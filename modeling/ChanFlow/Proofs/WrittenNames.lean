import ChanFlow.Proofs.HandOver
import ChanFlow.Proofs.Naming

/-!
The names under which channels are written.

Instructions put statements at the end of a routine, and a statement mentions the channels that the operands of
its instruction are bound to. `Names` reads the name of a channel off the statement that was appended. What is
written there is the name under which the channel came in or else the name of the value that created it, and the
table of what came in never changes. That settles which channels have one name (`channels_named_apart`).
-/
open List

namespace ChanFlow.Analysis

open Ssa Protocol

variable {p : Program} {o : Options} {m m' : Machine} {s t : Statement} {i : Instance} {name : String} {c : Call}
  {walk : Walker} {types : TypeTable} {a caller callee : Activation} {f : Function} {args : List Operand}
  {captures : List Instance} {receiver : Option Instance}

/-! ### Statements at the end of a routine -/

/-- A step has put the statement at the end of the routine. -/
def Appends (m m' : Machine) (s : Statement) : Prop := m'.act.routine = m.act.routine.addStatement s

theorem getLast?_append (ss : List Statement) (s : Statement) : (Routine.append ss s).getLast? = some s := by
  unfold Routine.append
  split <;> exact getLast?_concat

theorem Appends.unique (one : Appends m m' s) (two : Appends m m' t) : s = t := by
  have same : Routine.append m.act.routine.stmts s = Routine.append m.act.routine.stmts t :=
    congrArg Routine.stmts (one.symm.trans two)
  have last := congrArg getLast? same
  rw [getLast?_append, getLast?_append] at last
  exact Option.some.inj last

/-- Where the routine stays as it is, only a `tau` can have given way to another. -/
theorem Appends.eq_tau (appends : Appends m m' s) (same : m'.act.routine = m.act.routine) : s = .tau := by
  have stmts : m.act.routine.stmts = Routine.append m.act.routine.stmts s :=
    congrArg Routine.stmts (same.symm.trans appends)
  have last := congrArg getLast? stmts
  rw [getLast?_append] at last
  by_cases silent : m.act.routine.stmts.getLast? = some .tau
  · exact Option.some.inj (last.symm.trans silent)
  · rw [Routine.append, if_neg silent] at stmts
    exact absurd stmts (by simp)

/-! ### Channels that are handed over -/

/-- A parameter that carries channels, with what it is handed. -/
def carried? (types : TypeTable) (e : Param × Option Instance) : Option (Param × Instance) :=
  if types.carriesChan e.1.ty then e.2.map (e.1, ·) else none

/-- A parameter whose name is taken is passed over. -/
def addFirst (es : List (Param × Instance)) (e : Param × Instance) : List (Param × Instance) :=
  if es.any (·.1.name = e.1.name) then es else es ++ [e]

/-- The channels that a call hands over, with the parameters that get them, in the order of the parameters. -/
def carriedTo (types : TypeTable) (m : Machine) (f : Function) (args : List Operand) (captures : List Instance)
    (receiver : Option Instance) : List (Param × Instance) :=
  ((handedTo m f args captures receiver).filterMap (carried? types)).foldl addFirst []

/-- A parameter of a routine for a channel that is handed over. -/
def parameterFor (caller : Activation) (e : Param × Instance) : Parameter := ⟨caller.channelName e.2, e.1.name⟩

theorem foldl_addParam (caller : Activation) (es done : List (Param × Instance)) :
    (es.map (parameterFor caller)).foldl Routine.addParam (done.map (parameterFor caller)) =
      (es.foldl addFirst done).map (parameterFor caller) := by
  induction es generalizing done with
  | nil => rfl
  | cons e rest ih =>
    have first : Routine.addParam (done.map (parameterFor caller)) (parameterFor caller e) =
        (addFirst done e).map (parameterFor caller) := by
      have taken : (done.map (parameterFor caller)).any (·.callee = (parameterFor caller e).callee) =
          done.any (·.1.name = e.1.name) := any_map
      rw [Routine.addParam, addFirst, taken]
      split
      · rfl
      · rw [map_append, map_singleton]
    rw [map_cons, foldl_cons, foldl_cons, first, ih]

theorem params_hand (types : TypeTable) (caller callee : Activation) (param : Param) (v : Instance) :
    Leads (hand types caller callee param v) m (fun a _ => a.routine.params =
      ((carried? types (param, some v)).toList.map (parameterFor caller)).foldl Routine.addParam callee.routine.params)
      fun _ _ => False := by
  rw [hand, leads_bind, leads_emit]
  dsimp only
  rw [leads_pure, carried?]
  cases caller.storage.get? v <;> cases types.carriesChan param.ty <;> rfl

theorem params_handAll (types : TypeTable) (caller callee : Activation) (es : List (Param × Option Instance)) :
    Leads (handAll types caller callee es) m (fun a _ => a.routine.params =
      ((es.filterMap (carried? types)).map (parameterFor caller)).foldl Routine.addParam callee.routine.params)
      fun _ _ => False := by
  induction es generalizing callee m with
  | nil => rfl
  | cons e rest ih =>
    obtain ⟨param, i⟩ := e
    cases i with
    | none =>
      rw [handAll, leads_bind, leads_emit, filterMap_cons_none (by simp [carried?])]
      exact ih callee
    | some v =>
      rw [handAll, leads_bind]
      refine (params_hand types caller callee param v).surely fun b m₁ handed => ?_
      refine (ih b).surely fun a _ later => ?_
      rw [later, handed, ← foldl_append, ← map_append, filterMap_cons]
      cases carried? types (param, some v) <;> rfl

/-- The arguments of a call are the caller's names for the channels that are handed over. -/
theorem args_prepare (prepared : prepare types f args captures receiver m = .ok a m') :
    a.routine.params.map (·.caller) =
      (carriedTo types m f args captures receiver).map (m.act.channelName ·.2) := by
  have params : a.routine.params = (carriedTo types m f args captures receiver).map (parameterFor m.act) := by
    refine prepare_handed (P := fun a => a.routine.params = _) prepared fun _ _ => ?_
    refine (params_handAll types m.act _ _).surely fun a _ params => ?_
    exact params.trans (foldl_addParam m.act _ [])
  rw [params, map_map]
  rfl

/-! ### What a step appends -/

theorem leads_named (x : Operand) :
    Leads (channelOf x) m fun name m' => (∃ i, held? m x = some i ∧ name = m.act.channelName i) ∧
      m'.act = m.act ∧ m'.context.globals = m.context.globals := by
  rw [channelOf, leads_bind]
  refine (leads_instance x).imp fun i m₁ read => ?_
  rw [leads_bind, leads_activation, leads_pure]
  exact ⟨⟨i, read.1, by rw [read.2.1]⟩, read.2.1, read.2.2.1⟩

/-- An operation on one channel appends a statement that names the channel. -/
theorem leads_utter (chan : Operand) (s : String → Statement) :
    Leads (channelOf chan >>= fun name => addStatement (s name)) m fun _ m' =>
      ∃ i, held? m chan = some i ∧ Appends m m' (s (m.act.channelName i)) := by
  rw [leads_bind]
  refine (leads_named chan).imp fun name m₁ read => ?_
  obtain ⟨⟨i, held, rfl⟩, act, -⟩ := read
  rw [leads_addStatement]
  exact ⟨i, held, congrArg (fun a : Activation => a.routine.addStatement _) act⟩

/-- The current activation is kept, apart from its values. -/
def Still (m m' : Machine) : Prop := m'.act.skeleton = m.act.skeleton ∧ m'.act.routine = m.act.routine

theorem Still.trans {m'' : Machine} (one : Still m m') (two : Still m' m'') : Still m m'' :=
  ⟨two.1.trans one.1, two.2.trans one.2⟩

theorem Composed.still {α : Type} {x : Run α} {v : α} (composed : Composed ⟨True, True, False, False⟩ x)
    (ends : x m = .ok v m') : Still m m' :=
  ⟨((composed.quietly id).leads m |>.ok ends).1.skeleton, congrArg (·.2.1) ((composed.mute id m).ok ends)⟩

theorem leads_recv (value : String) (ty : Ty) (chan : Operand) (commaOk : Bool) :
    Leads (recv value ty chan commaOk) m fun _ m' =>
      ∃ i, held? m chan = some i ∧ Appends m m' (.recv (m.act.channelName i)) := by
  have split : recv value ty chan commaOk = (channelOf chan >>= fun name => addStatement (.recv name)) >>= fun _ =>
      if commaOk then bindWithFlag value ty none else bindFresh value ty := by
    rw [bind_assoc]
    rfl
  rw [split, leads_bind]
  refine (leads_utter chan .recv).imp fun _ m₁ said => leads_of (fun _ m₂ ends => ?_) fun _ _ _ => trivial
  obtain ⟨i, held, appends⟩ := said
  have bound : Still m₁ m₂ := by
    split at ends
    · exact (composed_bindWithFlag value ty none).still ends
    · exact (composed_bindFresh value ty).still ends
  exact ⟨i, held, bound.2.trans appends⟩

/-- A channel that is created is bound to its value, and has the name of it. -/
theorem leads_makeChan (value : String) (ty : Ty) (capacity : Operand) :
    Leads (makeChan value ty capacity) m fun _ m' =>
      m'.act.resolve? value = some (m.act.fresh value ty) ∧ ∃ n, Appends m m' (.newChan value n) := by
  unfold makeChan
  split
  · trivial
  · next n _ => exact ⟨by simp [Activation.resolve?, Activation.bind, Activation.fresh], n, rfl⟩

theorem leads_names {α : Type} (chan : α → Operand) (cs : List α) :
    Leads (cs.mapM (channelOf <| chan ·)) m fun names m' => m'.act = m.act ∧
      m'.context.globals = m.context.globals ∧
      Forall₂ (fun c name => ∃ i, held? m (chan c) = some i ∧ name = m.act.channelName i) cs names := by
  induction cs generalizing m with
  | nil =>
    rw [mapM_nil]
    exact ⟨rfl, rfl, .nil⟩
  | cons c rest ih =>
    rw [mapM_cons, leads_bind]
    refine (leads_named (chan c)).imp fun name m₁ here => ?_
    obtain ⟨named, act, globals⟩ := here
    rw [leads_bind]
    refine ih.imp fun names m₂ there => ?_
    refine ⟨there.1.trans act, there.2.1.trans globals, .cons named (there.2.2.imp ?_)⟩
    rintro c name ⟨i, held, rfl⟩
    exact ⟨i, (held?_congr act globals (chan c)).symm.trans held, by rw [act]⟩

/-- A select has a case for each operation, which names the channel of it. -/
theorem leads_offer (types : TypeTable) (value : String) (ty : Ty) (blocking : Bool) (cases : List SelectCase) :
    Leads (select types value ty blocking cases) m fun _ m' =>
      ∃ names, Forall₂ (fun c name => ∃ i, held? m c.chan = some i ∧ name = m.act.channelName i) cases names ∧
        Appends m m' (.select (if blocking then cases.zipWith readyCase names
          else cases.zipWith readyCase names ++ [[.tau]])) := by
  rw [select, leads_bind]
  refine (leads_names SelectCase.chan cases).imp fun names m₁ read => ?_
  exact ⟨names, read.2.2, congrArg (fun a : Activation => a.routine.addStatement _) read.1⟩

theorem name_of_ready {c : SelectCase} {chan : String} (ready : readyCase c chan = [s])
    (text : s = .send name ∨ s = .recv name) : name = chan := by
  rcases text with rfl | rfl <;> cases c <;> cases ready <;> rfl

/-- What a call or a spawn can append. -/
inductive Utterance (p : Program) (c : Call) (m : Machine) : Statement → Prop
  | silent : Utterance p c m .tau
  | close {chan : Operand} {rest : List Operand} {i : Instance} (callee : c.callee = .builtin "close")
    (args : c.args = chan :: rest) (held : held? m chan = some i) : Utterance p c m (.close (m.act.channelName i))
  | call {f : Function} {captures : List Instance} {receiver : Option Instance} {m₁ : Machine} {routine : String}
    (found : target p c.callee m = .ok (.routine f captures receiver) m₁) :
    Utterance p c m (.call routine ((carriedTo p.types m₁ f c.args captures receiver).map (m.act.channelName ·.2)))
  | spawn {f : Function} {captures : List Instance} {receiver : Option Instance} {m₁ : Machine} {routine : String}
    (found : target p c.callee m = .ok (.routine f captures receiver) m₁) :
    Utterance p c m (.spawn routine ((carriedTo p.types m₁ f c.args captures receiver).map (m.act.channelName ·.2)))

/-- A step that makes a call keeps the activation apart from its values, and appends what a call can append. -/
structure Speaks (p : Program) (c : Call) (m m' : Machine) : Prop where
  skeleton : m'.act.skeleton = m.act.skeleton
  utters : ∀ s, Appends m m' s → Utterance p c m s

theorem channelName_congr {b : Activation} (same : b.skeleton = a.skeleton) (i : Instance) :
    b.channelName i = a.channelName i := by
  rw [Activation.channelName_eq, Activation.channelName_eq, show b.names = a.names from congrArg (·.names) same]

theorem Still.speaks (still : Still m m') : Speaks p c m m' := by
  refine ⟨still.1, fun s appends => ?_⟩
  obtain rfl := appends.eq_tau still.2
  exact .silent

theorem speaks_builtin {func : String} {result : Result} (builtin : c.callee = .builtin func) :
    Leads (callBuiltin func c.args result) m fun _ m' => Speaks p c m m' := by
  have silent {x : Run Unit} (composed : Composed ⟨True, True, False, False⟩ x) :
      Leads x m fun _ m' => Speaks p c m m' :=
    leads_of (fun _ _ ends => (composed.still ends).speaks) fun _ _ _ => trivial
  unfold callBuiltin
  split
  · exact silent (.bind .activation fun _ => .emit nofun)
  · next chan rest args =>
    refine leads_of (fun _ m' ends => ⟨?_, fun s appended => ?_⟩) fun _ _ _ => trivial
    · exact (((Quietly.of_composed (composed_close trivial chan)).leads m).ok ends).1.skeleton
    · obtain ⟨i, held, appends⟩ := (leads_utter chan .close).ok ends
      rw [appended.unique appends]
      exact .close builtin args held
  · refine silent (.bind (composed_instanceOf? _) fun found => ?_)
    split
    · exact composed_bindValue _ _
    · exact composed_bindFresh _ _
  · exact silent (.pure ())
  · exact silent (composed_bindFreshResult _)

/-- Preparing an activation leaves the caller as it is, and its names for what is handed over are the arguments. -/
theorem still_prepare {m₂ : Machine} (prepares : Prepares p c m f a m₂) :
    Still m m₂ ∧ ∃ captures receiver m₁, target p c.callee m = .ok (.routine f captures receiver) m₁ ∧
      a.routine.params.map (·.caller) =
        (carriedTo p.types m₁ f c.args captures receiver).map (m.act.channelName ·.2) := by
  obtain @⟨captures, receiver, m₁, found, prepared⟩ := prepares
  have before : Still m m₁ := (composed_target p c.callee).still found
  have after : Still m₁ m₂ := (composed_prepare _ _ _ _ _).still prepared
  refine ⟨before.trans after, captures, receiver, m₁, found, ?_⟩
  rw [args_prepare prepared]
  exact map_congr_left fun e _ => channelName_congr before.1 e.2

theorem leads_callSpeaks (regular : Regular walk) (result : Result) :
    Leads (call p walk c result) m fun _ m' => Speaks p c m m' := by
  refine (guided_callExactly regular (mayFail_true m) (fun name m' builtin ends => (speaks_builtin builtin).ok ends)
    (fun routine m₁ e m' _ found ends => ?_) (fun t m₁ e m' _ found ends => ?_) (fun _ _ _ _ _ => trivial)
    fun f a m₂ n _ prepares _ _ _ => ?_).leads
  · have bound : Still m₁ m' := (composed_bindForeignResult _ _ _).still (m := m₁.emit e) ends
    exact (((composed_target p c.callee).still found).trans bound).speaks
  · have bound : Still m₁ m' := (composed_bindFreshResult _).still (m := m₁.emit e) ends
    exact (((composed_target p c.callee).still found).trans bound).speaks
  · obtain ⟨still, captures, receiver, m₁, found, args⟩ := still_prepare prepares
    refine .of_leads (leads_of (fun _ m₃ _ => ⟨mayFail_true m₃, fun m₄ ends => ?_⟩) fun _ _ _ => trivial)
    have taken := (composed_takeResult trivial p.types m₃.act result).still ends
    refine ⟨taken.1.trans still.1, fun s appends => ?_⟩
    have called : Appends m m₄ (.call m₃.act.routine.name (a.routine.params.map (·.caller))) :=
      taken.2.trans (congrArg (fun r : Routine => r.addStatement _) still.2)
    rw [appends.unique called, args]
    exact .call found

theorem leads_spawnSpeaks : Leads (spawn p c) m fun _ m' => Speaks p c m m' := by
  refine (guided_spawnExactly (mayFail_true m) (fun t m₁ e _ found => ?_) (fun _ _ _ _ _ => trivial)
    fun f a m₂ n prepares _ _ m₃ eq => ?_).leads
  · have before : Still m m₁ := (composed_target p c.callee).still found
    exact Still.speaks ⟨before.1, before.2⟩
  · obtain ⟨still, captures, receiver, m₁, found, args⟩ := still_prepare prepares
    have spawned {m' : Machine} (same : m'.act = m₃.act) : Speaks p c m m' := by
      rw [eq] at same
      refine ⟨(congrArg Activation.skeleton same).trans still.1, fun s appends => ?_⟩
      have written : Appends m m' (.spawn a.routine.name (a.routine.params.map (·.caller))) :=
        (congrArg Activation.routine same).trans (congrArg (fun r : Routine => r.addStatement _) still.2)
      rw [appends.unique written, args]
      exact .spawn found
    exact ⟨fun _ _ _ => spawned rfl, fun _ _ _ => spawned rfl⟩

/-! ### Names that are written -/

/-- What an activation does in a run: it interprets an instruction, or one of the calls that it deferred. -/
inductive Acts (p : Program) (o : Options) : Machine → Action → Machine → Prop
  | instr {n depth : Nat} {arrival : Arrival} {i : Instr} {m m' : Machine}
    (stops : StopsAt p o n (.instr arrival i) (m.withBudget 0))
    (ends : interpret ⟨p, o⟩ (walkBlock ⟨p, o⟩ depth) arrival i.action m = .ok () m') : Acts p o m i.action m'
  | deferred {n depth : Nat} {arrival : Arrival} {pos : Option Position} {first rest : List Call} {c : Call}
    {m₀ m m' : Machine} (stops : StopsAt p o n (.instr arrival ⟨.perform .runDefers, pos⟩) (m₀.withBudget 0))
    (listed : m₀.act.defers.reverse = first ++ c :: rest)
    (before : first.forM (call p (walkBlock ⟨p, o⟩ depth) · none) m₀ = .ok () m)
    (ends : call p (walkBlock ⟨p, o⟩ depth) c none m = .ok () m') : Acts p o m (.perform (.call c)) m'

/-- The call or the spawn that an action makes. -/
def callOf? : Action → Option Call
  | .define _ _ (.call c) | .perform (.call c) | .perform (.go c) => some c
  | _ => none

/-- A statement that an action appends mentions a channel under a name. The channel is the one that an operand of the
action is bound to where it begins, or that the defined value is bound to where it ends. -/
inductive Mentions (p : Program) (m m' : Machine) : Action → Statement → Instance → String → Prop
  | created {value name : String} {ty : Ty} {capacity : Operand} {size : Int} {i : Instance}
    (bound : m'.act.resolve? value = some i) :
    Mentions p m m' (.define value ty (.makeChan capacity)) (.newChan name size) i name
  | sent {chan x : Operand} {i : Instance} {name : String} (held : held? m chan = some i) :
    Mentions p m m' (.perform (.send chan x)) (.send name) i name
  | received {value name : String} {ty : Ty} {chan : Operand} {commaOk : Bool} {i : Instance}
    (held : held? m chan = some i) : Mentions p m m' (.define value ty (.recv chan commaOk)) (.recv name) i name
  | closed {action : Action} {c : Call} {chan : Operand} {rest : List Operand} {i : Instance} {name : String}
    (calls : callOf? action = some c) (args : c.args = chan :: rest) (held : held? m chan = some i) :
    Mentions p m m' action (.close name) i name
  /-- The case of a select at some place is for the operation at this place. -/
  | offered {value name : String} {ty : Ty} {blocking : Bool} {cases : List SelectCase} {c : SelectCase}
    {bodies : List (List Statement)} {k : Nat} {s : Statement} {i : Instance} (case : cases[k]? = some c)
    (held : held? m c.chan = some i) (body : bodies[k]? = some [s]) (text : s = .send name ∨ s = .recv name) :
    Mentions p m m' (.define value ty (.select blocking cases)) (.select bodies) i name
  /-- The argument at some place is for the channel that the parameter at this place is handed. -/
  | handed {action : Action} {c : Call} {f : Function} {captures : List Instance} {receiver : Option Instance}
    {m₁ : Machine} {s : Statement} {routine name : String} {args : List String} {k : Nat} {param : Param}
    {i : Instance} (calls : callOf? action = some c)
    (found : target p c.callee m = .ok (.routine f captures receiver) m₁)
    (text : s = .call routine args ∨ s = .spawn routine args)
    (given : (carriedTo p.types m₁ f c.args captures receiver)[k]? = some (param, i)) (arg : args[k]? = some name) :
    Mentions p m m' action s i name

/-- The states belong to the same activation, or both to the initialiser or the entry function, which write into one
routine. -/
def SameAuthor (m m' : Machine) : Prop :=
  m.act.ident = m'.act.ident ∨ m.act.callers = [] ∧ m'.act.callers = []

/-- In a state that runs come through, a statement is appended which has the name for the channel. -/
inductive Names (p : Program) (o : Options) : Machine → Instance → String → Prop
  | written {m m' : Machine} {action : Action} {s : Statement} {i : Instance} {name : String}
    (acts : Acts p o m action m') (appends : Appends m m' s) (mentions : Mentions p m m' action s i name) :
    Names p o m i name
  /-- A merge point is called with names that were written before. -/
  | handedOn {m₀ m m' : Machine} {n depth src dst : Nat} {label : String} {args : List String} {i : Instance}
    {name : String} (before : Names p o m₀ i name) (same : SameAuthor m₀ m)
    (stops : StopsAt p o n (.edge src dst) (m.withBudget 0))
    (ends : followEdge (walkBlock ⟨p, o⟩ depth) src dst m = .ok () m') (appends : Appends m m' (.call label args))
    (member : name ∈ args) : Names p o m i name

/-- Runs come through a state in which the activation differs at most in its values. -/
def Seen (p : Program) (o : Options) (m : Machine) : Prop :=
  ∃ n point m₀, StopsAt p o n point m₀ ∧ isPaid point ∧ m₀.act.skeleton = m.act.skeleton

theorem skeleton_calls (depth : Nat) (first : List Call) :
    Leads (first.forM (call p (walkBlock ⟨p, o⟩ depth) · none)) m fun _ m' =>
      m'.act.skeleton = m.act.skeleton := by
  induction first generalizing m with
  | nil => exact rfl
  | cons c rest ih =>
    rw [leads_forM_cons]
    refine (leads_callSpeaks (regular_walkBlock _ depth) none).imp fun _ m₁ speaks => ?_
    exact ih.imp fun _ _ same => same.trans speaks.skeleton

theorem Acts.seen {action : Action} (acts : Acts p o m action m') : Seen p o m := by
  cases acts with
  | instr stops => exact ⟨_, _, _, stops, rfl, rfl⟩
  | deferred stops _ before => exact ⟨_, _, _, stops, rfl, ((skeleton_calls _ _).ok before).symm⟩

theorem Names.seen (names : Names p o m i name) : Seen p o m := by
  cases names with
  | written acts => exact acts.seen
  | handedOn _ _ stops => exact ⟨_, _, _, stops, rfl, rfl⟩

theorem Seen.titled (seen : Seen p o m) : m.act.Titled := by
  obtain ⟨n, point, m₀, stops, -, same⟩ := seen
  have same := same.symm
  exact (titled_of_stops stops).congr (congrArg (·.func) same) (congrArg (·.seq) same) (congrArg (·.callers) same)
    (congrArg (·.names) same)

/-- Whoever writes has one table. -/
theorem names_eq_of_author {m₁ m₂ : Machine} (one : Seen p o m₁) (two : Seen p o m₂)
    (same : SameAuthor m₁ m₂) : m₁.act.names = m₂.act.names := by
  rcases same with same | ⟨outer₁, outer₂⟩
  · obtain ⟨n, point, m₀, stops₁, paid₁, same₁⟩ := one
    obtain ⟨n', point', m₀', stops₂, paid₂, same₂⟩ := two
    have ident : m₀.act.ident = m₀'.act.ident := by
      have ident₁ : m₀.act.skeleton.ident = m₁.act.skeleton.ident := congrArg _ same₁
      have ident₂ : m₀'.act.skeleton.ident = m₂.act.skeleton.ident := congrArg _ same₂
      exact ident₁.trans (same.trans ident₂.symm)
    have names := names_eq_of_stops stops₁ stops₂ paid₁ paid₂ ident
    rwa [show m₀.act.names = m₁.act.names from congrArg (·.names) same₁,
      show m₀'.act.names = m₂.act.names from congrArg (·.names) same₂] at names
  · rw [one.titled.outer outer₁, two.titled.outer outer₂]

theorem Utterance.of_acts {action : Action} (acts : Acts p o m action m') (calls : callOf? action = some c)
    (appends : Appends m m' s) : Utterance p c m s := by
  cases acts with
  | @instr n depth arrival i _ _ stops ends =>
    have regular := regular_walkBlock ⟨p, o⟩ depth
    generalize i.action = action at ends calls
    cases action with
    | define value ty op =>
      cases op with
      | call d =>
        obtain rfl := Option.some.inj calls
        exact ((leads_callSpeaks regular (some (value, ty))).ok ends).utters s appends
      | _ => exact nomatch calls
    | perform effect =>
      cases effect with
      | call d =>
        obtain rfl := Option.some.inj calls
        exact ((leads_callSpeaks regular none).ok ends).utters s appends
      | go d =>
        obtain rfl := Option.some.inj calls
        exact (leads_spawnSpeaks.ok ends).utters s appends
      | _ => exact nomatch calls
  | @deferred n depth _ _ _ _ d _ _ _ _ _ _ ends =>
    obtain rfl := Option.some.inj calls
    exact ((leads_callSpeaks (regular_walkBlock _ depth) none).ok ends).utters s appends

/-- An instruction that is no call is not one of those deferred. -/
theorem Acts.interprets {action : Action} (acts : Acts p o m action m') (silent : callOf? action = none) :
    ∃ depth arrival, interpret ⟨p, o⟩ (walkBlock ⟨p, o⟩ depth) arrival action m = .ok () m' := by
  cases acts with
  | instr _ ends => exact ⟨_, _, ends⟩
  | deferred => exact nomatch silent

theorem Mentions.eq {action : Action} (acts : Acts p o m action m') (appends : Appends m m' s)
    (mentions : Mentions p m m' action s i name) : name = m.act.channelName i := by
  cases mentions with
  | @created value _ ty capacity size _ bound =>
    obtain ⟨depth, arrival, ends⟩ := acts.interprets rfl
    obtain ⟨fresh, n, written⟩ := (leads_makeChan value ty capacity).ok ends
    obtain rfl := Option.some.inj (bound.symm.trans fresh)
    cases appends.unique written
    rw [Activation.channelName_eq, Activation.fresh, acts.seen.titled.foreign]
    rfl
  | @sent chan x _ _ held =>
    obtain ⟨depth, arrival, ends⟩ := acts.interprets rfl
    obtain ⟨j, held', written⟩ := (leads_utter chan .send).ok ends
    obtain rfl := Option.some.inj (held.symm.trans held')
    cases appends.unique written
    rfl
  | @received value _ ty chan commaOk _ held =>
    obtain ⟨depth, arrival, ends⟩ := acts.interprets rfl
    obtain ⟨j, held', written⟩ := (leads_recv value ty chan commaOk).ok ends
    obtain rfl := Option.some.inj (held.symm.trans held')
    cases appends.unique written
    rfl
  | closed calls args held =>
    cases Utterance.of_acts acts calls appends with
    | close _ args' held' =>
      cases args.symm.trans args'
      cases held.symm.trans held'
      rfl
  | @offered value _ ty blocking cases c bodies k s _ case held body text =>
    obtain ⟨depth, arrival, ends⟩ := acts.interprets rfl
    obtain ⟨names, named, written⟩ := (leads_offer p.types value ty blocking cases).ok ends
    cases appends.unique written
    obtain ⟨before, rfl⟩ := List.getElem?_eq_some_iff.1 case
    obtain ⟨length, named⟩ := forall₂_iff_get.1 named
    obtain ⟨j, held', said⟩ := named k before (length ▸ before)
    cases held.symm.trans held'
    have ready : (cases.zipWith readyCase names)[k]? = some (readyCase cases[k] (m.act.channelName i)) := by
      rw [← said, getElem?_zipWith, getElem?_eq_getElem before, getElem?_eq_getElem (length ▸ before)]
      rfl
    have same : readyCase cases[k] (m.act.channelName i) = [s] := by
      split at body
      · exact Option.some.inj (ready.symm.trans body)
      · rw [getElem?_append_left (by simp [← length, before])] at body
        exact Option.some.inj (ready.symm.trans body)
    exact name_of_ready same text
  | handed calls found text given arg =>
    have uttered := Utterance.of_acts acts calls appends
    rcases text with rfl | rfl
    all_goals
      cases uttered
      cases found.symm.trans ‹target p _ m = _›
      rw [getElem?_map, given] at arg
      exact (Option.some.inj arg).symm

/-- A channel is called by its parameter, or else by the value that it was created by. -/
theorem Names.eq (names : Names p o m i name) : name = m.act.channelName i := by
  induction names with
  | written acts appends mentions => exact mentions.eq acts appends
  | handedOn before same stops _ _ _ ih =>
    have table := names_eq_of_author before.seen ⟨_, _, _, stops, rfl, rfl⟩ same
    rw [ih, Activation.channelName_eq, Activation.channelName_eq, table]
    rfl

/-- The activation itself created the instance, as one of a value. -/
def Activation.Created (a : Activation) (value : String) (i : Instance) : Prop :=
  ∃ index ty, i = .value ⟨some a.func.name, value⟩ a.seq index ty

/-- One of two channels did not come in, and the other one is called like the value that created it. -/
inductive Clash (a : Activation) (i j : Instance) : Prop
  | neither (first : a.names.get? i = none) (second : a.names.get? j = none) (same : i.ownName = j.ownName)
  | second (first : a.names.get? i = none) (second : a.names.get? j = some i.ownName)
  | first (first : a.names.get? i = some j.ownName) (second : a.names.get? j = none)

section Channels

variable {m₁ m₂ : Machine} {i₁ i₂ : Instance} {name₁ name₂ : String}

/-- A channel is written under the name of the parameter or captured variable that it came in by, or else under the
name of the value that created it. So whoever writes has one name for it. Two channels that an activation creates
have the same name exactly if the same value creates them. Any two different channels have the same name exactly if
one of them did not come in, and the value that created it has the name of the other. -/
theorem channels_named_apart (first : Names p o m₁ i₁ name₁) (second : Names p o m₂ i₂ name₂)
    (same : SameAuthor m₁ m₂) :
    (∀ inlet, m₁.act.names.get? i₁ = some inlet → name₁ = inlet ∧ inlet ∈ m₁.act.func.inlets) ∧
    (m₁.act.names.get? i₁ = none → name₁ = i₁.ownName) ∧
    (i₁ = i₂ → name₁ = name₂) ∧
    (∀ v₁ v₂, m₁.act.Created v₁ i₁ → m₂.act.Created v₂ i₂ →
      (name₁ = name₂ ↔ v₁ = v₂)) ∧
    (m₁.act.func.inlets.Nodup → i₁ ≠ i₂ → (name₁ = name₂ ↔ Clash m₁.act i₁ i₂)) := by
  have titled₁ := first.seen.titled
  have titled₂ := second.seen.titled
  have table := names_eq_of_author first.seen second.seen same
  have eq₁ : name₁ = (m₁.act.names.get? i₁).getD i₁.ownName := first.eq.trans (m₁.act.channelName_eq i₁)
  have eq₂ : name₂ = (m₂.act.names.get? i₂).getD i₂.ownName := second.eq.trans (m₂.act.channelName_eq i₂)
  refine ⟨fun inlet came => ?_, fun bare => ?_, fun channel => ?_, fun v₁ v₂ created₁ created₂ => ?_,
    fun distinct differ => ?_⟩
  · rw [came] at eq₁
    exact ⟨eq₁, titled₁.inlets i₁ inlet came⟩
  · rw [bare] at eq₁
    exact eq₁
  · rw [eq₁, eq₂, table, channel]
  · obtain ⟨index₁, ty₁, rfl⟩ := created₁
    obtain ⟨index₂, ty₂, rfl⟩ := created₂
    rw [titled₁.foreign] at eq₁
    rw [titled₂.foreign] at eq₂
    rw [eq₁, eq₂]
    exact Iff.rfl
  · rw [← table] at eq₂
    rw [eq₁, eq₂]
    refine ⟨fun written => ?_, fun clash => ?_⟩
    · cases came₁ : m₁.act.names.get? i₁ with
      | none =>
        rw [came₁] at written
        cases came₂ : m₁.act.names.get? i₂ with
        | none =>
          rw [came₂] at written
          exact .neither came₁ came₂ written
        | some inlet =>
          rw [came₂] at written
          exact .second came₁ (came₂.trans (congrArg some written.symm))
      | some inlet =>
        rw [came₁] at written
        cases came₂ : m₁.act.names.get? i₂ with
        | none =>
          rw [came₂] at written
          exact .first (came₁.trans (congrArg some written)) came₂
        | some inlet₂ =>
          rw [came₂] at written
          obtain rfl : inlet = inlet₂ := written
          exact absurd (titled₁.single distinct i₁ i₂ inlet came₁ came₂) differ
    · cases clash with
      | neither none₁ none₂ same => rw [none₁, none₂, Option.getD_none, Option.getD_none, same]
      | second none₁ some₂ => rw [none₁, some₂, Option.getD_none, Option.getD_some]
      | first some₁ none₂ => rw [some₁, none₂, Option.getD_none, Option.getD_some]

end Channels

/-! ### Channels from several callees and iterations -/

/-- Creates a channel and returns it. -/
def minting (name : String) : Function where
  name := name
  params := []
  freeVars := []
  results := some .intChan
  blocks := [
    .of 0 none [] [] [
      .define "c" .intChan (.makeChan (.int 1)),
      .perform (.ret [.var "c"])]]

/-- Takes channels from two functions, one of them called twice, and creates one in each of the two iterations of a
static loop. -/
def gathering : Function := .closed "main.main" [
  .of 0 none [] [1] [
    .define "x" .intChan (.call ⟨.static "main.left", []⟩),
    .define "y" .intChan (.call ⟨.static "main.right", []⟩),
    .define "z" .intChan (.call ⟨.static "main.left", []⟩),
    .perform (.send (.var "x") (.int 1)),
    .perform (.send (.var "y") (.int 1)),
    .perform (.send (.var "z") (.int 1)),
    .perform (.jump 1)],
  .of 1 (some "for.loop") [0, 2] [2, 3] [
    .define "i" .int (.phi [⟨0, .int 0⟩, ⟨2, .var "t"⟩]),
    .define "b" .bool (.binary .lt (.var "i") (.int 2)),
    .perform (.branch (.var "b") 2 3)],
  .of 2 (some "for.body") [1] [1] [
    .define "a" .intChan (.makeChan (.int 1)),
    .perform (.send (.var "a") (.var "i")),
    .define "t" .int (.binary .add (.var "i") (.int 1)),
    .perform (.jump 1)],
  .of 3 (some "for.done") [1] [] [.perform (.ret [])]]

def gathered : Program := { functions := [minting "main.left", minting "main.right", gathering] }

/-- A channel that an activation of one of the callees creates. -/
def gained (func : String) (seq : Nat) : Instance := .value ⟨some func, "c"⟩ seq 0 .intChan

/-- What is looked at of a state in which the entry function sends. -/
def SendsAs (value : String) (i : Instance) (name routine : String) (m : Machine) : Prop :=
  held? m (.var value) = some i ∧ isOk (send (.var value) m) ∧
    (after (send (.var value) m)).act.routine = m.act.routine.addStatement (.send name) ∧
    m.act.ident = ("main.main", 0) ∧ m.act.routine.name = routine ∧ m.act.func.inlets = []

instance (value : String) (i : Instance) (name routine : String) : DecidablePred (SendsAs value i name routine) :=
  fun _ => inferInstanceAs (Decidable (_ ∧ _))

/-- A send that is interpreted in the run of the program. -/
def Sends (n : Nat) (arrival : Arrival) (value : String) (x : Operand) (i : Instance) (name routine : String) : Prop :=
  ∃ m, StopsAt gathered {} n (.instr arrival (.perform (.send (.var value) x))) m ∧
    SendsAs value i name routine m

/-- Two different channels are written under one name by one activation, into one routine. -/
def WrittenAlike (p : Program) (o : Options) (i j : Instance) : Prop :=
  i ≠ j ∧ ∃ m₁ m₂ name, Names p o m₁ i name ∧ Names p o m₂ j name ∧
    m₁.act.ident = m₂.act.ident ∧ m₁.act.routine.name = m₂.act.routine.name

section Sends

variable {n : Nat} {arrival : Arrival} {value routine : String} {x : Operand}

theorem Sends.names (sends : Sends n arrival value x i name routine) :
    ∃ m, Names gathered {} m i name ∧ m.act.ident = ("main.main", 0) ∧ m.act.routine.name = routine ∧
      m.act.func.inlets = [] := by
  obtain ⟨m, stops, held, goes, appends, rest⟩ := sends
  have unpaid : m.budget = 0 := by
    obtain ⟨entry, -, stops⟩ := stops
    exact (steady_stops stops).1 rfl
  obtain ⟨_, ends⟩ := ends_of_isOk goes
  have ends : interpret ⟨gathered, {}⟩ (walkBlock ⟨gathered, {}⟩ 0) arrival
    (.perform (.send (.var value) x)) m =
      .ok () (after (send (.var value) m)) := ends
  rw [← m.withBudget_self, unpaid] at stops
  exact ⟨m, .written (.instr stops ends) appends (.sent held), rest⟩

theorem Sends.alike {n' : Nat} {arrival' : Arrival} {value' : String} {j : Instance}
    (one : Sends n arrival value x i name routine) (two : Sends n' arrival' value' x j name routine)
    (differ : i ≠ j) : WrittenAlike gathered {} i j := by
  obtain ⟨m₁, names₁, ident₁, routine₁, -⟩ := one.names
  obtain ⟨m₂, names₂, ident₂, routine₂, -⟩ := two.names
  exact ⟨differ, m₁, m₂, name, names₁, names₂, ident₁.trans ident₂.symm,
    routine₁.trans routine₂.symm⟩

end Sends

/-- The channel of the first callee and that of the second iteration are told apart. -/
theorem gathering_named_apart :
    ∃ m₁ m₂ name₁ name₂, Names gathered {} m₁ (gained "main.left" 0) name₁ ∧
      Names gathered {} m₂ (minted "a" 1) name₂ ∧ SameAuthor m₁ m₂ ∧ m₁.act.func.inlets.Nodup ∧
      gained "main.left" 0 ≠ minted "a" 1 ∧ ¬ Clash m₁.act (gained "main.left" 0) (minted "a" 1) := by
  have left : Sends 12 ⟨0, none⟩ "x" (.const (.int 1)) (gained "main.left" 0) "c" "main.main" :=
    exists_stop (by decide +kernel)
  have later : Sends 31 ⟨2, some 1⟩ "a" (.var "i") (minted "a" 1) "a" "main.main#1" :=
    exists_stop (by decide +kernel)
  obtain ⟨m₁, first, ident₁, -, inlets⟩ := left.names
  obtain ⟨m₂, second, ident₂, -⟩ := later.names
  have same : SameAuthor m₁ m₂ := .inl (ident₁.trans ident₂.symm)
  have distinct : m₁.act.func.inlets.Nodup := by
    rw [inlets]
    exact nodup_nil
  have differ : gained "main.left" 0 ≠ minted "a" 1 := by decide
  obtain ⟨-, -, -, -, clashes⟩ := channels_named_apart first second same
  refine ⟨m₁, m₂, _, _, first, second, same, distinct, differ, fun clash => ?_⟩
  exact absurd ((clashes distinct differ).2 clash) (by decide)

/-- Channels of different callees, of different activations of one callee and of different iterations are written
under one name. -/
theorem gathering_named_alike :
    (infer 100 gathered {}).result.toBool ∧
      WrittenAlike gathered {} (gained "main.left" 0) (gained "main.right" 0) ∧
      WrittenAlike gathered {} (gained "main.left" 0) (gained "main.left" 1) ∧
      WrittenAlike gathered {} (minted "a" 0) (minted "a" 1) := by
  have left : Sends 12 ⟨0, none⟩ "x" (.const (.int 1)) (gained "main.left" 0) "c" "main.main" :=
    exists_stop (by decide +kernel)
  have right : Sends 13 ⟨0, none⟩ "y" (.const (.int 1)) (gained "main.right" 0) "c" "main.main" :=
    exists_stop (by decide +kernel)
  have again : Sends 14 ⟨0, none⟩ "z" (.const (.int 1)) (gained "main.left" 1) "c" "main.main" :=
    exists_stop (by decide +kernel)
  have early : Sends 22 ⟨2, some 1⟩ "a" (.var "i") (minted "a" 0) "a" "main.main#1" :=
    exists_stop (by decide +kernel)
  have later : Sends 31 ⟨2, some 1⟩ "a" (.var "i") (minted "a" 1) "a" "main.main#1" :=
    exists_stop (by decide +kernel)
  refine ⟨by decide +kernel, left.alike right ?_, left.alike again ?_, early.alike later ?_⟩ <;> decide

end ChanFlow.Analysis
