import ChanFlow.Proofs.Issue

/-!
What a move does to the activations that are about.

An instruction that stays inside its block is interpreted by the current activation, and no other is touched. All other
moves leave the containers and the open selects alone, and pass on what activations have (`Move.upshot`): a callee
draws on its caller, a caller on what was returned, and an activation that goes on keeps what it had.
-/
open List

namespace ChanFlow.Analysis

open Ssa Protocol

variable {α β : Type} {x : Run α} {m m' m₁ m₂ : Machine} {v : Instance} {value : String} {ty : Ty}
  {types : TypeTable}
  {args : List Operand} {captures : List Instance} {receiver : Option Instance} {a : Activation}
  {count : String → Nat} {givers : List Activation}

/-! ### Operands -/

/-- The instance that an operand has. -/
def held? (m : Machine) : Operand → Option Instance
  | .var name => m.act.resolve? name
  | .global name => m.context.globals.get? name
  | .func name => some (.ofProgram name .func)
  | .const literal => some (.const literal)

theorem leads_held? (x : Operand) :
    Leads (instanceOf? x) m (fun i m' => i = held? m x ∧ m'.act = m.act ∧
      m'.context.globals = m.context.globals) fun _ _ => False := by
  cases x with
  | var name => exact ⟨rfl, rfl, rfl⟩
  | global name => exact ⟨rfl, rfl, rfl⟩
  | func name => exact ⟨rfl, rfl, (m.context.kept_valueOfFunction name).2⟩
  | const literal => exact ⟨rfl, rfl, rfl⟩

theorem held?_congr (act : m'.act = m.act) (globals : m'.context.globals = m.context.globals) (x : Operand) :
    held? m' x = held? m x := by
  cases x <;> simp [held?, act, globals]

theorem leads_mapM_held (xs : List Operand) :
    Leads (xs.mapM instanceOf?) m (fun is m' => is = xs.map (held? m) ∧ m'.act = m.act ∧
      m'.context.globals = m.context.globals) fun _ _ => False := by
  induction xs generalizing m with
  | nil =>
    rw [mapM_nil]
    exact ⟨rfl, rfl, rfl⟩
  | cons x rest ih =>
    rw [mapM_cons, leads_bind]
    refine (leads_held? x).imp fun i m₁ here => ?_
    rw [leads_bind]
    refine ih.imp fun is m₂ there => ?_
    refine ⟨?_, there.2.1.trans here.2.1, there.2.2.trans here.2.2⟩
    rw [here.1, there.1, map_cons, map_congr_left fun x _ => held?_congr here.2.1 here.2.2 x]

/-! ### Storage and open selects -/

/-- What a machine has to do with storage. -/
structure Holdings where
  heap : Scope
  arena : Arena
  storage : Scope
  addresses : Table String (ContainerId × Slot)

def Machine.holdings (m : Machine) : Holdings := ⟨m.context.heap, m.context.arena, m.act.storage, m.act.addresses⟩

/-- A step that has nothing to do with storage. -/
def Inert {α : Type} (x : Run α) : Prop := ∀ m, Leads x m fun _ m' => m'.holdings = m.holdings

/-- The open selects stay as they are. -/
def Spares {α : Type} (x : Run α) : Prop := ∀ m, Leads x m fun _ m' => m'.act.selects = m.act.selects

/-- What is out of reach stays as it is. -/
theorem Composed.leads_kept {reach : Reach} (composed : Composed reach x) (m : Machine) :
    Leads x m fun _ m' => (¬ reach.sites → m'.act.selects = m.act.selects) ∧
      (¬ reach.storage → m'.holdings = m.holdings) := by
  induction composed generalizing m with
  | bind _ _ first next =>
    rw [leads_bind]
    refine (first m).imp fun a m₁ kept => (next a m₁).imp fun _ _ kept' => ?_
    exact ⟨fun other => (kept'.1 other).trans (kept.1 other), fun other => (kept'.2 other).trans (kept.2 other)⟩
  | failWith | endless => exact trivial
  | @modifyActivation f _ _ selects storage =>
    refine ⟨fun other => selects.resolve_left other m.act, fun other => ?_⟩
    obtain ⟨same, addresses⟩ := storage.resolve_left other m.act
    show Holdings.mk _ _ (f m.act).storage (f m.act).addresses = _
    rw [same, addresses]
    rfl
  | @modifyContext f _ _ storage =>
    refine ⟨fun _ => rfl, fun other => ?_⟩
    obtain ⟨heap, arena⟩ := storage.resolve_left other m.context
    show Holdings.mk (f m.context).heap (f m.context).arena _ _ = _
    rw [heap, arena]
    rfl
  | pure | activation | context | addStatement | emit => exact ⟨fun _ => rfl, fun _ => rfl⟩
  | changeLoop _ event change =>
    rw [Analysis.changeLoop, leads_bind, leads_activation, leads_bind]
    cases event m.act.loops.current <;> exact ⟨fun _ => rfl, fun _ => rfl⟩

theorem Inert.of_composed (composed : Composed ⟨True, False, True, True⟩ x) : Inert x :=
  fun m => (composed.leads_kept m).imp fun _ _ kept => kept.2 id

theorem Spares.of_composed (composed : Composed ⟨False, True, True, True⟩ x) : Spares x :=
  fun m => (composed.leads_kept m).imp fun _ _ kept => kept.1 id

/-- An activation goes on with the storage and the open selects that it had. -/
structure Aside (m m' : Machine) : Prop where
  same : m'.holdings = m.holdings
  selects : m'.act.selects = m.act.selects
  staying : Staying m m'

theorem Aside.withBudget (m : Machine) (n : Nat) : Aside m (m.withBudget n) := ⟨rfl, rfl, .withBudget m n⟩

theorem Aside.trans (one : Aside m m₁) (two : Aside m₁ m') : Aside m m' :=
  ⟨two.same.trans one.same, two.selects.trans one.selects, one.staying.trans two.staying⟩

theorem Composed.aside {a : α} (composed : Composed ⟨False, False, False, True⟩ x) (ends : x m = .ok a m') :
    Aside m m' ∧ m'.budget = m.budget := by
  obtain ⟨selects, same⟩ := (composed.leads_kept m).ok ends
  obtain ⟨staying, budget⟩ := (composed.quietly id).staying ends
  exact ⟨⟨same id, selects id, staying⟩, budget⟩

/-! ### Calls -/

/-- What is handed to the parameters and the free variables of a function. -/
def handedTo (m : Machine) (f : Function) (args : List Operand) (captures : List Instance)
    (receiver : Option Instance) : List (Param × Option Instance) :=
  f.params.zip ((receiver.map some).toList ++ args.map (held? m)) ++ f.freeVars.zip (captures.map some)

/-- The storage of an activation comes from that of others, and its addresses and open selects are its own. -/
structure Activation.Draws (count : String → Nat) (givers : List Activation) (a : Activation) : Prop where
  storage : ∀ e ∈ a.storage.entries, ∃ b ∈ givers, e ∈ b.storage.entries
  own : count a.func.name ≤ a.seq ∧ a.addresses = {} ∧ a.selects = {} ∨
    ∃ b ∈ givers, b.ident = a.ident ∧ a.addresses = b.addresses ∧ a.selects = b.selects

theorem Activation.Draws.of_mem (about : a ∈ givers) : a.Draws count givers :=
  ⟨fun _ member => ⟨a, about, member⟩, .inr ⟨a, about, rfl, rfl, rfl⟩⟩

theorem Aside.draws (aside : Aside m m') (about : m.act ∈ givers) : m'.act.Draws count givers where
  storage e member := ⟨m.act, about, (congrArg (e ∈ ·.storage.entries) aside.same).mp member⟩
  own := .inr ⟨m.act, about, aside.staying.ident.symm, congrArg (·.addresses) aside.same, aside.selects⟩

/-- The scope `s` is the scope `own` after instances were handed over, with the containers that the scope `given` has
for them. -/
structure Outfitted (given own : Scope) (handed : List (Option Instance)) (s : Scope) : Prop where
  get? : ∀ x, s.get? x = if some x ∈ handed then (given.get? x).or (own.get? x) else own.get? x
  entries : ∀ e ∈ s.entries, e ∈ own.entries ∨ e ∈ given.entries

section Outfitted

variable {given own own' s : Scope} {handed : List (Option Instance)}

theorem Outfitted.nil (given own : Scope) : Outfitted given own [] own :=
  ⟨fun _ => (if_neg not_mem_nil).symm, fun _ => .inl⟩

theorem Outfitted.unbound (rest : Outfitted given own handed s) : Outfitted given own (none :: handed) s := by
  refine ⟨fun x => ?_, rest.entries⟩
  rw [rest.get? x]
  simp only [mem_cons, reduceCtorEq, false_or]

/-- The scope after one more instance is handed over. -/
def handOne (given own : Scope) (v : Instance) : Scope :=
  match given.get? v with
  | some id => own.insert v id
  | none => own

theorem get?_handOne (given own : Scope) (v x : Instance) :
    (handOne given own v).get? x = if x = v then (given.get? x).or (own.get? x) else own.get? x := by
  unfold handOne
  split
  · next id held =>
    rw [Table.get?_insert]
    by_cases same : x = v
    · rw [if_pos same.symm, if_pos same, same, held, Option.some_or]
    · rw [if_neg (Ne.symm same), if_neg same]
  · next missing =>
    by_cases same : x = v
    · rw [if_pos same, same, missing, Option.none_or]
    · rw [if_neg same]

theorem Outfitted.cons (rest : Outfitted given (handOne given own v) handed s) :
    Outfitted given own (some v :: handed) s := by
  refine ⟨fun x => ?_, fun e member => ?_⟩
  · rw [rest.get? x, get?_handOne]
    by_cases same : x = v
    · subst same
      simp only [mem_cons_self, if_true]
      split
      · rw [← Option.or_assoc, Option.or_self]
      · rfl
    · simp only [mem_cons, Option.some.injEq, same, false_or, if_false]
  · rcases rest.entries e member with old | taken
    · unfold handOne at old
      split at old
      · next id held =>
        rcases Table.mem_put old with rfl | old
        · exact .inr (Table.mem_of_find held)
        · exact .inl old
      · exact .inl old
    · exact .inr taken

end Outfitted

/-- A callee is what handing everything over makes of it. -/
theorem prepare_handed {f : Function} {P : Activation → Prop}
    (prepared : prepare types f args captures receiver m = .ok a m')
    (handed : ∀ seq m₁, Leads (handAll types m.act (.start f seq (m.act.callers ++ [m.act.func.name]) f.name)
      (handedTo m f args captures receiver)) m₁ fun a _ => P a) : P a := by
  have leads : Leads (prepare types f args captures receiver) m fun a _ => P a := by
    rw [prepare, leads_bind, leads_activation, leads_bind]
    have numbered : Leads (numberActivation f.name) m (fun _ m₁ => m₁.act = m.act ∧
        m₁.context.globals = m.context.globals) fun _ _ => False := ⟨rfl, rfl⟩
    refine numbered.surely fun seq m₁ here => ?_
    rw [leads_bind]
    refine (leads_mapM_held args).surely fun is m₂ read => ?_
    obtain ⟨rfl, -⟩ := read
    rw [map_congr_left fun x _ => held?_congr here.1 here.2 x]
    exact handed seq m₂
  exact leads.ok prepared

theorem leads_handOutfits (types : TypeTable) (caller callee : Activation) (param : Param) (v : Instance) :
    Leads (hand types caller callee param v) m fun a _ =>
      a.addresses = callee.addresses ∧ a.storage = handOne caller.storage callee.storage v := by
  rw [hand, leads_bind, leads_emit]
  unfold handOne
  constructor <;> cases caller.storage.get? v <;> cases types.carriesChan param.ty <;> rfl

theorem leads_handAllOutfits (types : TypeTable) (caller callee : Activation) (es : List (Param × Option Instance)) :
    Leads (handAll types caller callee es) m fun a _ => a.addresses = callee.addresses ∧
      Outfitted caller.storage callee.storage (es.map (·.2)) a.storage := by
  induction es generalizing callee m with
  | nil => exact ⟨rfl, .nil _ _⟩
  | cons e rest ih =>
    obtain ⟨param, i⟩ := e
    cases i with
    | none =>
      rw [handAll, leads_bind, leads_emit]
      exact (ih callee).imp fun a m' led => ⟨led.1, led.2.unbound⟩
    | some v =>
      rw [handAll, leads_bind]
      refine (leads_handOutfits types caller callee param v).imp fun callee' m₁ here => ?_
      exact (ih callee').imp fun a m' led => ⟨led.1.trans here.1, .cons (here.2 ▸ led.2)⟩

/-- The callee has the storage that its caller has for what is handed over, and no other. -/
theorem prepare_outfits {f : Function} (prepared : prepare types f args captures receiver m = .ok a m') :
    a.addresses = {} ∧ Outfitted m.act.storage {} ((handedTo m f args captures receiver).map (·.2)) a.storage :=
  prepare_handed (P := fun a => a.addresses = {} ∧ Outfitted m.act.storage {} _ a.storage) prepared
    fun _ _ => leads_handAllOutfits types m.act _ _

theorem leads_takeStorageOutfits (callee : Activation) (returned : List (Option Instance)) :
    Leads (takeStorage callee returned) m (fun _ m' => m'.context = m.context ∧ m'.act.addresses = m.act.addresses ∧
      Outfitted callee.storage m.act.storage returned m'.act.storage) fun _ _ => False := by
  induction returned generalizing m with
  | nil => exact ⟨rfl, rfl, .nil _ _⟩
  | cons r rest ih =>
    cases r with
    | none => exact ih.imp fun _ m' led => ⟨led.1, led.2.1, led.2.2.unbound⟩
    | some v =>
      rw [takeStorage, Option.bind_some]
      cases held : callee.storage.get? v with
      | none =>
        have one : handOne callee.storage m.act.storage v = m.act.storage := by rw [handOne, held]
        exact ih.imp fun _ m' led => ⟨led.1, led.2.1, .cons (one.symm ▸ led.2.2)⟩
      | some cell =>
        have one : handOne callee.storage m.act.storage v = m.act.storage.insert v cell := by rw [handOne, held]
        rw [Option.map_some]
        dsimp only
        rw [leads_bind, leads_modifyActivation]
        exact ih.imp fun _ m' led => ⟨led.1, led.2.1, .cons (one.symm ▸ led.2.2)⟩

/-- A call takes from the callee the storage of what was returned. -/
theorem takeResult_outfits {callee : Activation} (ends : takeResult types callee (some (value, ty)) m = .ok () m') :
    m'.context.heap = m.context.heap ∧ m'.context.arena = m.context.arena ∧ m'.act.addresses = m.act.addresses ∧
      Outfitted callee.storage m.act.storage callee.returned m'.act.storage := by
  have leads : Leads (takeResults types callee value ty) m fun _ m' => m'.context.heap = m.context.heap ∧
      m'.context.arena = m.context.arena ∧ m'.act.addresses = m.act.addresses ∧
        Outfitted callee.storage m.act.storage callee.returned m'.act.storage := by
    rw [takeResults, leads_bind]
    refine (leads_takeStorageOutfits callee callee.returned).surely fun _ m₁ led => ?_
    rw [leads_bind]
    refine (Inert.of_composed (composed_fresh value ty) m₁).imp fun i m₂ same => ?_
    have last (m₃ : Machine) (same' : m₃.holdings = m₂.holdings) : m₃.context.heap = m.context.heap ∧
        m₃.context.arena = m.context.arena ∧ m₃.act.addresses = m.act.addresses ∧
          Outfitted callee.storage m.act.storage callee.returned m₃.act.storage := by
      have kept := same'.trans same
      refine ⟨(congrArg (·.heap) kept).trans (congrArg (·.heap) led.1),
        (congrArg (·.arena) kept).trans (congrArg (·.arena) led.1),
        (congrArg (·.addresses) kept).trans led.2.1, ?_⟩
      rw [show m₃.act.storage = m₁.act.storage from congrArg (·.storage) kept]
      exact led.2.2
    split
    · refine ((?_ : Inert _) m₂).imp fun _ => last
      exact .of_composed (.bind (composed_values fun _ => ⟨rfl, rfl, rfl, rfl, rfl⟩) fun _ =>
        composed_bindValue value i)
    · exact (Inert.of_composed (composed_bindValue value _) m₂).imp fun _ => last
  exact leads.ok ends

/-! ### Moves -/

section Moves

variable {env : Env} {property : Property} {c c' : Config}

/-- Nothing is paid for, or something that steers the walk. -/
inductive Passes (property : Property) (c c' : Config) : Prop
  | unpaid (same : c'.machine.budget = c.machine.budget)
  | paid {point : Point} {m : Machine} (pays : c.machine.budget = c'.machine.budget + 1)
    (reached : property (c'.machine.budget + 1) point m) (staying : Staying c.machine m)
    (steers : ∀ arrival i, point = .instr arrival i → isSimple i.action = false)

/-- What a move does. An instruction that stays inside its block does what it may, and all else leaves the heap and the
containers alone, and passes on what activations have. -/
inductive Upshot (env : Env) (property : Property) (c c' : Config) : Prop
  | simple {arrival : Arrival} {i : Instr} {walk : Walker} (pays : c.machine.budget = c'.machine.budget + 1)
    (reached : property (c'.machine.budget + 1) (.instr arrival i) (c.machine.withBudget 0))
    (simple : isSimple i.action) (idle : c.doing = none)
    (crew : ∀ a ∈ c'.crew, a = c'.machine.act ∨ a ∈ c.crew.tail)
    (ends : interpret env walk arrival i.action (c.machine.withBudget c'.machine.budget) = .ok () c'.machine)
  | other (heap : c'.machine.context.heap = c.machine.context.heap)
    (arena : c'.machine.context.arena = c.machine.context.arena)
    (crew : ∀ a ∈ c'.crew, a.Draws c.machine.context.count c.crew)
    (scheduled : c.machine.tasks.scheduled <:+ c'.machine.tasks.scheduled) (passes : Passes property c c')

theorem scheduled_of_eq {q q' : TaskQueue} (same : q' = q) : q.scheduled <:+ q'.scheduled := same ▸ suffix_rfl

/-- The current activation goes on. -/
theorem Upshot.inner {d d' : Option Doing} {s : List Waiter} (aside : Aside m m')
    (passes : Passes property ⟨m, d, s⟩ ⟨m', d', s⟩) : Upshot env property ⟨m, d, s⟩ ⟨m', d', s⟩ := by
  have tasks := aside.staying.tasks
  refine .other (congrArg (·.heap) aside.same) (congrArg (·.arena) aside.same) ?_ (scheduled_of_eq tasks) passes
  rw [Config.crew, tasks, forall_mem_cons]
  exact ⟨aside.draws mem_cons_self, fun b about => .of_mem (mem_cons_of_mem _ about)⟩

theorem Upshot.unpaid {d d' : Option Doing} {s : List Waiter} (led : Aside m m' ∧ m'.budget = m.budget) :
    Upshot env property ⟨m, d, s⟩ ⟨m', d', s⟩ := .inner led.1 (.unpaid led.2)

/-- A function is found, and then a result bound. -/
theorem aside_found {program : Program} {callee : Callee} {t : Target} {e : Event} {a : α}
    (found : target program callee m = .ok t m₁) (composed : Composed ⟨False, False, False, True⟩ x)
    (ends : x (m₁.emit e) = .ok a m') : Aside m m' ∧ m'.budget = m.budget := by
  obtain ⟨first, budget⟩ := (composed_target program callee).aside found
  obtain ⟨second, budget'⟩ := composed.aside ends
  exact ⟨first.trans { second with staying := { second.staying with } }, budget'.trans budget⟩

/-- A callee that is prepared draws on its caller. -/
theorem draws_callee {program : Program} {callee : Callee} {f : Function} {t : Target}
    (found : target program callee m = .ok t m₁)
    (prepared : prepare program.types f args captures receiver m₁ = .ok a m₂) (others : List Activation) :
    (Aside m m₂ ∧ m₂.budget = m.budget) ∧ a.Draws m.context.count (m.act :: others) := by
  obtain ⟨first, budget⟩ := (composed_target program callee).aside found
  obtain ⟨second, budget'⟩ := (composed_prepare _ _ _ _ _).aside prepared
  have start := (readied prepared).start
  obtain ⟨func, seq, -⟩ := prepare_ok prepared
  obtain ⟨addresses, outfitted⟩ := prepare_outfits prepared
  refine ⟨⟨first.trans second, budget'.trans budget⟩, fun e member => ⟨m.act, mem_cons_self, ?_⟩,
    .inl ⟨?_, addresses, congrArg (·.selects) start⟩⟩
  · rw [show m.act.storage = m₁.act.storage from (congrArg (·.storage) first.same).symm]
    exact (outfitted.entries e member).resolve_left not_mem_nil
  · rw [func, seq]
    exact first.staying.counts f.name

theorem Move.upshot (move : Move env property c c') : Upshot env property c c' := by
  cases move with
  | @shift m m' d s shifted =>
    obtain ⟨_, _, _, _, _, act⟩ := shifted.act
    obtain ⟨_, context⟩ := shifted.context
    refine .inner ⟨?_, by rw [act], ?_, ?_, ?_, ?_, shifted.tasks, fun _ => Nat.le_of_eq ?_⟩
      (.unpaid shifted.budget)
    · rw [Machine.holdings, act, context]
      rfl
    all_goals first | rw [act] | rw [context]
    rfl
  | pay pays reached steers => exact .inner (.withBudget _ _) (.paid pays reached (.withBudget _ 0) steers)
  | @simple m m' n arrival i walk s pays reached simple ends =>
    obtain ⟨staying, left⟩ := staying_simple simple ends
    obtain rfl : m'.budget = n := left
    refine .simple pays reached simple rfl (fun a about => mem_cons.1 ?_) ends
    rwa [Config.crew, show m'.tasks = m.tasks from staying.tasks] at about
  | begins pays reached other =>
    refine .inner (.withBudget _ _) (.paid pays reached (.withBudget _ 0) ?_)
    rintro _ _ ⟨⟩
    exact other
  | @ends m => exact .inner (.withBudget m m.budget) (.unpaid rfl)
  | builtin ends => exact .unpaid ((composed_callBuiltin trivial _ _ _).aside ends)
  | foreign found ends => exact .unpaid (aside_found found (composed_bindForeignResult _ _ _) ends)
  | recursive found ends => exact .unpaid (aside_found found (composed_bindFreshResult _) ends)
  | found found => exact .unpaid ((composed_target _ _).aside found)
  | prepares found prepared => exact .unpaid (draws_callee found prepared []).1
  | @calls m m₁ m₂ d s callee f args captures receiver a n found prepared pays reached =>
    obtain ⟨⟨aside, budget⟩, draws⟩ := draws_callee found prepared (s.map (·.act) ++ m.tasks.waiting)
    have tasks := aside.staying.tasks
    refine .other (congrArg (·.heap) aside.same) (congrArg (·.arena) aside.same) (fun b about => ?_)
      (scheduled_of_eq tasks) (.paid (budget ▸ pays) reached { aside.staying with } (by simp))
    rcases mem_cons.1 about with rfl | about
    · exact draws
    rcases mem_cons.1 about with rfl | about
    · exact aside.draws mem_cons_self
    · exact .of_mem (mem_cons_of_mem _ (tasks ▸ about))
  | @returns m m' d s caller statement ends =>
    obtain ⟨staying, budget⟩ := (quietly_takeResult _ _ _).staying ends
    have selects := (Spares.of_composed (composed_takeResult trivial _ _ _) _).ok ends
    have tasks : m'.tasks = m.tasks := staying.tasks
    have callers : caller ∈ Config.crew ⟨m, none, ⟨caller, some d⟩ :: s⟩ := mem_cons_of_mem _ mem_cons_self
    obtain ⟨heap, arena, addresses, entries⟩ : m'.context.heap = m.context.heap ∧
        m'.context.arena = m.context.arena ∧ m'.act.addresses = caller.addresses ∧
        ∀ e ∈ m'.act.storage.entries, e ∈ caller.storage.entries ∨ e ∈ m.act.storage.entries := by
      cases result : resultOf d.instr.action with
      | none =>
        rw [result] at ends
        cases ends
        exact ⟨rfl, rfl, rfl, fun _ => .inl⟩
      | some named =>
        rw [result] at ends
        obtain ⟨heap, arena, addresses, outfitted⟩ := takeResult_outfits ends
        exact ⟨heap, arena, addresses, outfitted.entries⟩
    refine .other heap arena (fun b about => ?_) (scheduled_of_eq tasks) (.unpaid budget)
    rcases mem_cons.1 about with rfl | about
    · refine ⟨fun e member => ?_, .inr ⟨caller, callers, staying.ident.symm, addresses, selects⟩⟩
      rcases entries e member with old | given
      · exact ⟨caller, callers, old⟩
      · exact ⟨m.act, mem_cons_self, given⟩
    · exact .of_mem (mem_cons_of_mem _ (mem_cons_of_mem _ (tasks ▸ about)))
  | @spawns m m₁ m₂ d s callee f args captures receiver a n queue found prepared pays reached queued =>
    obtain ⟨⟨aside, budget⟩, draws⟩ := draws_callee found prepared (s.map (·.act) ++ m.tasks.waiting)
    have tasks := aside.staying.tasks
    have others : (∀ b ∈ queue.waiting, b ∈ m.tasks.waiting ∨ b = a) ∧
      m.tasks.scheduled <:+ queue.scheduled := by
      rw [← tasks]
      rcases queued with rfl | queued
      · exact ⟨fun b => .inl, suffix_rfl⟩
      · obtain ⟨-, rfl⟩ := TaskQueue.enqueue?_eq_some queued
        exact ⟨fun b about => (mem_append.1 about).imp_right mem_singleton.1, suffix_cons _ _⟩
    refine .other (congrArg (·.heap) aside.same) (congrArg (·.arena) aside.same) (fun b about => ?_)
      others.2 (.paid (budget ▸ pays) reached { aside.staying with } (by simp))
    rcases mem_cons.1 about with rfl | about
    · exact aside.draws mem_cons_self
    rcases mem_append.1 about with about | about
    · exact .of_mem (mem_cons_of_mem _ (mem_append_left _ about))
    rcases others.1 b about with about | rfl
    · exact .of_mem (mem_cons_of_mem _ (mem_append_right _ about))
    · exact draws
  | initialises f routine =>
    refine .other rfl rfl (fun b about => ?_) suffix_rfl (.unpaid rfl)
    rcases mem_cons.1 about with rfl | about
    · exact ⟨fun _ member => absurd member not_mem_nil, .inl ⟨Nat.le_refl _, rfl, rfl⟩⟩
    · exact .of_mem about
  | @task m a rest waits =>
    refine .other rfl rfl (fun b about => .of_mem ?_) suffix_rfl (.unpaid rfl)
    rw [Config.crew, waits]
    rcases mem_cons.1 about with rfl | about
    · exact mem_cons_of_mem _ mem_cons_self
    rcases mem_cons.1 about with rfl | about
    · exact mem_cons_self
    · exact mem_cons_of_mem _ (mem_cons_of_mem _ about)
  | resumes =>
    exact .other rfl rfl (fun b about => .of_mem (mem_cons_of_mem _ about)) suffix_rfl (.unpaid rfl)

end Moves

end ChanFlow.Analysis
