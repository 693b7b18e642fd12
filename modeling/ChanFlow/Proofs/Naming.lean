import ChanFlow.Proofs.Arity
import ChanFlow.Proofs.Issue

/-!
Where the names in an inferred protocol come from.

A step is `Naming` if it keeps the names in the machine in order: whatever it writes into routines is made
of identifiers of the program, of labels of merge points and of literals that stand in the place of a
channel, and whatever value it stores was made for an identifier. All steps of an analysis are.

That values are made for identifiers is a case of steps that agree: where an instance is its own twin exactly if
it was made for an identifier, a machine is its own twin exactly if all its values were.
-/
open List

namespace ChanFlow.Analysis

open Ssa Protocol

variable {a : Activation} {i : Instance} {x chan : Operand} {value : String} {r : Routine} {s : Statement}

/-- Names that are none of the grammar: labels at a negative index, and literals in the place of a channel. -/
inductive Stray (p : Program) : String → Prop
  | label {f : Function} {block : Nat} {signature : List Int} (member : f ∈ p.functions) {i : Int}
    (index : i ∈ signature) (negative : i < 0) : Stray p (visitLabel f (block, signature))
  | integer (i : Int) : Stray p (Literal.int i).render
  | text (s : String) : Stray p (Literal.str s).render

/-- A name that can come to stand in a protocol. -/
def Sayable (p : Program) (n : String) : Prop := isName n = true ∨ Stray p n

/-- An instance made for an identifier, or a literal. -/
def Known : Instance → Prop
  | .value origin .. => isIdent origin.value = true
  | .external routine .. => isIdent routine = true
  | .const _ => True

variable {p : Program} {α β : Type}

theorem Sayable.ident {n : String} (ident : isIdent n = true) : Sayable p n := .inl (isName_of_isIdent ident)

/-! ### Spelling -/

/-- Instances made for identifiers are themselves. -/
def spelling : Twinning where
  inst i i' := i' = i ∧ Known i
  cell id id' := id' = id
  issue _ _ := False
  changed _ := False
  listed name := isIdent name = true
  free := False.elim
  unique one two := by rw [one.1, two.1]
  const _ := ⟨rfl, trivial⟩
  program _ _ listed := ⟨rfl, listed⟩
  ty same := by rw [same.1]
  level same := by rw [same.1]
  name same := by rw [same.1]
  cells := @eq_iff_of_same

/-- All that has an identifier is looked at. -/
def View.spelled : View where
  hidden name := isIdent name ≠ true
  listed name := isIdent name = true
  blocks _ := True
  returns := True
  joins := True
  labels _ := none
  visited _ := False

theorem shows_spelled (spelled : x.Spelled) : View.spelled.Shows x where
  var _ eq := by
    subst eq
    exact not_not_intro spelled
  func _ eq := by
    subst eq
    exact spelled

/-! ### Names in order -/

structure RoutineNamed (p : Program) (r : Routine) : Prop where
  name : Sayable p r.name
  callees : ∀ q ∈ r.params, Sayable p q.callee
  callers : ∀ q ∈ r.params, Sayable p q.caller
  distinct : Routine.Distinct r.params
  stmts : ∀ s ∈ r.stmts, s.Spells (Sayable p)
  waiting : ∀ ss ∈ r.waiting, ∀ s ∈ ss, s.Spells (Sayable p)

structure Activation.Named (p : Program) (a : Activation) : Prop where
  func : a.func ∈ p.functions
  routine : RoutineNamed p a.routine
  twins : ActivationTwins spelling .spelled a a
  names : ∀ n ∈ a.names.values, isName n = true
  labels : ∀ l ∈ a.labels.values, Sayable p l
  defers : ∀ c ∈ a.defers, c.Spelled

structure ProtocolNamed (p : Program) (protocol : Protocol) : Prop where
  names : (protocol.routines.map (·.name)).Nodup
  routines : ∀ r ∈ protocol.routines, RoutineNamed p r

structure Context.Named (p : Program) (c : Context) : Prop where
  twins : ContextTwins spelling c c
  protocol : ProtocolNamed p c.protocol

structure Machine.Named (p : Program) (m : Machine) : Prop where
  context : m.context.Named p
  act : m.act.Named p
  tasks : ∀ a ∈ m.tasks.waiting, a.Named p

theorem Activation.Named.setRoutine (named : a.Named p) (routine : RoutineNamed p r) : (a.setRoutine r).Named p :=
  { named with routine := routine, twins := named.twins.setRoutine ⟨rfl, rfl, rfl, fun _ => rfl⟩ }

/-- A step that keeps names in order and gives a result of a kind. -/
structure Naming (p : Program) (x : Run α) (ok : α → Prop := fun _ => True) : Prop where
  leads : ∀ m, m.Named p → Leads x m fun a m' => m'.Named p ∧ ok a

namespace Naming

variable {x : Run α} {ok : α → Prop}

theorem imp (naming : Naming p x ok) {ok' : α → Prop} (weaker : ∀ a, ok a → ok' a) : Naming p x ok' :=
  ⟨fun m named => (naming.leads m named).imp fun a _ led => ⟨led.1, weaker a led.2⟩⟩

theorem any (naming : Naming p x ok) : Naming p x := naming.imp fun _ _ => trivial

theorem bind {f : α → Run β} {ok' : β → Prop} (first : Naming p x ok)
    (next : ∀ a, ok a → Naming p (f a) ok') : Naming p (x >>= f) ok' := by
  refine ⟨fun m named => leads_bind.2 ?_⟩
  exact (first.leads m named).imp fun a m' led => (next a led.2).leads m' led.1

/-- Where nothing is asked of the result. -/
theorem seq {f : α → Run β} {ok' : β → Prop} (first : Naming p x) (next : ∀ a, Naming p (f a) ok') :
    Naming p (x >>= f) ok' := first.bind fun a _ => next a

theorem pure {a : α} (holds : ok a) : Naming p (Pure.pure a : Run α) ok := ⟨fun _ named => ⟨named, holds⟩⟩

theorem done : Naming p (Pure.pure () : Run Unit) := .pure trivial

theorem throw (h : Halt) : Naming p (MonadExceptOf.throw h : Run α) ok := ⟨fun _ _ => trivial⟩

theorem failWith (cause : Cause) : Naming p (failWith cause : Run α) ok := ⟨fun _ _ => trivial⟩

theorem activation : Naming p activation (·.Named p) := ⟨fun _ named => ⟨named, named.act⟩⟩

theorem context : Naming p context (·.Named p) := ⟨fun _ named => ⟨named, named.context⟩⟩

theorem tasks : Naming p tasks fun q => ∀ a ∈ q.waiting, a.Named p := ⟨fun _ named => ⟨named, named.tasks⟩⟩

theorem modifyActivation {f : Activation → Activation} (kept : ∀ a, a.Named p → (f a).Named p) :
    Naming p (modifyActivation f) :=
  ⟨fun _ named => ⟨{ named with act := kept _ named.act }, trivial⟩⟩

theorem modifyContext {f : Context → Context} (kept : ∀ c, c.Named p → (f c).Named p) :
    Naming p (modifyContext f) :=
  ⟨fun _ named => ⟨{ named with context := kept _ named.context }, trivial⟩⟩

theorem modifyRoutine {f : Routine → Routine} (kept : ∀ r, RoutineNamed p r → RoutineNamed p (f r)) :
    Naming p (modifyRoutine f) :=
  .modifyActivation fun _ named => named.setRoutine (kept _ named.routine)

theorem setTasks {q : TaskQueue} (queued : ∀ a ∈ q.waiting, a.Named p) : Naming p (setTasks q) :=
  ⟨fun _ named => ⟨{ named with tasks := queued }, trivial⟩⟩

theorem emit (e : Event) : Naming p (emit e) := ⟨fun _ named => ⟨{ named with }, trivial⟩⟩

theorem spend (point : Point) : Naming p (spend point) := by
  refine ⟨fun m named => leads_spend.2 ⟨fun _ => trivial, fun n _ => ⟨?_, trivial⟩⟩⟩
  exact { named with }

theorem located (naming : Naming p x ok) (pos : Option Position) : Naming p (located pos x) ok :=
  ⟨fun m named => leads_located.2 ((naming.leads m named).imp fun _ _ led => led)⟩

theorem within {x : Run Unit} (inner : a.Named p) (naming : Naming p x) :
    Naming p (within a x) (·.Named p) := by
  refine ⟨fun m named => leads_within.2 ?_⟩
  exact (naming.leads { m with act := a } { named with act := inner }).imp
    (fun _ _ led => ⟨{ led.1 with act := named.act }, led.1.act⟩)

theorem mapM {f : β → Run α} {bs : List β} (each : ∀ b ∈ bs, Naming p (f b) ok) :
    Naming p (bs.mapM f) fun as => ∀ a ∈ as, ok a := by
  rw [← mapM'_eq_mapM]
  induction bs with
  | nil => exact .pure (by simp)
  | cons b bs ih =>
    rw [forall_mem_cons] at each
    exact each.1.bind fun a holds => (ih each.2).bind fun as all => .pure (forall_mem_cons.2 ⟨holds, all⟩)

theorem forM {f : β → Run Unit} {bs : List β} (each : ∀ b ∈ bs, Naming p (f b)) :
    Naming p (bs.forM f) := by
  induction bs with
  | nil => exact .done
  | cons b bs ih =>
    rw [forall_mem_cons] at each
    exact each.1.bind fun _ _ => ih each.2

theorem changeRoutine {f : Routine → Except Protocol.Error (α × Routine)}
    (kept : ∀ r a r', RoutineNamed p r → f r = .ok (a, r') → ok a ∧ RoutineNamed p r') :
    Naming p (changeRoutine f) ok := by
  refine ⟨fun m named => leads_changeRoutine.2 ?_⟩
  split
  · next a r eq =>
    obtain ⟨holds, routine⟩ := kept _ a r named.act.routine eq
    exact ⟨{ named with act := named.act.setRoutine routine }, holds⟩
  · trivial

end Naming

section

variable {κ : Type} [DecidableEq κ]

theorem mem_values_of_get? {t : Table κ β} {k : κ} {v : β} (found : t.get? k = some v) : v ∈ t.values :=
  mem_map.2 ⟨(k, v), Table.mem_of_find found, rfl⟩

/-- Inserting into a table keeps what holds of all its values. -/
theorem values_insert {P : β → Prop} {t : Table κ β} (all : ∀ v ∈ t.values, P v) (k : κ) {v : β}
    (holds : P v) : ∀ v' ∈ (t.insert k v).values, P v' := by
  intro v' member
  obtain ⟨e, inside, rfl⟩ := mem_map.1 member
  rcases Table.mem_put inside with rfl | old
  · exact holds
  · exact all _ (mem_map_of_mem old)

end

/-! ### Values -/

/-- What has been said so far, and whatever else can come to stand in a protocol. -/
def Machine.said (m : Machine) :
    Function × Routine × Table Instance String × Table BlockVisit String × List Call × Protocol × TaskQueue :=
  (m.act.func, m.act.routine, m.act.names, m.act.labels, m.act.defers, m.context.protocol, m.tasks)

def Mute (x : Run α) : Prop := ∀ m, Leads x m fun _ m' => m'.said = m.said

/-- Steps that add no statement say nothing. -/
theorem Composed.mute {reach : Reach} {x : Run α} (composed : Composed reach x) (silent : ¬ reach.talk) : Mute x := by
  intro m
  induction composed generalizing m with
  | pure | activation | context | emit => exact rfl
  | bind _ _ first next =>
    refine leads_bind.2 ((first m).imp fun a m' same => ?_)
    exact (next a m').imp fun _ _ same' => same'.trans same
  | failWith | endless => exact trivial
  | @modifyActivation f skeleton stmts =>
    have routine : (f m.act).routine = m.act.routine :=
      (congrArg (fun ss => { (f m.act).routine with stmts := ss }) (stmts m.act)).trans
        (congrArg (fun b => { b.routine with stmts := m.act.routine.stmts }) (skeleton m.act))
    have same :=
      congrArg (fun b : Activation => (b.func, m.act.routine, b.names, b.labels, b.defers, m.context.protocol,
      m.tasks)) (skeleton m.act)
    exact (congrArg (fun r => ((f m.act).func, r, (f m.act).names, (f m.act).labels, (f m.act).defers,
      m.context.protocol, m.tasks)) routine).trans same
  | @modifyContext f protocol =>
    exact congrArg (fun q => (m.act.func, m.act.routine, m.act.names, m.act.labels, m.act.defers, q, m.tasks))
      (protocol m.context)
  | addStatement talks => exact absurd talks silent
  | changeLoop _ event change =>
    rw [Analysis.changeLoop, leads_bind]
    show Leads (emit? _ >>= _) m _ _
    cases event m.act.loops.current <;> exact rfl

theorem Mute.of_composed {x : Run α} (composed : Composed ⟨True, True, True, False⟩ x) : Mute x := composed.mute id

/-- A silent step keeps names in order if it takes machines that are their own twins to such machines. -/
theorem Naming.of_agree (touch : Touch) {x : Run α} {V : α → α → Prop}
    (agree : Agree spelling .spelled touch x x V) (mute : Mute x) : Naming p x fun a => V a a := by
  refine ⟨fun m named => leads_of (fun a m' ends => ?_) fun _ _ _ => trivial⟩
  have same := (mute m).ok ends
  simp only [Machine.said, Prod.mk.injEq] at same
  obtain ⟨func, routine, names, labels, defers, protocol, tasks⟩ := same
  obtain ⟨twins, -, related⟩ := agree m m ⟨named.context.twins, named.act.twins⟩ a m' a m' ends ends
  exact ⟨⟨⟨twins.context, protocol ▸ named.context.protocol⟩,
    ⟨func ▸ named.act.func, routine ▸ named.act.routine, twins.act,
    names ▸ named.act.names, labels ▸ named.act.labels, defers ▸ named.act.defers⟩,
      tasks ▸ named.tasks⟩, related⟩

theorem Activation.Named.bind (named : a.Named p) (value : String) (known : Known i) : (a.bind value i).Named p :=
  { named with twins := named.twins.bind value ⟨rfl, known⟩ }

theorem naming_instanceOf? (spelled : x.Spelled) : Naming p (instanceOf? x) fun found => ∀ i ∈ found, Known i :=
  (Naming.of_agree .any (agree_instanceOf? (shows_spelled spelled)) (.of_composed (composed_instanceOf? x))).imp
    fun _ same i here => (rel_self.1 same i here).2

theorem naming_instanceOf (spelled : x.Spelled) : Naming p (instanceOf x) Known :=
  (Naming.of_agree .any (agree_instanceOf (shows_spelled spelled))
    (.of_composed (composed_instanceOf x))).imp fun _ inst => inst.2

section

variable (ident : isIdent value = true)
include ident

theorem binds_spelled : Binds .spelled .any value := ⟨not_not_intro ident, trivial⟩

theorem naming_bindValue (known : Known i) : Naming p (bindValue value i) :=
  (Naming.of_agree _ (agree_bindValue (binds_spelled ident) ⟨rfl, known⟩)
    (.of_composed (composed_bindValue value i))).any

theorem naming_fresh (ty : Ty) : Naming p (fresh value ty) Known :=
  .bind .activation fun _ _ => .pure ident

theorem naming_bindFresh (ty : Ty) : Naming p (bindFresh value ty) :=
  (Naming.of_agree _ (agree_bindFresh (binds_spelled ident)) (.of_composed (composed_bindFresh value ty))).any

end

/-! ### Channels -/

theorem Activation.Named.channelName (named : a.Named p) (known : Known i) : Sayable p (a.channelName i) := by
  unfold Activation.channelName
  split
  · next found => exact .inl (named.names _ (mem_values_of_get? found))
  · cases i with
    | value origin seq index ty => exact .ident known
    | external routine ty seq => exact .ident known
    | const literal =>
      cases literal with
      | int i => exact .inr (.integer i)
      | str s => exact .inr (.text s)
      | bool b => cases b <;> exact .inl (by decide)
      | nil => exact .inl (by decide)

theorem naming_channelOf (spelled : x.Spelled) : Naming p (channelOf x) (Sayable p) :=
  .bind (naming_instanceOf spelled) fun _ known => .bind .activation fun _ named => .pure (named.channelName known)

theorem RoutineNamed.setStmts (named : RoutineNamed p r) {ss : List Statement}
    (spells : ∀ s ∈ ss, s.Spells (Sayable p)) : RoutineNamed p { r with stmts := ss } :=
  { named with stmts := spells }

theorem RoutineNamed.addStatement (named : RoutineNamed p r) (spells : s.Spells (Sayable p)) :
    RoutineNamed p (r.addStatement s) :=
  named.setStmts (all_append named.stmts spells)

theorem naming_addStatement (spells : s.Spells (Sayable p)) : Naming p (addStatement s) :=
  .modifyRoutine fun _ named => named.addStatement spells

theorem naming_makeChan (ident : isIdent value = true) (ty : Ty) {capacity : Operand}
    (spelled : capacity.Spelled) : Naming p (makeChan value ty capacity) := by
  unfold makeChan
  split
  · exact .bind .activation fun _ _ => .failWith _
  · next i constant =>
    have fits : Word.Fits i := by
      cases capacity with
      | const literal =>
        cases literal with
        | int j =>
          obtain rfl : j = i := by simpa [Operand.int?, Literal.int?] using constant
          exact spelled
        | _ => exact nomatch constant
      | _ => exact nomatch constant
    refine .bind (naming_bindFresh ident ty) fun _ _ => naming_addStatement ?_
    exact Statement.spells_newChan.2 ⟨.ident ident, fits⟩

theorem naming_send (spelled : chan.Spelled) : Naming p (send chan) :=
  .bind (naming_channelOf spelled) fun _ sayable => naming_addStatement (Statement.spells_send.2 sayable)

theorem naming_close (spelled : chan.Spelled) : Naming p (close chan) :=
  .bind (naming_channelOf spelled) fun _ sayable => naming_addStatement (Statement.spells_close.2 sayable)

theorem naming_recv (ident : isIdent value = true) (ty : Ty) (spelled : chan.Spelled)
    (commaOk : Bool) : Naming p (recv value ty chan commaOk) := by
  refine .bind (naming_channelOf spelled) fun _ sayable => ?_
  refine .bind (naming_addStatement (Statement.spells_recv.2 sayable)) fun _ _ => ?_
  split
  · exact (Naming.of_agree _ (agree_bindWithFlag (binds_spelled ident) .none)
      (.of_composed (composed_bindWithFlag value ty none))).any
  · exact naming_bindFresh ident ty

theorem spells_readyCases (cases : List SelectCase) {chans : List String} (sayable : ∀ n ∈ chans, Sayable p n) :
    ∀ c ∈ cases.zipWith readyCase chans, ∀ s ∈ c, s.Spells (Sayable p) := by
  induction cases generalizing chans with
  | nil => simp
  | cons case cases ih =>
    cases chans with
    | nil => simp
    | cons chan chans =>
      rw [forall_mem_cons] at sayable
      rw [zipWith_cons_cons, forall_mem_cons]
      refine ⟨?_, ih sayable.2⟩
      cases case <;> simpa [readyCase] using sayable.1

theorem naming_select (types : TypeTable) (ident : isIdent value = true) (ty : Ty) (blocking : Bool)
    {cases : List SelectCase} (spelled : ∀ c ∈ cases, c.chan.Spelled) :
    Naming p (select types value ty blocking cases) := by
  refine .bind (.mapM fun c member => naming_channelOf (spelled c member)) fun chans sayable => ?_
  refine .bind (naming_addStatement (Statement.spells_select.2 ?_)) fun _ _ => ?_
  · have ready := spells_readyCases cases sayable
    split
    · exact ready
    · intro c member
      rcases mem_append.1 member with old | silent
      · exact ready c old
      · obtain rfl := mem_singleton.1 silent
        simp
  refine .bind (naming_fresh ident ty) fun i known => ?_
  refine .bind (.modifyActivation fun a named => ?_) fun _ _ => naming_bindValue ident known
  have inst : spelling.inst i i := ⟨rfl, known⟩
  have opened := named.twins.setTuple inst (slotsTwins_replicate ((types.underlying ty).tupleLength?.getD 0))
  exact { named with twins := { opened with selects := opened.selects.insert inst ⟨.none, rfl, rfl, rfl, rfl⟩ } }

/-! ### Instructions -/

theorem callOperands_spelled {c : Call} (spelled : c.Spelled) : ∀ x ∈ c.operands, x.Spelled := by
  refine forall_mem_append.2 ⟨?_, spelled.args⟩
  obtain ⟨callee, args⟩ := c
  cases callee with
  | value x =>
    obtain ⟨name, rfl, ident⟩ := spelled.callee
    exact forall_mem_singleton.2 ident
  | invoke x method => exact forall_mem_singleton.2 spelled.callee.1
  | static | builtin => exact nofun

theorem operands_spelled {action : Action} (spelled : action.Spelled) : ∀ x ∈ action.operands, x.Spelled := by
  cases action with
  | define name ty op =>
    cases op with
    | call c => exact callOperands_spelled spelled.2
    | makeClosure func xs => exact spelled.2.2
    | _ => exact spelled.2
  | perform effect =>
    cases effect with
    | go c | defer c | call c => exact callOperands_spelled spelled
    | _ => exact spelled

theorem showsAction_spelled {action : Action} (spelled : action.Spelled) : View.spelled.ShowsAction action where
  operands x member := shows_spelled (operands_spelled spelled x member)
  closure _ _ _ _ eq := by
    subst eq
    exact spelled.2.1
  defined _ _ _ eq := by
    subst eq
    exact not_not_intro spelled.1

/-- An instruction that defines a value of a function is one of its instructions. -/
theorem mem_of_definition? {f : Function} {i : Instr} (found : f.definition? value = some i) :
    ∃ b ∈ f.blocks, i ∈ b.instrs := by
  have member := mem_of_find?_eq_some found
  simpa using member

theorem functionTwins_spelled {f : Function} (spelled : f.Spelled) : FunctionTwins .spelled f f := by
  refine .refl (fun _ => trivial) trivial (fun value i x y found op => ?_) fun _ block i found member =>
    showsAction_spelled (spelled.instrs block (mem_of_getElem? found) i member)
  obtain ⟨b, block, instr⟩ := mem_of_definition? found
  have operands := operands_spelled (spelled.instrs b block i instr)
  obtain ⟨_ | _, _⟩ := i
  · obtain rfl := Option.some.inj op
    exact ⟨shows_spelled (operands x (by simp [Action.operands, ValueOp.operands])),
      shows_spelled (operands y (by simp [Action.operands, ValueOp.operands]))⟩
  · cases op

/-- An instruction that stays inside its block and has nothing to do with channels. -/
theorem naming_simple (env : Env) {action : Action} (simple : isSimple action)
    (spelled : action.Spelled) (walk : Walker)
    (arrival : Arrival) (mute : Mute (interpret env walk arrival action)) :
    Naming p (interpret env walk arrival action) := by
  have envs : EnvTwins spelling env env :=
    ⟨rfl, rfl, rfl, fun _ => rel_self.2 fun _ _ => ⟨rfl, rfl, fun _ => rfl⟩⟩
  exact (Naming.of_agree _ (agree_simple envs simple (showsAction_spelled spelled) walk walk arrival) mute).any

end ChanFlow.Analysis
