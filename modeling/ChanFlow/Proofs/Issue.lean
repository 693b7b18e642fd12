import ChanFlow.Proofs.Moves
import Mathlib.Data.List.Nodup

/-!
Instances are issued before they are held.

The number of an activation is part of the instances that it makes. In every configuration that an analysis comes
to, all instances that are held anywhere have numbers that were given before, and no two of the activations that are
about have the same (`Config.Sound`). So an instance that an activation makes is new to it.
-/
open List

namespace ChanFlow

open Ssa Protocol

variable {bound bound' : String → Nat} {T : Twinning} {s : Slot} {a b : Activation} {c : Context} {view : View}
  {env : Env} {walk : Walker} {arrival : Arrival} {action : Action} {touch : Touch} {args : List Operand}
  {callee : Callee} {t : Target} {types : TypeTable} {f : Function} {captures : List Instance}
  {receiver : Option Instance} {routine : String} {m'' : Machine} {c₀ : Config}

/-- The number in an instance is below the bound for its function. -/
def Instance.Within (bound : String → Nat) : Instance → Prop
  | .value ⟨some func, _⟩ number _ _ => number < bound func
  | .value ⟨none, _⟩ _ _ _ => True
  | .external func _ number => number < bound func
  | .const _ => True

theorem Instance.Within.mono (le : ∀ func, bound func ≤ bound' func) {i : Instance}
    (within : i.Within bound) : i.Within bound' := by
  cases i with
  | value origin number index ty =>
    obtain ⟨routine, value⟩ := origin
    cases routine with
    | none => trivial
    | some func => exact Nat.lt_of_lt_of_le within (le func)
  | external func ty number => exact Nat.lt_of_lt_of_le within (le func)
  | const literal => trivial

/-- Instances within a bound are themselves. -/
def issuedBy (bound : String → Nat) : Twinning where
  inst i i' := i' = i ∧ i.Within bound
  cell id id' := id' = id
  issue func number := number < bound func
  changed _ := False
  unique one two := by rw [one.1, two.1]
  const _ := ⟨rfl, trivial⟩
  program _ _ _ := ⟨rfl, trivial⟩
  ty same := by rw [same.1]
  level same := by rw [same.1]
  name same := by rw [same.1]
  cells := @eq_iff_of_same

section Self

variable {bound bound' : String → Nat} {β : Type} {V : β → β → Prop} {spare : β → Prop}
  {es es' : List (Instance × β)}

/-- Lists of the same length are entwined entry by entry. -/
theorem Entwined.forall₂ (twined : Entwined T V spare es es') :
    es.length ≤ es'.length ∧
      (es.length = es'.length → List.Forall₂ (fun e e' => T.inst e.1 e'.1 ∧ V e.2 e'.2) es es') := by
  induction twined with
  | nil => exact ⟨Nat.le_refl 0, fun _ => .nil⟩
  | both key value _ ih =>
    exact ⟨Nat.succ_le_succ ih.1, fun same => .cons ⟨key, value⟩ (ih.2 (Nat.succ.inj same))⟩
  | @extra k' v' es es' _ _ _ ih =>
    refine ⟨Nat.le_succ_of_le ih.1, fun same => absurd ih.1 ?_⟩
    rw [same]
    exact Nat.not_succ_le_self _

theorem entwined_self : Entwined T V spare es es ↔ ∀ e ∈ es, T.inst e.1 e.1 ∧ V e.2 e.2 := by
  constructor
  · intro twined
    exact forall₂_same.1 (twined.forall₂.2 rfl)
  · intro each
    induction es with
    | nil => exact .nil
    | cons e rest ih =>
      rw [forall_mem_cons] at each
      exact .both each.1.1 each.1.2 (ih each.2)

theorem rel_self {α : Type} {R : α → α → Prop} {i : Option α} : Option.Rel R i i ↔
    ∀ j, i = some j → R j j := by
  cases i with
  | none => simp
  | some j => simp

end Self

/-! ### What a machine holds -/

/-- The slot is chosen by the instance. -/
inductive Slot.Has : Slot → Instance → Prop
  | index (i : Instance) : Has (.index i) i
  | key (i : Instance) : Has (.key i) i

/-- The instance is in the container, as a key or as a value. -/
def Container.Has : Container → Instance → Prop
  | .elems _ entries, i | .map entries, i => ∃ e ∈ entries.entries, i = e.1 ∨ i = e.2
  | .fields slots, i => some i ∈ slots

namespace Analysis

/-- The activation holds the instance somewhere. -/
inductive Activation.Has (a : Activation) : Instance → Prop
  | bound (held : a.resolve? value = some i) : a.Has i
  | named (member : e ∈ a.names.entries) : a.Has e.1
  | stored (member : e ∈ a.storage.entries) : a.Has e.1
  | returned (member : some i ∈ a.returned) : a.Has i
  | select (member : e ∈ a.selects.entries) : a.Has e.1
  | chosen (member : e ∈ a.selects.entries) (held : e.2.index = some i) : a.Has i
  | tuple (member : e ∈ a.tuples.entries) : a.Has e.1
  | part (member : e ∈ a.tuples.entries) (held : some i ∈ e.2) : a.Has i
  | address (held : a.addresses.get? value = some address) (has : address.2.Has i) : a.Has i

inductive Context.Has (c : Context) : Instance → Prop
  | global (held : c.globals.get? name = some i) : c.Has i
  | stored (member : e ∈ c.heap.entries) : c.Has e.1
  | content (member : k ∈ c.arena.containers) (has : k.Has i) : c.Has i
  | callable (member : e ∈ c.callables.entries) : c.Has e.1
  | capture (member : e ∈ c.callables.entries) (held : i ∈ e.2.captures) : c.Has i

/-- Every instance that an activation holds has been issued, and so has its number. -/
structure Activation.Issued (bound : String → Nat) (a : Activation) : Prop where
  holds : ∀ i, a.Has i → i.Within bound
  number : a.seq < bound a.func.name

def Context.Issued (bound : String → Nat) (c : Context) : Prop := ∀ i, c.Has i → i.Within bound

end Analysis

section Mono

variable {bound bound' : String → Nat} (le : ∀ func, bound func ≤ bound' func)
include le

theorem Analysis.Activation.Issued.mono (issued : a.Issued bound) : a.Issued bound' where
  holds i has := (issued.holds i has).mono le
  number := Nat.lt_of_lt_of_le issued.number (le _)

theorem Analysis.Context.Issued.mono (issued : c.Issued bound) : c.Issued bound' :=
  fun i has => (issued i has).mono le

end Mono

/-! ### A machine that is its own twin -/

section Twins

variable {T : Twinning}

theorem slotsTwins_self {ss : List (Option Instance)} : SlotsTwins T ss ss ↔ ∀ i, some i ∈ ss → T.inst i i := by
  unfold SlotsTwins
  rw [forall₂_same]
  constructor
  · exact fun each i member => rel_self.1 (each _ member) i rfl
  · exact fun each s member => rel_self.2 fun i eq => each i (eq ▸ member)

theorem slotTwins_self : SlotTwins T s s ↔ ∀ i, s.Has i → T.inst i i := by
  constructor
  · rintro (inst | n | inst) _ ⟨⟩ <;> exact inst
  · intro each
    cases s with
    | index i => exact .index (each i (.index i))
    | field n => exact .field n
    | key i => exact .key (each i (.key i))

theorem entwined_pairs {es : List (Instance × Instance)} :
    Entwined T T.inst spare es es ↔ ∀ i, (∃ e ∈ es, i = e.1 ∨ i = e.2) → T.inst i i := by
  rw [entwined_self]
  constructor
  · rintro each _ ⟨e, member, rfl | rfl⟩
    · exact (each e member).1
    · exact (each e member).2
  · exact fun each e member => ⟨each e.1 ⟨e, member, .inl rfl⟩, each e.2 ⟨e, member, .inr rfl⟩⟩

theorem containerTwins_self {c : Container} : ContainerTwins T c c ↔ ∀ i, c.Has i → T.inst i i := by
  constructor
  · intro twins
    cases twins with
    | elems length entries => exact entwined_pairs.1 entries
    | fields slots => exact slotsTwins_self.1 slots
    | map entries => exact entwined_pairs.1 entries
  · intro each
    cases c with
    | elems length entries => exact .elems length (entwined_pairs.2 each)
    | fields slots => exact .fields (slotsTwins_self.2 each)
    | map entries => exact .map (entwined_pairs.2 each)

theorem scopeTwins_self (cells : ∀ id, T.cell id id) {s : Scope} :
    ScopeTwins T s s ↔ ∀ e ∈ s.entries, T.inst e.1 e.1 := by
  unfold ScopeTwins
  rw [entwined_self]
  exact ⟨fun each e member => (each e member).1, fun each e member => ⟨each e member, cells e.2⟩⟩

theorem arenaTwins_self (cells : ∀ id id', T.cell id id' ↔ id' = id) {a : Arena} :
    ArenaTwins T a a ↔ ∀ c ∈ a.containers, ∀ i, c.Has i → T.inst i i := by
  constructor
  · intro twins c member
    obtain ⟨id, inside, rfl⟩ := getElem_of_mem member
    have here := rel_self.1 (twins.get? ((cells id id).2 rfl)) a.containers[id] (getElem?_eq_getElem inside)
    exact containerTwins_self.1 here
  · intro holds
    refine ⟨fun {id id'} cell => ?_, fun n => (cells _ _).2 rfl⟩
    obtain rfl := (cells id id').1 cell
    exact rel_self.2 fun c found => containerTwins_self.2 (holds c (mem_of_getElem? found))

namespace Analysis

/-- An activation is its own twin if all that it holds is. -/
theorem Activation.twins_self (self : ∀ i, a.Has i → T.inst i i) (cells : ∀ id, T.cell id id)
    (func : FunctionTwins view a.func a.func) (clear : ∀ x, view.Shows x)
    (own : ∀ value index ty, T.inst (.value ⟨some a.func.name, value⟩ a.seq index ty)
      (.value ⟨some a.func.name, value⟩ a.seq index ty))
    (entered : ∀ name, T.changed name → a.reenters name) (listed : ∀ name, view.listed name → T.listed name)
    (unlabelled : ∀ b signature, ¬ view.blocks b → a.labels.get? (b, signature) = view.labels (b, signature))
    (unvisited : ∀ b signature, ¬ view.blocks b → ((b, signature) ∈ a.visited ↔ view.visited (b, signature))) :
    ActivationTwins T view a a where
  func := func
  own value index ty _ := own value index ty
  callers := rfl
  entered := entered
  listed := listed
  routine := ⟨rfl, rfl, rfl, fun _ => rfl⟩
  locals _ _ := rel_self.2 fun i held => self i (.bound held)
  names := entwined_self.2 fun e member => ⟨self e.1 (.named member), rfl⟩
  storage := (scopeTwins_self cells).2 fun e member => self e.1 (.stored member)
  defers := rfl
  deferred _ _ _ _ := clear _
  returned _ := slotsTwins_self.2 fun i member => self i (.returned member)
  selects := entwined_self.2 fun e member => ⟨self e.1 (.select member),
    ⟨rel_self.2 fun i held => self i (.chosen member held), rfl, rfl, rfl, rfl⟩⟩
  tuples := entwined_self.2 fun e member => ⟨self e.1 (.tuple member),
    slotsTwins_self.2 fun i held => self i (.part member held)⟩
  addresses _ _ := rel_self.2 fun s held =>
    ⟨cells s.1, slotTwins_self.2 fun i has => self i (.address held has)⟩
  loops := rfl
  labels _ _ _ := rfl
  visited _ _ _ := Iff.rfl
  unlabelled := unlabelled
  unvisited := unvisited

theorem Context.twins_self (self : ∀ i, c.Has i → T.inst i i) (listed : ∀ name, T.listed name)
    (cells : ∀ id id', T.cell id id' ↔ id' = id)
    (numbered : ∀ func n value index ty, T.issue func n →
      T.inst (.value ⟨some func, value⟩ n index ty) (.value ⟨some func, value⟩ n index ty))
    (foreign : ∀ func n ty, T.issue func n → T.inst (.external func ty n) (.external func ty n)) :
    ContextTwins T c c where
  numbered func _ value index ty issued := numbered func _ value index ty issued
  foreign func _ ty issued := foreign func _ ty issued
  globals _ := rel_self.2 fun i held => self i (.global held)
  heap := (scopeTwins_self fun id => (cells id id).2 rfl).2 fun e member => self e.1 (.stored member)
  arena := (arenaTwins_self cells).2 fun _ member i has => self i (.content member has)
  callables := entwined_self.2 fun e member => ⟨self e.1 (.callable member),
    rfl, listed _, forall₂_same.2 fun i held => self i (.capture member held)⟩

variable {bound : String → Nat}

theorem Activation.Issued.twins (issued : a.Issued bound) : ActivationTwins (issuedBy bound) View.whole a a :=
  Activation.twins_self (T := issuedBy bound) (fun i has => ⟨rfl, issued.holds i has⟩) (fun _ => rfl)
    (.whole a.func) View.shows_whole (fun _ _ _ => ⟨rfl, issued.number⟩) (fun _ changed => changed.elim)
    (fun _ _ => trivial) (fun _ _ unseen => absurd trivial unseen) fun _ _ unseen => absurd trivial unseen

theorem ActivationTwins.issued (clear : ∀ value, ¬ view.hidden value)
    (returns : view.returns) (twins : ActivationTwins (issuedBy bound) view a a) : a.Issued bound where
  number := (twins.own "" 0 .func (clear _)).2
  holds i has := by
    cases has with
    | bound held => exact (rel_self.1 (twins.locals _ (clear _)) i held).2
    | named member => exact (entwined_self.1 twins.names _ member).1.2
    | stored member => exact ((scopeTwins_self fun _ => rfl).1 twins.storage _ member).2
    | returned member => exact (slotsTwins_self.1 (twins.returned returns) i member).2
    | select member => exact (entwined_self.1 twins.selects _ member).1.2
    | chosen member held => exact (rel_self.1 (entwined_self.1 twins.selects _ member).2.index i held).2
    | tuple member => exact (entwined_self.1 twins.tuples _ member).1.2
    | part member held => exact (slotsTwins_self.1 (entwined_self.1 twins.tuples _ member).2 i held).2
    | address held has => exact (slotTwins_self.1 (rel_self.1 (twins.addresses _ (clear _)) _ held).2 i has).2

theorem Context.Issued.twins (issued : c.Issued bound) : ContextTwins (issuedBy bound) c c :=
  Context.twins_self (T := issuedBy bound) (fun i has => ⟨rfl, issued i has⟩) (fun _ => trivial)
    (fun _ _ => Iff.rfl) (fun _ _ _ _ _ below => ⟨rfl, below⟩) fun _ _ _ below => ⟨rfl, below⟩

theorem ContextTwins.issued (twins : ContextTwins (issuedBy bound) c c) : c.Issued bound := by
  intro i has
  cases has with
  | global held => exact (rel_self.1 (twins.globals _) i held).2
  | stored member => exact ((scopeTwins_self fun _ => rfl).1 twins.heap _ member).2
  | content member has => exact ((arenaTwins_self fun _ _ => Iff.rfl).1 twins.arena _ member i has).2
  | callable member => exact (entwined_self.1 twins.callables _ member).1.2
  | capture member held => exact (forall₂_same.1 (entwined_self.1 twins.callables _ member).2.captures i held).2

end Analysis

end Twins

/-! ### Steps of one activation -/

namespace Analysis

/-- The machine after steps of one activation that call nothing. -/
structure Staying (m m' : Machine) : Prop where
  func : m'.act.func = m.act.func
  seq : m'.act.seq = m.act.seq
  callers : m'.act.callers = m.act.callers
  names : m'.act.names = m.act.names
  tasks : m'.tasks = m.tasks
  counts : ∀ func, m.context.count func ≤ m'.context.count func

section Steps

variable {m m' : Machine} {α : Type}

theorem Staying.withBudget (m : Machine) (n : Nat) : Staying m (m.withBudget n) :=
  ⟨rfl, rfl, rfl, rfl, rfl, fun _ => Nat.le_refl _⟩

theorem Quiet.staying (quiet : Quiet m m') : Staying m m' where
  func := quiet.func
  seq := quiet.seq
  callers := quiet.callers
  names := congrArg (·.names) quiet.skeleton
  tasks := quiet.tasks
  counts := quiet.counts

theorem Quietly.staying {x : Run α} {a : α} (quietly : Quietly x) (ends : x m = .ok a m') :
    Staying m m' ∧ m'.budget = m.budget :=
  have led := (quietly.leads m).ok ends
  ⟨led.1.staying, led.2⟩

theorem staying_simple (simple : isSimple action)
    (ends : interpret env walk arrival action m = .ok () m') : Staying m m' ∧ m'.budget = m.budget := by
  have turns {x : Run Unit} (turning : LeadsTurning x m action arrival) (ends : x m = .ok () m') :
      Staying m m' ∧ m'.budget = m.budget := by
    obtain ⟨⟨l, -, quiet⟩, budget⟩ := Leads.ok turning ends
    exact ⟨{ quiet.staying with }, budget⟩
  cases action with
  | define value ty op =>
    obtain ⟨step, quiet, eq⟩ | ⟨edges, rfl⟩ | ⟨sign, x, y, rfl⟩ | ⟨c, rfl⟩ :=
      define_cases env arrival value ty op
    · rw [interpret, eq] at ends
      exact quiet.staying ends
    · exact turns leads_phi ends
    · exact turns leads_binary ends
    · cases simple
  | perform effect =>
    obtain ⟨step, quiet, eq⟩ | ⟨dst, rfl⟩ | ⟨cond, onTrue, onFalse, rfl⟩ | ⟨c, rfl⟩ | ⟨c, rfl⟩ |
      ⟨c, rfl⟩ | rfl :=
      perform_cases env arrival effect
    · rw [interpret, eq] at ends
      exact quiet.staying ends
    all_goals cases simple

/-- The same activation after a step that may touch some of its locals. -/
structure Carries (touch : Touch) (a a' : Activation) : Prop where
  func : a'.func = a.func
  seq : a'.seq = a.seq
  callers : a'.callers = a.callers
  names : a'.names = a.names
  locals : ∀ {x i}, ¬ touch.names x → a.resolve? x = some i → a'.resolve? x = some i

/-- Everything that a machine holds has been issued. -/
structure Machine.Issued (m : Machine) : Prop where
  context : m.context.Issued m.context.count
  act : m.act.Issued m.context.count

/-- What a step of one activation leads to. -/
structure Advances (touch : Touch) (m m' : Machine) : Prop where
  issued : m'.Issued
  staying : Staying m m'
  spares : touch.Spares m m'

theorem Advances.carries (advances : Advances touch m m') : Carries touch m.act m'.act where
  func := advances.staying.func
  seq := advances.staying.seq
  callers := advances.staying.callers
  names := advances.staying.names
  locals := advances.spares.locals

theorem Machine.Issued.twins (issued : m.Issued) (le : ∀ func, m.context.count func ≤ bound func) :
    Twins (issuedBy bound) View.whole m m := ⟨(issued.context.mono le).twins, (issued.act.mono le).twins⟩

theorem AgreeAt.advances {x : Run α} {a : α} {V : α → α → Prop}
    (agree : AgreeAt (issuedBy m'.context.count) View.whole touch m m x x V) (ends : x m = .ok a m')
    (staying : Staying m m') : Advances touch m m' ∧ V a a := by
  obtain ⟨twins, spares, related⟩ := agree a m' a m' ends ends
  exact ⟨⟨⟨twins.context.issued, twins.act.issued (fun _ => id) trivial⟩, staying, spares.toSpares⟩,
    related⟩

theorem envTwins_self (bound : String → Nat) (env : Env) : EnvTwins (issuedBy bound) env env where
  types := rfl
  globals := rfl
  options := rfl
  functions _ := rel_self.2 fun _ _ => ⟨rfl, rfl, fun _ => rfl⟩

theorem advances_simple (issued : m.Issued) (simple : isSimple action)
    (ends : interpret env walk arrival action m = .ok () m') : Advances (touchOf action) m m' := by
  have staying := (staying_simple simple ends).1
  have shows : View.whole.ShowsAction action := .whole action
  have agree := agree_simple (envTwins_self m'.context.count env) simple shows walk walk arrival
  exact ((agree m m (issued.twins staying.counts)).advances ends staying).1

theorem bindsResult (action : Action) : BindsResult View.whole (touchOf action) (resultOf action) := by
  intro value ty result
  cases action with
  | define name ty' op =>
    cases result
    exact ⟨id, rfl⟩
  | perform effect => exact nomatch result

theorem advances_builtin {name : String} (issued : m.Issued)
    (ends : callBuiltin name args (resultOf action) m = .ok () m') : Advances (touchOf action) m m' := by
  have staying := ((quietly_callBuiltin name args _).staying ends).1
  have shows : ∀ x ∈ args, View.whole.Shows x := fun x _ => View.shows_whole x
  have agree := agree_callBuiltin (T := issuedBy m'.context.count) (bindsResult action) name shows
  exact ((agree m m (issued.twins staying.counts)).advances ends staying).1

/-- The instances that a target brings with it have been issued. -/
def Target.Issued (bound : String → Nat) : Target → Prop
  | .routine _ captures receiver => (∀ i ∈ captures, i.Within bound) ∧ ∀ i, receiver = some i → i.Within bound
  | .external _ => True

def noTouch : Touch := ⟨fun _ => False, fun _ => False⟩

theorem advances_target {program : Program} (issued : m.Issued) (found : target program callee m = .ok t m') :
    Advances noTouch m m' ∧ t.Issued m'.context.count := by
  have staying := ((quietly_target program callee).staying found).1
  have shows : ∀ x ∈ callee.operands, View.whole.Shows x := fun x _ => View.shows_whole x
  have agree : Agree (issuedBy m'.context.count) View.whole noTouch (target program callee) (target program callee)
      (TargetTwins (issuedBy m'.context.count)) := agree_target (envTwins_self _ ⟨program, {}⟩) shows
  obtain ⟨advances, twins⟩ := (agree m m (issued.twins staying.counts)).advances found staying
  refine ⟨advances, ?_⟩
  cases twins with
  | routine func captured received =>
    exact ⟨fun i member => (forall₂_same.1 captured i member).2, fun i held => (rel_self.1 received i held).2⟩
  | external name => trivial

theorem prepare_ok (prepared : prepare types f args captures receiver m = .ok a m') :
    a.func = f ∧ a.seq = m.context.count f.name ∧ a.callers = m.act.callers ++ [m.act.func.name] ∧
      m.context.count f.name < m'.context.count f.name := by
  have ready := readied prepared
  exact ⟨congrArg (·.func) ready.start, congrArg (·.seq) ready.start, congrArg (·.callers) ready.start,
    ready.counted⟩

section Calls

variable {types : TypeTable} {f : Function} {args : List Operand} {captures : List Instance}
  {receiver : Option Instance} {a : Activation}

theorem Target.Issued.mono (issued : t.Issued bound) (le : ∀ func, bound func ≤ bound' func) : t.Issued bound' := by
  cases t with
  | routine f captures receiver =>
    exact ⟨fun i member => (issued.1 i member).mono le, fun i held => (issued.2 i held).mono le⟩
  | external name => trivial

theorem agreeAt_prepareSelf (types : TypeTable) (f : Function) (shows : ∀ x ∈ args, View.whole.Shows x)
    (target : (Target.routine f captures receiver).Issued bound) (twins : Twins (issuedBy bound) View.whole m m) :
    AgreeAt (issuedBy bound) View.whole noTouch m m (prepare types f args captures receiver)
      (prepare types f args captures receiver) fun a a' => HandedTwins (issuedBy bound) a a' ∧
        (m.context.count f.name < bound f.name → ActivationTwins (issuedBy bound) .whole a a') := by
  have captured : List.Forall₂ (issuedBy bound).inst captures captures :=
    forall₂_same.2 fun i member => ⟨rfl, target.1 i member⟩
  have received : Option.Rel (issuedBy bound).inst receiver receiver :=
    rel_self.2 fun i held => ⟨rfl, target.2 i held⟩
  intro a m₁ a' m₁' ends ends'
  obtain ⟨twins, spares, handed, whole⟩ :=
    agreeAt_prepare types ⟨rfl, rfl, fun _ => rfl⟩ shows captured received twins a m₁ a' m₁' ends ends'
  exact ⟨twins, spares, handed, whole rfl⟩

theorem advances_prepare (issued : m.Issued) (target : (Target.routine f captures receiver).Issued m.context.count)
    (prepared : prepare types f args captures receiver m = .ok a m') :
    Advances noTouch m m' ∧ a.Issued m'.context.count := by
  have staying := ((Quietly.of_composed (composed_prepare _ _ _ _ _)).staying prepared).1
  have shows : ∀ x ∈ args, View.whole.Shows x := fun x _ => View.shows_whole x
  have agree := agreeAt_prepareSelf types f shows (target.mono staying.counts) (issued.twins staying.counts)
  obtain ⟨advances, -, twins⟩ := agree.advances prepared staying
  exact ⟨advances, (twins (prepare_ok prepared).2.2.2).issued (fun _ => id) trivial⟩

theorem count_lt_of_foreign {value : String} {ty : Ty} (ends : bindForeign types routine value ty m = .ok () m') :
    m.context.count routine < m'.context.count routine := by
  have leads : Leads (bindForeign types routine value ty) m
      fun _ m' => m.context.count routine < m'.context.count routine := by
    rw [bindForeign, leads_bind]
    refine (leads_numberActivation routine m).surely fun n m₁ numbered => ?_
    obtain ⟨rfl, counted⟩ := numbered
    have goes {x : Run Unit} (quietly : Quietly x) : Leads x m₁
        fun _ m' => m.context.count routine < m'.context.count routine := by
      refine (quietly.leads m₁).partly fun _ m₂ led => ?_
      have later := led.1.counts routine
      rwa [counted] at later
    dsimp only
    split
    · exact goes (.bind .modifyActivation fun _ => quietly_bindValue value _)
    · exact goes (quietly_bindValue value _)
  exact leads.ok ends

theorem advances_foreign (issued : m.Issued) (ends : bindForeignResult types routine (resultOf action) m = .ok () m') :
    Advances (touchOf action) m m' := by
  have staying := ((quietly_bindForeignResult types routine _).staying ends).1
  have counted : (resultOf action).isSome → m.context.count routine < m'.context.count routine := by
    intro moved
    obtain ⟨both, eq⟩ := Option.isSome_iff_exists.1 moved
    rw [eq] at ends
    exact count_lt_of_foreign ends
  have agree := agreeAt_bindForeignResult types (bindsResult action) counted (issued.twins staying.counts)
  exact (agree.advances ends staying).1

theorem advances_fresh (issued : m.Issued) (ends : bindFreshResult (resultOf action) m = .ok () m') :
    Advances (touchOf action) m m' := by
  have staying := ((quietly_bindFreshResult _).staying ends).1
  have agree := agree_bindFreshResult (T := issuedBy m'.context.count) (bindsResult action)
  exact ((agree m m (issued.twins staying.counts)).advances ends staying).1

theorem advances_taken (issued : m.Issued) (callee : a.Issued m.context.count)
    (ends : takeResult types a (resultOf action) m = .ok () m') : Advances (touchOf action) m m' := by
  have staying := ((quietly_takeResult types a _).staying ends).1
  have later := callee.mono staying.counts
  have agree := agree_takeResult (T := issuedBy m'.context.count) types (bindsResult action)
    ((scopeTwins_self fun _ => rfl).2 fun e member => ⟨rfl, later.holds e.1 (.stored member)⟩)
    (slotsTwins_self.2 fun i held => ⟨rfl, later.holds i (.returned held)⟩)
  exact ((agree m m (issued.twins staying.counts)).advances ends staying).1

end Calls

theorem Carries.refl (touch : Touch) (a : Activation) : Carries touch a a := ⟨rfl, rfl, rfl, rfl, fun _ => id⟩

theorem Staying.trans (one : Staying m m') (two : Staying m' m'') : Staying m m'' where
  func := two.func.trans one.func
  seq := two.seq.trans one.seq
  callers := two.callers.trans one.callers
  names := two.names.trans one.names
  tasks := two.tasks.trans one.tasks
  counts func := Nat.le_trans (one.counts func) (two.counts func)

/-- A step that touches nothing, and one that does. -/
theorem Advances.after (one : Advances noTouch m m') (two : Advances touch m' m'') : Advances touch m m'' where
  issued := two.issued
  staying := one.staying.trans two.staying
  spares :=
    ⟨fun untouched held => two.spares.locals untouched (one.spares.locals id held),
      fun untouched => (two.spares.globals untouched).trans (one.spares.globals id)⟩

end Steps

/-! ### Configurations -/

/-- The function of an activation and its number. -/
def Activation.ident (a : Activation) : String × Nat := (a.func.name, a.seq)

theorem Carries.ident {a' : Activation} (carries : Carries touch a a') : a'.ident = a.ident := by
  rw [Activation.ident, carries.func, carries.seq, Activation.ident]

theorem Staying.ident {m m' : Machine} (staying : Staying m m') : m'.act.ident = m.act.ident := by
  rw [Activation.ident, staying.func, staying.seq, Activation.ident]

/-- All activations that are about: the current one, those that wait for it, and those that were spawned. -/
def Config.crew (c : Config) : List Activation :=
  c.machine.act :: (c.stack.map (·.act) ++ c.machine.tasks.waiting)

/-- An activation is at an instruction that makes calls. -/
def Config.Busy (c : Config) (a : Activation) (d : Doing) : Prop :=
  a = c.machine.act ∧ c.doing = some d ∨ ⟨a, some d⟩ ∈ c.stack

section Sound

variable {env : Env} {property : Property} {c c' : Config} {m m' : Machine} {d d' : Option Doing}
  {s : List Waiter} {touch : Touch}

/-- What holds in every configuration. -/
structure Config.Sound (property : Property) (c : Config) : Prop where
  context : c.machine.context.Issued c.machine.context.count
  crew : ∀ a ∈ c.crew, a.Issued c.machine.context.count
  distinct : (c.crew.map Activation.ident).Nodup
  busy : ∀ a d, c.Busy a d → isSimple d.instr.action = false ∧
    ∃ arrival m₀, property d.left (.instr arrival d.instr) m₀ ∧ m₀.act.ident = a.ident

theorem Config.Sound.issued (sound : c.Sound property) : c.machine.Issued :=
  ⟨sound.context, sound.crew _ mem_cons_self⟩

/-- Two activations with one number are the same. -/
theorem Config.Sound.eq_of_ident (sound : c.Sound property) (one : a ∈ c.crew) (two : b ∈ c.crew)
    (same : a.ident = b.ident) : a = b := inj_on_of_nodup_map sound.distinct one two same

/-- What lets a step touch something of an activation. -/
inductive Config.Author (property : Property) (c : Config) (a : Activation) : Touch → Prop
  | none : Author property c a noTouch
  | paid {arrival : Arrival} {i : Instr} {m₀ : Machine} (reached : property c.machine.budget (.instr arrival i) m₀)
    (same : m₀.act.ident = a.ident) : Author property c a (touchOf i.action)
  | busy {d : Doing} (busy : c.Busy a d) : Author property c a (touchOf d.instr.action)

/-- The ways an activation comes about. -/
inductive Recruited : Activation → Prop
  | called {m m' : Machine} {types : TypeTable} {f : Function} {args : List Operand} {captures : List Instance}
    {receiver : Option Instance} {a : Activation} (issued : m.Issued)
    (target : (Target.routine f captures receiver).Issued m.context.count)
    (prepared : prepare types f args captures receiver m = .ok a m') : Recruited a
  | initial (f : Function) (seq : Nat) (routine : String) : Recruited (Activation.start f seq [] routine)

/-- An activation is new, and has just come about. -/
structure Config.New (c : Config) (a : Activation) : Prop where
  number : c.machine.context.count a.func.name ≤ a.seq
  recruited : Recruited a

/-- What a move does to the activations and the globals. -/
structure Step (property : Property) (c c' : Config) : Prop where
  sound : c'.Sound property
  carried : ∀ a' ∈ c'.crew, c.New a' ∨
    ∃ a ∈ c.crew, ∃ touch, c.Author property a touch ∧ Carries touch a a'
  globals : ∃ touch, (∃ a ∈ c.crew, c.Author property a touch) ∧
    ∀ {name}, ¬ touch.globals name → c'.machine.context.globals.get? name = c.machine.context.globals.get? name
  counts : ∀ func, c.machine.context.count func ≤ c'.machine.context.count func
  busy : ∀ a' d, c'.Busy a' d → d.left = c.machine.budget ∧ c.machine.budget = c'.machine.budget + 1 ∨
    ∃ a, c.Busy a d ∧ a.ident = a'.ident

/-- The instruction is paid for by this step. -/
structure JustBegun (property : Property) (m m' : Machine) (d : Doing) : Prop where
  left : d.left = m.budget
  paid : m.budget = m'.budget + 1
  other : isSimple d.instr.action = false
  reached : ∃ arrival, property d.left (.instr arrival d.instr) (m.withBudget 0)

/-- The current activation goes on. -/
theorem Step.inner (sound : Config.Sound property ⟨m, d, s⟩) (advances : Advances touch m m')
    (author : Config.Author property ⟨m, d, s⟩ m.act touch)
    (doing : ∀ e, d' = some e → d = some e ∨ JustBegun property m m' e) :
    Step property ⟨m, d, s⟩ ⟨m', d', s⟩ := by
  have carries := advances.carries
  have staying := advances.staying
  have crew : Config.crew ⟨m', d', s⟩ = m'.act :: (s.map (·.act) ++ m.tasks.waiting) := by
    rw [Config.crew, staying.tasks]
  refine
    { sound :=
        { context := advances.issued.context
          crew := fun a member => ?_
          distinct := ?_
          busy := fun a e busy => ?_ }
      carried := fun a member => ?_
      globals := ⟨touch, ⟨m.act, mem_cons_self, author⟩, advances.spares.globals⟩
      counts := staying.counts
      busy := fun a e busy => ?_ }
  · rw [crew, mem_cons] at member
    rcases member with rfl | other
    · exact advances.issued.act
    · exact (sound.crew a (mem_cons_of_mem _ other)).mono staying.counts
  · have distinct := sound.distinct
    rw [crew, map_cons, carries.ident]
    exact distinct
  · rcases busy with ⟨rfl, eq⟩ | waits
    · rcases doing e eq with same | begun
      · obtain ⟨other, arrival, m₀, reached, ident⟩ := sound.busy m.act e (.inl ⟨rfl, same⟩)
        exact ⟨other, arrival, m₀, reached, ident.trans carries.ident.symm⟩
      · obtain ⟨arrival, reached⟩ := begun.reached
        exact ⟨begun.other, arrival, _, reached, carries.ident.symm⟩
    · exact sound.busy a e (.inr waits)
  · rw [crew, mem_cons] at member
    rcases member with rfl | other
    · exact .inr ⟨m.act, mem_cons_self, touch, author, carries⟩
    · exact .inr ⟨a, mem_cons_of_mem _ other, noTouch, .none, .refl _ a⟩
  · rcases busy with ⟨rfl, eq⟩ | waits
    · rcases doing e eq with same | begun
      · exact .inr ⟨m.act, .inl ⟨rfl, same⟩, carries.ident.symm⟩
      · exact .inl ⟨begun.left, begun.paid⟩
    · exact .inr ⟨a, .inr waits, rfl⟩

/-- Nothing happens but that another activation becomes the current one, or one is dropped. -/
theorem Step.rearrange (sound : c.Sound property) (members : ∀ a ∈ c'.crew, a ∈ c.crew)
    (distinct : (c'.crew.map Activation.ident).Nodup) (busy : ∀ a e, c'.Busy a e → c.Busy a e)
    (context : c'.machine.context = c.machine.context) : Step property c c' where
  sound :=
    { context := context ▸ sound.context
      crew := fun a member => context ▸ sound.crew a (members a member)
      distinct := distinct
      busy := fun a e held => sound.busy a e (busy a e held) }
  carried a member := .inr ⟨a, members a member, noTouch, .none, .refl _ a⟩
  globals := ⟨noTouch, ⟨_, mem_cons_self, .none⟩, fun _ => by rw [context]⟩
  counts func := Nat.le_of_eq (by rw [context])
  busy a e held := .inr ⟨a, busy a e held, rfl⟩

theorem Config.Author.mono (busy : ∀ a e, c₀.Busy a e → c.Busy a e)
    (budget : c₀.machine.budget = c.machine.budget)
    (author : c₀.Author property a touch) : c.Author property a touch := by
  cases author with
  | none => exact .none
  | paid reached same => exact .paid (budget ▸ reached) same
  | busy held => exact .busy (busy a _ held)

/-- A step after the activations were rearranged. -/
theorem Step.rearranged (step : Step property c₀ c') (members : ∀ a ∈ c₀.crew, a ∈ c.crew)
    (busy : ∀ a e, c₀.Busy a e → c.Busy a e) (context : c₀.machine.context = c.machine.context)
    (budget : c₀.machine.budget = c.machine.budget) (unpaid : c'.machine.budget = c₀.machine.budget) :
    Step property c c' where
  sound := step.sound
  carried a' member := by
    rcases step.carried a' member with new | ⟨a, about, touch, author, carries⟩
    · exact .inl ⟨context ▸ new.number, new.recruited⟩
    · exact .inr ⟨a, members a about, touch, author.mono busy budget, carries⟩
  globals := by
    obtain ⟨touch, ⟨a, about, author⟩, kept⟩ := step.globals
    exact ⟨touch, ⟨a, members a about, author.mono busy budget⟩, fun untouched => context ▸ kept untouched⟩
  counts func := context ▸ step.counts func
  busy a' e held := by
    rcases step.busy a' e held with ⟨-, paid⟩ | ⟨a, before, same⟩
    · exact absurd (unpaid ▸ paid) (by omega)
    · exact .inr ⟨a, busy a e before, same⟩

/-- An activation whose number was not given before is another. -/
theorem ident_ne {count : String → Nat} (number : count a.func.name ≤ a.seq) (known : b.seq < count b.func.name) :
    a.ident ≠ b.ident := by
  intro same
  have name : a.func.name = b.func.name := congrArg Prod.fst same
  have seq : a.seq = b.seq := congrArg Prod.snd same
  rw [← name, ← seq] at known
  exact Nat.not_lt_of_le number known

theorem Config.Sound.unknown (sound : c.Sound property) (new : c.New a) : a.ident ∉ c.crew.map Activation.ident := by
  intro member
  obtain ⟨b, about, same⟩ := mem_map.1 member
  exact ident_ne new.number (sound.crew b about).number same.symm

section Recruits

variable {a : Activation} (step : Step property c ⟨m, d, s⟩) (issued : a.Issued m.context.count)
  (new : c.New a)
  (unknown : a.ident ∉ (Config.crew ⟨m, d, s⟩).map Activation.ident)
include step issued new unknown

/-- A new activation becomes the current one. -/
theorem Step.push : Step property c ⟨{ m with act := a }, none, ⟨m.act, d⟩ :: s⟩ := by
  have crew : Config.crew ⟨{ m with act := a }, none, ⟨m.act, d⟩ :: s⟩ = a :: Config.crew ⟨m, d, s⟩ := rfl
  have busy (b : Activation) (e : Doing) (held : Config.Busy ⟨{ m with act := a }, none, ⟨m.act, d⟩ :: s⟩ b e) :
      Config.Busy ⟨m, d, s⟩ b e := by
    rcases held with ⟨-, eq⟩ | waits
    · exact nomatch eq
    · rcases mem_cons.1 waits with eq | waits
      · cases eq
        exact .inl ⟨rfl, rfl⟩
      · exact .inr waits
  exact
    { sound :=
        { context := step.sound.context
          crew := by
            rw [crew, forall_mem_cons]
            exact ⟨issued, step.sound.crew⟩
          distinct := by
            rw [crew, map_cons, nodup_cons]
            exact ⟨unknown, step.sound.distinct⟩
          busy := fun b e held => step.sound.busy b e (busy b e held) }
      carried := by
        rw [crew, forall_mem_cons]
        exact ⟨.inl new, step.carried⟩
      globals := step.globals
      counts := step.counts
      busy := fun b e held => step.busy b e (busy b e held) }

/-- A new activation is queued. -/
theorem Step.queue {queue : TaskQueue} (waiting : queue.waiting = m.tasks.waiting ++ [a]) :
    Step property c ⟨{ m with tasks := queue }, d, s⟩ := by
  have crew : Config.crew ⟨{ m with tasks := queue }, d, s⟩ = Config.crew ⟨m, d, s⟩ ++ [a] := by
    simp only [Config.crew, waiting, cons_append, append_assoc]
  exact
    { sound :=
        { context := step.sound.context
          crew := by
            rw [crew, forall_mem_append, forall_mem_singleton]
            exact ⟨step.sound.crew, issued⟩
          distinct := by
            rw [crew, map_append, map_singleton, nodup_append_comm]
            exact nodup_cons.2 ⟨unknown, step.sound.distinct⟩
          busy := step.sound.busy }
      carried := by
        rw [crew, forall_mem_append, forall_mem_singleton]
        exact ⟨step.carried, .inl new⟩
      globals := step.globals
      counts := step.counts
      busy := step.busy }

end Recruits

/-- What an activation writes and where it stands hold nothing. -/
theorem Activation.Has.of_unheld {routine : Routine} {defers : List Call} {loops : Nest}
    {labels : Table BlockVisit String} {visited : List BlockVisit}
    (has : { a with routine, defers, loops, labels, visited : Activation }.Has i) : a.Has i := by
  cases has with
  | bound held => exact .bound held
  | named member => exact .named member
  | stored member => exact .stored member
  | returned member => exact .returned member
  | select member => exact .select member
  | chosen member held => exact .chosen member held
  | tuple member => exact .tuple member
  | part member held => exact .part member held
  | address held has => exact .address held has

theorem Context.Has.of_unheld {c : Context} {counters : Table String Nat} {protocol : Protocol}
    (has : { c with counters, protocol : Context }.Has i) : c.Has i := by
  cases has with
  | global held => exact .global held
  | stored member => exact .stored member
  | content member has => exact .content member has
  | callable member => exact .callable member
  | capture member held => exact .capture member held

/-- Nothing that is held changes. -/
theorem Machine.Issued.advances (issued : m.Issued)
    (act : ∃ routine defers loops labels visited, m'.act = { m.act with routine, defers, loops, labels, visited })
    (context : ∃ protocol, m'.context = { m.context with protocol }) (tasks : m'.tasks = m.tasks) :
    Advances noTouch m m' := by
  obtain ⟨routine, defers, loops, labels, visited, act⟩ := act
  obtain ⟨protocol, context⟩ := context
  refine ⟨⟨?_, ?_⟩, ⟨?_, ?_, ?_, ?_, tasks, ?_⟩, ?_, ?_⟩
  · rw [context]
    exact fun i has => issued.context i has.of_unheld
  · rw [context, act]
    exact ⟨fun i has => issued.act.holds i has.of_unheld, issued.act.number⟩
  · rw [act]
  · rw [act]
  · rw [act]
  · rw [act]
  · rw [context]
    exact fun _ => Nat.le_refl _
  · rw [act]
    exact fun _ => id
  · rw [context]
    exact fun _ => rfl

theorem Machine.Issued.withBudget (issued : m.Issued) (n : Nat) : Advances noTouch m (m.withBudget n) :=
  issued.advances ⟨_, _, _, _, _, rfl⟩ ⟨_, rfl⟩ rfl

/-- A function is found, and something reported. -/
theorem advances_found (issued : m.Issued)
    (found : target env.program callee m = .ok t m') (e : Event) : Advances noTouch m (m'.emit e) := by
  have advances := (advances_target issued found).1
  exact advances.after (advances.issued.advances ⟨_, _, _, _, _, rfl⟩ ⟨_, rfl⟩ rfl)

/-- An activation for a call is prepared. -/
theorem advances_callee {m₁ : Machine} (issued : m.Issued)
    (found : target env.program callee m = .ok (.routine f captures receiver) m₁)
    (prepared : prepare env.program.types f args captures receiver m₁ = .ok a m') :
    Advances noTouch m m' ∧ a.Issued m'.context.count ∧ m.context.count a.func.name ≤ a.seq ∧ Recruited a := by
  obtain ⟨first, target⟩ := advances_target issued found
  obtain ⟨second, callee⟩ := advances_prepare first.issued target prepared
  obtain ⟨func, seq, -, -⟩ := prepare_ok prepared
  refine ⟨first.after second, callee, ?_, .called first.issued target prepared⟩
  rw [func, seq]
  exact first.staying.counts f.name

theorem Advances.idents (advances : Advances touch m m') (d d' : Option Doing) (s : List Waiter) :
    (Config.crew ⟨m', d', s⟩).map Activation.ident = (Config.crew ⟨m, d, s⟩).map Activation.ident := by
  rw [Config.crew, Config.crew, map_cons, map_cons, advances.carries.ident, advances.staying.tasks]

/-- The initialiser gets its number. -/
theorem Machine.Issued.numbered (issued : m.Issued) (func : String) :
    Advances noTouch m { m with context := (m.context.numberActivation func).2 } := by
  have counts (other : String) : m.context.count other ≤ (m.context.numberActivation func).2.count other := by
    rw [Context.count_numberActivation]
    split
    · next same => exact same ▸ Nat.le_succ _
    · exact Nat.le_refl _
  exact ⟨⟨fun i has => issued.context.mono counts i has.of_unheld, issued.act.mono counts⟩,
    ⟨rfl, rfl, rfl, rfl, rfl, counts⟩, ⟨fun _ => id, fun _ => rfl⟩⟩

/-- An activation that has just begun holds nothing. -/
theorem issued_start (f : Function) {seq : Nat} (callers : List String) (routine : String)
    (number : seq < bound f.name) : (Activation.start f seq callers routine).Issued bound where
  number := number
  holds i has := by
    cases has <;> contradiction

/-- Every move is a step. -/
theorem Move.step (sound : c.Sound property) (move : Move env property c c') : Step property c c' := by
  have issued := sound.issued
  cases move with
  | shift shifted =>
    exact .inner sound (issued.advances shifted.act shifted.context shifted.tasks) .none fun _ => .inl
  | @pay m n point s pays reached steers => exact .inner sound (issued.withBudget n) .none fun _ => .inl
  | @simple m m' n arrival i walk s pays reached simple ends =>
    have reached : property m.budget (.instr arrival i) (m.withBudget 0) := pays ▸ reached
    have paid := issued.withBudget n
    exact .inner sound (paid.after (advances_simple paid.issued simple ends)) (.paid reached rfl) fun _ => .inl
  | @begins m n arrival i s pays reached other =>
    refine .inner sound (issued.withBudget n) .none ?_
    rintro _ ⟨⟩
    exact .inr ⟨pays.symm, pays, other, arrival, reached⟩
  | @ends m d s => exact .inner sound (issued.withBudget m.budget) .none fun _ eq => nomatch eq
  | builtin ends => exact .inner sound (advances_builtin issued ends) (.busy (.inl ⟨rfl, rfl⟩)) fun _ => .inl
  | @foreign m m₁ m' d s callee routine e found ends =>
    have first := advances_found issued found e
    exact .inner sound (first.after (advances_foreign first.issued ends)) (.busy (.inl ⟨rfl, rfl⟩)) fun _ => .inl
  | @recursive m m₁ m' d s callee t e found ends =>
    have first := advances_found issued found e
    exact .inner sound (first.after (advances_fresh first.issued ends)) (.busy (.inl ⟨rfl, rfl⟩)) fun _ => .inl
  | found found => exact .inner sound (advances_target issued found).1 .none fun _ => .inl
  | prepares found prepared => exact .inner sound (advances_callee issued found prepared).1 .none fun _ => .inl
  | @calls m m₁ m₂ d s callee f args captures receiver a n found prepared pays reached =>
    obtain ⟨advances, callee, number, recruited⟩ := advances_callee issued found prepared
    have new : Config.New ⟨m, d, s⟩ a := ⟨number, recruited⟩
    have paid := advances.after (advances.issued.withBudget n)
    have step : Step property _ ⟨m₂.withBudget n, d, s⟩ := .inner sound paid .none fun _ => .inl
    exact step.push callee new (paid.idents d d s ▸ sound.unknown new)
  | @spawns m m₁ m₂ d s callee f args captures receiver a n queue found prepared pays reached queued =>
    obtain ⟨advances, callee, number, recruited⟩ := advances_callee issued found prepared
    have new : Config.New ⟨m, d, s⟩ a := ⟨number, recruited⟩
    have paid := advances.after (advances.issued.withBudget n)
    have step : Step property _ ⟨m₂.withBudget n, d, s⟩ := .inner sound paid .none fun _ => .inl
    rcases queued with rfl | queued
    · exact step
    · exact step.queue callee new (paid.idents d d s ▸ sound.unknown new) (congrArg (·.waiting) (TaskQueue.enqueue?_eq_some queued).2)
  | @returns m m' d s caller statement ends =>
    have members (a : Activation) (about : a ∈ Config.crew ⟨{ m with act := caller }, some d, s⟩) :
        a ∈ Config.crew ⟨m, none, ⟨caller, some d⟩ :: s⟩ := mem_cons_of_mem _ about
    have busy (a : Activation) (e : Doing) (held : Config.Busy ⟨{ m with act := caller }, some d, s⟩ a e) :
        Config.Busy ⟨m, none, ⟨caller, some d⟩ :: s⟩ a e := by
      rcases held with ⟨rfl, ⟨⟩⟩ | held
      · exact .inr mem_cons_self
      · exact .inr (mem_cons_of_mem _ held)
    have resumed : Step property ⟨m, none, ⟨caller, some d⟩ :: s⟩ ⟨{ m with act := caller }, some d, s⟩ :=
      .rearrange sound members (nodup_cons.1 sound.distinct).2 busy rfl
    have stated : Advances noTouch { m with act := caller } (Machine.addStatement { m with act := caller } statement) :=
      resumed.sound.issued.advances ⟨_, _, _, _, _, rfl⟩ ⟨_, rfl⟩ rfl
    have taken := advances_taken stated.issued issued.act ends
    have budget : m'.budget = m.budget := ((quietly_takeResult _ _ _).staying ends).2
    have step : Step property ⟨{ m with act := caller }, some d, s⟩ ⟨m', some d, s⟩ :=
      .inner resumed.sound (stated.after taken) (.busy (.inl ⟨rfl, rfl⟩)) fun _ => .inl
    exact step.rearranged members busy rfl rfl budget
  | @initialises m f routine =>
    have step :
      Step property ⟨m, none, []⟩ ⟨{ m with context := (m.context.numberActivation f.name).2 }, none, []⟩ :=
      .inner sound (issued.numbered f.name) .none fun _ => .inl
    have counted : m.context.count f.name < (m.context.numberActivation f.name).2.count f.name := by
      rw [Context.count_numberActivation, if_pos rfl]
      exact Nat.lt_succ_self _
    have new : Config.New ⟨m, none, []⟩ (Activation.start f (m.context.count f.name) [] routine) :=
      ⟨Nat.le_refl _, .initial f _ routine⟩
    exact step.push (issued_start f [] routine counted) new (sound.unknown new)
  | @task m a rest waits =>
    have crew : Config.crew ⟨m, none, []⟩ = m.act :: a :: rest := by
      rw [Config.crew, waits]
      rfl
    have swapped : List.Perm (Config.crew ⟨{ m with tasks := { m.tasks with waiting := rest }, act := a }, none,
        [⟨m.act, none⟩]⟩) (Config.crew ⟨m, none, []⟩) := by
      rw [crew]
      exact .swap m.act a rest
    refine .rearrange sound (fun b => swapped.mem_iff.1) ((swapped.map _).nodup_iff.2 sound.distinct) ?_ rfl
    rintro b e (⟨-, ⟨⟩⟩ | held)
    cases mem_singleton.1 held
  | @resumes m act s =>
    refine .rearrange sound (fun b about => mem_cons_of_mem _ about) (nodup_cons.1 sound.distinct).2
      (fun b e held => ?_) rfl
    rcases held with ⟨-, eq⟩ | held
    · exact nomatch eq
    · exact .inr (mem_cons_of_mem _ held)

end Sound

/-! ### Whole runs -/

theorem ContextTwins.addGlobal {c' : Context} (twins : ContextTwins T c c') (types : TypeTable)
    {g : Global} (listed : T.listed g.name) : ContextTwins T (c.addGlobal types g) (c'.addGlobal types g) := by
  have inst := T.program g.name g.ty listed
  have globals (name : String) : Option.Rel T.inst ((c.globals.insert g.name (.ofProgram g.name g.ty)).get? name)
      ((c'.globals.insert g.name (.ofProgram g.name g.ty)).get? name) := by
    rw [Table.get?_insert, Table.get?_insert]
    split
    · exact .some inst
    · exact twins.globals name
  have made := twins.arena.alloc (types.shape g.ty)
  unfold Context.addGlobal
  dsimp only
  generalize c.arena.alloc (types.shape g.ty) = r, c'.arena.alloc (types.shape g.ty) = r' at made
  cases made with
  | none => exact { twins with globals := globals }
  | some made => exact { twins with globals := globals, arena := made.2, heap := twins.heap.insert inst made.1 }

theorem issued_ofProgram (p : Program) (bound : String → Nat) : (Context.ofProgram p).Issued bound := by
  have kept (c : Context) (issued : c.Issued bound) : (p.globals.foldl (Context.addGlobal p.types) c).Issued bound := by
    induction p.globals generalizing c with
    | nil => exact issued
    | cons g rest ih => exact ih _ (issued.twins.addGlobal p.types trivial).issued
  refine kept {} fun i has => ?_
  cases has <;> contradiction

theorem sound_start (property : Property) (p : Program) (entry : Function) (budget : Nat) :
    Config.Sound property ⟨Machine.start p entry budget, none, []⟩ where
  context i has := issued_ofProgram p _ i has.of_unheld
  crew a member := by
    obtain rfl := mem_singleton.1 member
    refine issued_start entry [] entry.name ?_
    rw [Machine.start, Context.count_numberActivation, if_pos rfl]
    exact Nat.lt_succ_self _
  distinct := nodup_singleton _
  busy _ _ held := by
    rcases held with ⟨-, eq⟩ | held
    · exact nomatch eq
    · exact nomatch held

/-- What every step keeps, in configurations that are sound. -/
theorem Invariant.of_step {property : Property} {holds : Config → Prop}
    (kept : ∀ {c c'}, c.Sound property → holds c → Step property c c' → Move env property c c' → holds c') :
    Invariant env property fun c => c.Sound property ∧ holds c := by
  intro c c' ⟨sound, here⟩ move
  have step := move.step sound
  exact ⟨step.sound, kept sound here step move⟩

end Analysis

end ChanFlow
