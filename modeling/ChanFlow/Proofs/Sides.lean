import ChanFlow.Proofs.Cuts
import ChanFlow.Proofs.Holdings

/-!
The two sides of a branch.

Between the sides of a branch only the loops are put back to what they were. All else that the first side changes is
there when the second side is walked. Where the first side leaves what the second one may see `Undisturbed`, the
second side comes out as if a bare return stood in place of the first (`sides_independent`): the numbers of activations
and containers are others then, but they do not show.
-/
namespace ChanFlow

open Ssa Protocol

variable {i : Instance} {r : Routine} {f : Function} {b : Nat}

/-! ### Other numbers -/

/-- The numbers from `a` on are put off to begin with `b`. -/
def putOff (a b n : Nat) : Nat := if n < a then n else n - a + b

section PutOff

variable {a b n k : Nat}

theorem putOff_of_lt (below : n < a) : putOff a b n = n := if_pos below

theorem putOff_of_le (above : a ≤ n) : putOff a b n = n - a + b := if_neg (Nat.not_lt_of_le above)

theorem putOff_add (n : Nat) : putOff a b (a + n) = b + n := by
  rw [putOff_of_le (Nat.le_add_right a n)]
  omega

/-- Nothing is lost when numbers are put off, and the numbers in between are not used. -/
theorem putOff_putOff (le : a ≤ b) (n : Nat) : putOff b a (putOff a b n) = n := by
  unfold putOff
  split <;> split <;> omega

theorem putOff_ne (above : a ≤ k) (below : k < b) : putOff a b n ≠ k := by
  unfold putOff
  split <;> omega

end PutOff

namespace Instance

/-- The instance with the number that it gets if activations are put off. -/
def renumber (before after : String → Nat) : Instance → Instance
  | .value ⟨some func, name⟩ n index ty =>
    .value ⟨some func, name⟩ (putOff (before func) (after func) n) index ty
  | .value ⟨none, name⟩ n index ty => .value ⟨none, name⟩ n index ty
  | .external func ty n => .external func ty (putOff (before func) (after func) n)
  | .const literal => .const literal

/-- The number of the instance was given in between. -/
def Between (before after : String → Nat) : Instance → Prop
  | .value ⟨some func, _⟩ n _ _ => before func ≤ n ∧ n < after func
  | .value ⟨none, _⟩ _ _ _ => False
  | .external func _ n => before func ≤ n ∧ n < after func
  | .const _ => False

variable {before after : String → Nat} {i j : Instance}

theorem renumber_of_within (within : i.Within before) : i.renumber before after = i := by
  cases i with
  | value origin n index ty =>
    obtain ⟨_ | func, name⟩ := origin
    · rfl
    · rw [renumber, putOff_of_lt within]
  | external func ty n => rw [renumber, putOff_of_lt within]
  | const literal => rfl

theorem renumber_renumber (le : ∀ func, before func ≤ after func) (i : Instance) :
    (i.renumber before after).renumber after before = i := by
  cases i with
  | value origin n index ty =>
    obtain ⟨_ | func, name⟩ := origin
    · rfl
    · rw [renumber, renumber, putOff_putOff (le func)]
  | external func ty n => rw [renumber, renumber, putOff_putOff (le func)]
  | const literal => rfl

theorem renumber_inj (le : ∀ func, before func ≤ after func) :
    i.renumber before after = j.renumber before after ↔ i = j :=
  (Function.LeftInverse.injective (renumber_renumber le)).eq_iff

theorem renumber_ne (between : j.Between before after) : i.renumber before after ≠ j := by
  rintro rfl
  cases i with
  | value origin n index ty =>
    obtain ⟨_ | func, name⟩ := origin
    · exact between
    · exact putOff_ne between.1 between.2 rfl
  | external func ty n => exact putOff_ne between.1 between.2 rfl
  | const literal => exact between

/-- Only the number changes. -/
theorem renumber_same (i : Instance) : (i.renumber before after).ty? = i.ty? ∧
    (i.renumber before after).isProgramLevel = i.isProgramLevel ∧ (i.renumber before after).ownName = i.ownName := by
  cases i with
  | value origin n index ty => obtain ⟨_ | func, name⟩ := origin <;> exact ⟨rfl, rfl, rfl⟩
  | external func ty n => exact ⟨rfl, rfl, rfl⟩
  | const literal => exact ⟨rfl, rfl, rfl⟩

end Instance

/-! ### Tables that grow -/

/-- The second table has further entries, after those of the first. -/
def Table.Grows {β : Type} (new : Instance → β → Prop) (t t' : Table Instance β) : Prop :=
  ∃ more, t'.entries = t.entries ++ more ∧ ∀ e ∈ more, new e.1 e.2

/-- What is held stays what it is, and what is new is not known. -/
theorem Table.Grows.entwined {T : Twinning} {β : Type} {V : β → β → Prop} {spare : β → Prop}
    {new : Instance → β → Prop}
    {t t' : Table Instance β} (grows : t.Grows new t') (held : ∀ e ∈ t.entries, T.inst e.1 e.1 ∧ V e.2 e.2)
    (unknown : ∀ i b, new i b → (∀ j, ¬ T.inst j i) ∧ spare b) : Entwined T V spare t.entries t'.entries := by
  obtain ⟨more, entries, each⟩ := grows
  rw [entries]
  generalize t.entries = es at held
  induction es with
  | nil =>
    clear entries
    induction more with
    | nil => exact .nil
    | cons e rest ih =>
      rw [List.forall_mem_cons] at each
      obtain ⟨other, value⟩ := unknown e.1 e.2 each.1
      exact .extra other value (ih each.2)
  | cons e rest ih =>
    rw [List.forall_mem_cons] at held
    exact .both held.1.1 held.1.2 (ih held.2)

namespace Analysis

def Machine.Has (m : Machine) (i : Instance) : Prop := m.context.Has i ∨ m.act.Has i

/-- An instance of a value behind block `t` that the current activation has not made yet. -/
structure Pending (t : Nat) (m : Machine) (i : Instance) : Prop where
  own : ∃ value index ty, Defines m.act.func t value ∧ i = .value ⟨some m.act.func.name, value⟩
    m.act.seq index ty
  lacks : ¬ m.Has i

/-- The instance came about on the way from the one machine to the other, by way of block `t`. -/
def Made (t : Nat) (m m₁ : Machine) (i : Instance) : Prop :=
  i.Between m.context.count m₁.context.count ∨ Pending t m i

/-- The container came about on the way from the one machine to the other. -/
def NewCell (m m₁ : Machine) (id : ContainerId) : Prop :=
  m.context.arena.containers.length ≤ id ∧ id < m₁.context.arena.containers.length

/-- Between the machines `m` and `m₁` nothing happens that can be seen from block `e` on, but for what is new and what
has to do with values behind block `t`. -/
structure Undisturbed (t e : Nat) (m m₁ : Machine) : Prop where
  globals : ∀ name, m₁.context.globals.get? name = m.context.globals.get? name
  containers : ∃ more, m₁.context.arena.containers = m.context.arena.containers ++ more
  heap : m.context.heap.Grows (fun i id => Made t m m₁ i ∧ NewCell m m₁ id) m₁.context.heap
  callables : m.context.callables.Grows (fun i _ => Made t m m₁ i) m₁.context.callables
  locals : ∀ value, ¬ Defines m.act.func t value → m₁.act.resolve? value = m.act.resolve? value
  addresses : ∀ value, ¬ Defines m.act.func t value → m₁.act.addresses.get? value = m.act.addresses.get? value
  storage : m.act.storage.Grows (fun i id => Made t m m₁ i ∧ NewCell m m₁ id) m₁.act.storage
  tuples : m.act.tuples.Grows (fun i _ => Made t m m₁ i) m₁.act.tuples
  selects : m.act.selects.Grows (fun i s => Made t m m₁ i ∧ ∀ j, s.index = some j → Made t m m₁ j)
    m₁.act.selects
  defers : m₁.act.defers = m.act.defers
  deferred : ∀ c ∈ m.act.defers, ∀ x ∈ c.operands, ∀ name, x = .var name → ¬ Defines m.act.func t name
  /-- Merge points are handed all channels that were created in a list that waits. -/
  created : (∃ b block, Reaches m.act.func e b ∧ m.act.func.block? b = some block ∧ block.isMergePoint) →
    Routine.created m₁.act.routine.stmts = []

/-! ### Twins on the second side -/

/-- There are at least as many activations and containers. -/
structure Ahead (m m₁ : Machine) : Prop where
  counts : ∀ func, m.context.count func ≤ m₁.context.count func
  containers : m.context.arena.containers.length ≤ m₁.context.arena.containers.length

/-- New activations and containers get the numbers that they have after `m₁`. -/
def renumbering (t : Nat) {m m₁ : Machine} (ahead : Ahead m m₁) : Twinning where
  inst i i' := i' = i.renumber m.context.count m₁.context.count ∧ ¬ Pending t m i
  cell id id' := id' = putOff m.context.arena.containers.length m₁.context.arena.containers.length id
  issue _ _ := True
  changed name := name = m.act.func.name
  unique one two := by rw [one.1, two.1, Instance.renumber_inj ahead.counts]
  const literal := ⟨rfl, fun pending => by
    obtain ⟨_, _, _, _, eq⟩ := pending.own
    exact nomatch eq⟩
  program name ty _ := ⟨rfl, fun pending => by
    obtain ⟨_, _, _, _, eq⟩ := pending.own
    exact nomatch eq⟩
  ty same := by rw [same.1, (Instance.renumber_same _).1]
  level same := by rw [same.1, (Instance.renumber_same _).2.1]
  name same := by rw [same.1, (Instance.renumber_same _).2.2]
  cells one two := by
    rw [one, two]
    exact (Function.LeftInverse.injective (putOff_putOff ahead.containers)).eq_iff.symm

section Twins

variable {t e : Nat} {m m₁ k k₁ : Machine} {ahead : Ahead m m₁}

theorem Machine.Issued.within_of_has (issued : m.Issued) (has : m.Has i) : i.Within m.context.count := by
  rcases has with has | has
  · exact issued.context i has
  · exact issued.act.holds i has

/-- What is held has its number. -/
theorem renumbering_has (issued : m.Issued) (has : m.Has i) : (renumbering t ahead).inst i i :=
  ⟨(Instance.renumber_of_within (issued.within_of_has has)).symm, fun pending => pending.lacks has⟩

theorem renumbering_made (issued : m.Issued) (made : Made t m m₁ i) (j : Instance) :
    ¬ (renumbering t ahead).inst j i := by
  rintro ⟨eq, known⟩
  rcases made with between | pending
  · exact Instance.renumber_ne between eq.symm
  · have within : i.Within m.context.count := by
      obtain ⟨value, index, ty, -, rfl⟩ := pending.own
      exact issued.act.number
    have same : i = j := by
      rw [← Instance.renumber_inj ahead.counts, ← eq]
      exact Instance.renumber_of_within within
    exact known (same ▸ pending)

theorem renumbering_newCell {id' : ContainerId} (new : NewCell m m₁ id') (id : ContainerId) :
    ¬ (renumbering t ahead).cell id id' := fun same => putOff_ne new.1 new.2 same.symm

theorem renumbering_cell {id : ContainerId} (there : id < m.context.arena.containers.length) :
    (renumbering t ahead).cell id id := (putOff_of_lt there).symm

section

variable (issued : m.Issued) (allocated : m.holdings.Allocated) (undisturbed : Undisturbed t e m m₁)
include issued allocated undisturbed

theorem contextTwins_sides :
    ContextTwins (renumbering t ahead) m.context m₁.context := by
  have self (i : Instance) (has : m.context.Has i) : (renumbering t ahead).inst i i := renumbering_has issued (.inl has)
  have next (func : String) (n : Nat) (value : String) (index : Int) (ty : Ty) :
      ¬ Pending t m (.value ⟨some func, value⟩ (m.context.count func + n) index ty) := by
    intro pending
    obtain ⟨_, _, _, -, eq⟩ := pending.own
    simp only [Instance.value.injEq, Origin.mk.injEq, Option.some.injEq] at eq
    obtain ⟨⟨rfl, -⟩, number, -, -⟩ := eq
    exact absurd issued.act.number (by omega)
  refine
    { numbered := fun func n value index ty _ => ⟨?_, next func n value index ty⟩
      foreign := fun func n ty _ => ⟨?_, fun pending => ?_⟩
      globals := fun name => ?_
      heap := undisturbed.heap.entwined
        (fun e member => ⟨self e.1 (.stored member), renumbering_cell (allocated.heap e member)⟩)
        fun i id new => ⟨renumbering_made issued new.1, renumbering_newCell new.2⟩
      arena := ⟨fun {id id'} cell => ?_, fun n => (putOff_add n).symm⟩
      callables := undisturbed.callables.entwined (fun e member => ⟨self e.1 (.callable member),
        rfl, trivial, List.forall₂_same.2 fun i held => self i (.capture member held)⟩) fun i _ new =>
          ⟨renumbering_made issued new, trivial⟩ }
  · rw [Instance.renumber, putOff_add]
  · rw [Instance.renumber, putOff_add]
  · obtain ⟨_, _, _, -, eq⟩ := pending.own
    exact nomatch eq
  · rw [undisturbed.globals]
    exact rel_self.2 fun i held => self i (.global held)
  · obtain ⟨more, containers⟩ := undisturbed.containers
    obtain rfl : id' = putOff _ _ id := cell
    rw [Arena.get?, Arena.get?]
    by_cases there : id < m.context.arena.containers.length
    · rw [putOff_of_lt there, containers, List.getElem?_append_left there]
      exact rel_self.2 fun c found => containerTwins_self.2 fun i has =>
        self i (.content (List.mem_of_getElem? found) has)
    · have beyond := Nat.le_of_not_lt there
      rw [putOff_of_le beyond, List.getElem?_eq_none beyond, List.getElem?_eq_none (Nat.le_add_left _ _)]
      exact .none

theorem activationTwins_sides
    (linked : m.act.func.Linked) (separate : Separate m.act.func t e) (frame : m₁.act.frame = m.setAside.act.frame)
    {r' : Routine} {labels : Table BlockVisit String} {visited : List BlockVisit} {a : Activation}
    (act : a = { m.act with func := m.act.func.cut t, routine := r, labels, visited })
    (routine : RoutineTwins (sideView m.act.func t e a) r r')
    (labelled : ∀ b signature, Reaches m.act.func e b → m₁.act.labels.get? (b, signature) = labels.get?
      (b, signature))
    (noted : ∀ b signature, Reaches m.act.func e b →
      ((b, signature) ∈ m₁.act.visited ↔ (b, signature) ∈ visited)) :
    ActivationTwins (renumbering t ahead) (sideView m.act.func t e a) a
      { m₁.act with routine := r', loops := m.act.loops } := by
  have self (i : Instance) (has : m.act.Has i) : (renumbering t ahead).inst i i := renumbering_has issued (.inr has)
  have func : m₁.act.func = m.act.func := congrArg (·.func) frame
  have seq : m₁.act.seq = m.act.seq := congrArg (·.seq) frame
  have callers : m₁.act.callers = m.act.callers := congrArg (·.callers) frame
  have names : m₁.act.names = m.act.names := congrArg (·.names) frame
  have cut := functionTwins_cut linked separate a
  subst act
  refine
    { func := func ▸ cut
      own := fun value index ty shown => ?_
      callers := callers
      listed := fun _ _ => trivial
      entered := ?_
      routine := routine
      locals := fun value shown => ?_
      names := ?_
      storage := undisturbed.storage.entwined
        (fun e member => ⟨self e.1 (.stored member), renumbering_cell (allocated.storage e member)⟩)
        fun i id new => ⟨renumbering_made issued new.1, renumbering_newCell new.2⟩
      defers := undisturbed.defers
      deferred := fun c member x given => ⟨undisturbed.deferred c member x given, fun _ _ => trivial⟩
      returned := False.elim
      selects := undisturbed.selects.entwined (fun e member => ⟨self e.1 (.select member),
        ⟨rel_self.2 fun i held => self i (.chosen member held), rfl, rfl, rfl, rfl⟩⟩)
        fun i s new => ⟨renumbering_made issued new.1, fun j j' held => renumbering_made issued (new.2 j' held) j⟩
      tuples := undisturbed.tuples.entwined
        (fun e member => ⟨self e.1 (.tuple member), slotsTwins_self.2 fun i held => self i (.part member held)⟩)
        fun i _ new => ⟨renumbering_made issued new, trivial⟩
      addresses := fun value shown => ?_
      loops := rfl
      labels := labelled
      visited := noted
      unlabelled := fun _ _ _ => rfl
      unvisited := fun _ _ _ => Iff.rfl }
  · dsimp only
    rw [func, seq]
    have within : Instance.Within m.context.count (.value ⟨some m.act.func.name, value⟩ m.act.seq index ty) :=
      issued.act.number
    refine ⟨(Instance.renumber_of_within within).symm, fun pending => ?_⟩
    obtain ⟨value', _, _, here, eq⟩ := pending.own
    simp only [Instance.value.injEq, Origin.mk.injEq] at eq
    exact shown (eq.1.2 ▸ here)
  · rintro _ rfl
    simp [Activation.reenters, Function.cut]
  · have same : m₁.act.resolve? value = m.act.resolve? value := undisturbed.locals value shown
    show Option.Rel _ (m.act.resolve? value) (m₁.act.resolve? value)
    rw [same]
    exact rel_self.2 fun i held => self i (.bound held)
  · dsimp only
    rw [names]
    exact entwined_self.2 fun e member => ⟨self e.1 (.named member), rfl⟩
  · dsimp only
    rw [undisturbed.addresses value shown]
    exact rel_self.2 fun s held =>
      ⟨renumbering_cell (allocated.addresses value s held), slotTwins_self.2 fun i has =>
        self i (.address held has)⟩

end

/-- Where nothing was created, a list that is set aside brings no parameters. -/
theorem openedParams_of_created (empty : Routine.created r.stmts = []) : r.setAside.openedParams = r.openedParams := by
  rw [Routine.openedParams_setAside, Routine.continuationParams_eq, empty]
  rfl

end Twins

/-- Two analyses have come to the same state, but for what lies behind block `t`, which is cut in the second. -/
structure Abreast (t e : Nat) (m k : Machine) : Prop where
  context : ∃ protocol, k.context = { m.context with protocol }
  act : ∃ labels visited, k.act = { m.act with func := m.act.func.cut t, labels, visited }
  labels : ∀ b signature, Reaches m.act.func e b → k.act.labels.get? (b, signature) = m.act.labels.get?
    (b, signature)
  visited : ∀ b signature, Reaches m.act.func e b →
    ((b, signature) ∈ k.act.visited ↔ (b, signature) ∈ m.act.visited)

/-- Both sides of a branch are walked: from `m` the first leads to `m₁`, and from there the second to `m₂`. -/
structure Sides (walk : Walker) (src t e : Nat) (m m₁ m₂ : Machine) : Prop where
  first : followEdge walk src t m.setAside = .ok () m₁
  second : followEdge walk src e (m₁.setAside.resetLoops m.act.loops) = .ok () m₂

section Sides

variable {t e src depth depth' : Nat} {m m₁ m₂ k k₁ k₂ : Machine} {env env' : Env}

theorem block_of_followEdge {walk : Walker} (ends : followEdge walk src t m = .ok () m₁) :
    ∃ block, m.act.func.block? t = some block := by
  have leads : Leads (followEdge walk src t) m fun _ _ => ∃ block, m.act.func.block? t = some block := by
    rw [followEdge, leads_bind, leads_spend]
    refine ⟨fun _ => trivial, fun n _ => ?_⟩
    rw [arriveAt, leads_bind, leads_activation]
    cases found : m.act.func.block? t with
    | none => trivial
    | some block => exact leads_of (fun _ _ _ => ⟨block, rfl⟩) fun _ _ _ => trivial
  exact leads.ok ends

theorem not_reaches_cut (apart : ∀ b, Reaches f t b → ¬ Reaches f e b) (reaches : Reaches f e b) :
    ¬ Reaches (f.cut t) t b := by
  intro reached
  obtain rfl | ⟨c, ⟨i, ⟨block, found, member⟩, out⟩, -⟩ := reached.cases_head
  · exact apart t .refl reaches
  · rw [Function.block?_cut] at found
    obtain ⟨whole, -, rfl⟩ := Option.map_eq_some_iff.1 found
    rw [if_pos rfl, List.mem_singleton] at member
    subst member
    exact nomatch out

theorem routineTwins_sides {view : View} (same : k.act.routine = m.act.routine)
    (frame : m₁.act.frame = m.setAside.act.frame) (frame' : k₁.act.frame = k.setAside.act.frame)
    (created : view.joins → Routine.created m₁.act.routine.stmts = [])
    (created' : Routine.created k₁.act.routine.stmts = []) :
    RoutineTwins view k₁.act.routine.setAside m₁.act.routine.setAside := by
  have one := routine_aside frame
  have two := routine_aside frame'
  rw [same] at two
  refine ⟨?_, ?_, rfl, fun joins => ?_⟩
  · show m₁.act.routine.name = k₁.act.routine.name
    rw [one, two]
  · show m₁.act.routine.params = k₁.act.routine.params
    rw [one, two]
  · rw [openedParams_of_created (created joins), openedParams_of_created created', one, two]
    rfl

/-- After the first sides, the machines are twins for the second ones. -/
theorem twins_sides (issued : m.Issued) (allocated : m.holdings.Allocated) (linked : m.act.func.Linked)
    (separate : Separate m.act.func t e) (abreast : Abreast t e m k)
    (first : followEdge (walkBlock env depth) src t m.setAside = .ok () m₁)
    (first' : followEdge (walkBlock env' depth') src t k.setAside = .ok () k₁)
    (undisturbed : Undisturbed t e m m₁) :
    ∃ (ahead : Ahead m m₁) (view : View), view.blocks = Reaches m.act.func e ∧
      Twins (renumbering t ahead) view (k₁.setAside.resetLoops k.act.loops)
        (m₁.setAside.resetLoops m.act.loops) := by
  obtain ⟨protocol, context⟩ := abreast.context
  obtain ⟨labels, visited, act⟩ := abreast.act
  have func : k.act.func = m.act.func.cut t := by rw [act]
  have indexed : Indexed m.setAside.act.func := fun b block found => linked.index_eq found
  have indexed' : Indexed k.act.func := func ▸ indexed_cut linked t
  have walked := walked_followEdge indexed first
  have walked' := walked_followEdge (m := k.setAside) indexed' first'
  obtain ⟨block, found⟩ := block_of_followEdge first'
  have bare : block.instrs = [.perform (.ret [])] := by
    have found : k.act.func.block? t = some block := found
    rw [func, Function.block?_cut] at found
    obtain ⟨whole, -, rfl⟩ := Option.map_eq_some_iff.1 found
    exact if_pos rfl
  obtain ⟨⟨⟨protocol', context'⟩, routine', loops', labels', visited', act'⟩, nothing⟩ :=
    passed_followEdge found bare rfl first'
  have ahead : Ahead m m₁ := by
    obtain ⟨more, containers⟩ := undisturbed.containers
    refine ⟨walked.counts, ?_⟩
    rw [containers, List.length_append]
    exact Nat.le_add_right _ _
  refine ⟨ahead, sideView m.act.func t e (k₁.setAside.resetLoops k.act.loops).act, rfl, ?_, ?_⟩
  · have twins : ContextTwins (renumbering t ahead) m.context m₁.context :=
      contextTwins_sides issued allocated undisturbed
    have same : k₁.context = { m.context with protocol := protocol' } := by
      rw [context']
      show ({ k.context with protocol := protocol' } : Context) = _
      rw [context]
    show ContextTwins _ k₁.context m₁.context
    rw [same]
    exact { twins with }
  · have whole (r : Routine) : ({ k₁.act with routine := r, loops := k.act.loops } : Activation) =
        { m.act with func := m.act.func.cut t, routine := r, labels := labels', visited := visited' } := by
      rw [act']
      show ({ k.act with routine := r, labels := labels', visited := visited' } : Activation) = _
      rw [act]
    have unseen (b : Nat) (reaches : Reaches m.act.func e b) : ¬ Reaches m.act.func t b := fun other =>
      separate.apart b other reaches
    have unseen' (b : Nat) (reaches : Reaches m.act.func e b) : ¬ Reaches k.act.func t b :=
      func ▸ not_reaches_cut separate.apart reaches
    refine activationTwins_sides issued allocated undisturbed linked separate walked.frame (whole _) ?_ ?_ ?_
    · exact routineTwins_sides (by rw [act]) walked.frame walked'.frame undisturbed.created nothing
    · intro b signature reaches
      have here : k₁.act.labels = labels' := by rw [act']
      rw [walked.labels b signature (unseen b reaches), ← here, walked'.labels b signature (unseen' b reaches)]
      exact (abreast.labels b signature reaches).symm
    · intro b signature reaches
      have here : k₁.act.visited = visited' := by rw [act']
      rw [walked.visited b signature (unseen b reaches), ← here, walked'.visited b signature (unseen' b reaches)]
      exact (abreast.visited b signature reaches).symm

theorem sides_of_walkBothWays {m₃ : Machine} (indexed : Indexed m.act.func)
    (ends : walkBothWays (walkBlock env depth) src t e m = .ok () m₃) :
    ∃ m₁ m₂, Sides (walkBlock env depth) src t e m m₁ m₂ ∧ m₃ = m.joinSides m₁ m₂ := by
  obtain ⟨m₁, m₂, thenBody, before, rest, first, second, waits, rfl⟩ := leads_bothWays.ok ends
  have frame := (walked_followEdge (m := m.setAside) indexed first).frame
  have func : m₁.act.func = m.act.func := congrArg (·.func) frame
  have indexed' : Indexed m₁.act.func := func ▸ indexed
  have frame' := (walked_followEdge (m := m₁.setAside.resetLoops m.act.loops) indexed' second).frame
  obtain ⟨stack, -⟩ := routine_sides frame frame'
  rw [stack, List.cons.injEq, List.cons.injEq] at waits
  obtain ⟨rfl, rfl, rfl⟩ := waits
  exact ⟨m₁, m₂, ⟨first, second⟩, rfl⟩

/-- The second sides come out the same. -/
theorem stmts_sides {p : Program} {o : Options} (issued : m.Issued) (allocated : m.holdings.Allocated)
    (linked : m.act.func.Linked) (separate : Separate m.act.func t e) (abreast : Abreast t e m k)
    (sides : Sides (walkBlock ⟨p, o⟩ depth) src t e m m₁ m₂)
    (sides' : Sides (walkBlock ⟨p.cut m.act.func.name t, o⟩ depth') src t e k k₁ k₂)
    (undisturbed : Undisturbed t e m m₁) : k₂.act.routine.stmts = m₂.act.routine.stmts := by
  obtain ⟨ahead, view, blocks, twins⟩ :=
    twins_sides issued allocated linked separate abreast sides.first sides'.first undisturbed
  have walkers := agree_walkBlock (T := renumbering t ahead) (envTwins_cut rfl p o t) (fun _ _ => trivial) depth' depth
  have seen : view.blocks e := blocks ▸ .refl
  obtain ⟨after, -, -⟩ := agree_followEdge walkers src seen _ _ twins () k₂ () m₂ sides'.second sides.second
  exact after.act.routine.stmts.symm

end Sides

/-- The second side of a branch comes out as if a bare return stood in place of the first, if the first leaves what the
second may see undisturbed. -/
theorem sides_independent {p : Program} {o : Options} {n j t e depth depth' : Nat} {arrival : Arrival} {cond : Operand}
    {pos : Option Position} {m₀ m m₃ k k₃ : Machine}
    (stops : StopsAt p o n (.instr arrival ⟨.perform (.branch cond t e), pos⟩) m₀)
    (settled : Settled cond t e arrival (m₀.withBudget j) m) (linked : m.act.func.Linked)
    (separate : Separate m.act.func t e) (abreast : Abreast t e m k)
    (ends : walkBothWays (walkBlock ⟨p, o⟩ depth) arrival.block t e m = .ok () m₃)
    (ends' : walkBothWays (walkBlock ⟨p.cut m.act.func.name t, o⟩ depth') arrival.block t e k = .ok () k₃)
    (undisturbed : ∀ m₁, followEdge (walkBlock ⟨p, o⟩ depth) arrival.block t m.setAside = .ok () m₁ →
      Undisturbed t e m m₁) :
    ∃ m₁ m₂ k₁ k₂, Sides (walkBlock ⟨p, o⟩ depth) arrival.block t e m m₁ m₂ ∧
      m₃ = m.joinSides m₁ m₂ ∧
      Sides (walkBlock ⟨p.cut m.act.func.name t, o⟩ depth') arrival.block t e k k₁ k₂ ∧
        k₃ = k.joinSides k₁ k₂ ∧
      k₂.act.routine.stmts = m₂.act.routine.stmts := by
  have sound : m.Issued ∧ m.holdings.Allocated := by
    obtain ⟨entry, -, halts⟩ := stops
    obtain ⟨issued, allocated⟩ := allocated_of_stops halts
    have shifted := settled.shifted
    have paid := issued.withBudget j
    refine ⟨(paid.issued.advances shifted.act shifted.context shifted.tasks).issued, ?_⟩
    obtain ⟨_, _, _, _, _, act⟩ := shifted.act
    obtain ⟨_, context⟩ := shifted.context
    have same : m.holdings = m₀.holdings := by
      rw [Machine.holdings, act, context]
      rfl
    exact same ▸ allocated
  have indexed : Indexed m.act.func := fun b block found => linked.index_eq found
  have indexed' : Indexed k.act.func := by
    obtain ⟨labels, visited, act⟩ := abreast.act
    rw [act]
    exact indexed_cut linked t
  obtain ⟨m₁, m₂, sides, joined⟩ := sides_of_walkBothWays indexed ends
  obtain ⟨k₁, k₂, sides', joined'⟩ := sides_of_walkBothWays indexed' ends'
  have same := stmts_sides sound.1 sound.2 linked separate abreast sides sides' (undisturbed m₁ sides.first)
  exact ⟨m₁, m₂, k₁, k₂, sides, joined, sides', joined', same⟩

/-! ### A branch with calls on both sides -/

/-- Sends on its channel, and makes a map of its own. -/
def tending : Function where
  name := "main.serve"
  params := [⟨"x", .intChan⟩]
  freeVars := []
  results := none
  blocks := [
    .of 0 none [] [] [
      .define "s" (.map .int .int) .makeMap,
      .perform (.send (.var "x") (.int 1)),
      .perform (.ret [])]]

/-- Creates a channel on each side of a branch, and has it served. -/
def parting : Function := .closed "main.main" [
  .of 0 none [] [1, 2] [
    .define "c" .bool (.binary .lt (.int 0) (.int 1)),
    .perform (.branch (.var "c") 1 2)],
  .of 1 none [0] [] [
    .define "a" .intChan (.makeChan (.int 1)),
    .perform (.call ⟨.static "main.serve", [.var "a"]⟩),
    .perform (.ret [])],
  .of 2 none [0] [] [
    .define "b" .intChan (.makeChan (.int 2)),
    .perform (.call ⟨.static "main.serve", [.var "b"]⟩),
    .perform (.send (.var "b") (.int 1)),
    .perform (.ret [])]]

def parted : Program := { functions := [parting, tending] }

/-- At the branch, with enough to go on. -/
def atParting : Machine := (after (analyse ⟨parted, {}⟩ (Machine.start parted parting 1))).withBudget 100

/-- The same with the first side cut. -/
def atParting' : Machine := { atParting with act := { atParting.act with func := parting.cut 1 } }

/-- After the first side. -/
def pastFirst : Machine := after (followEdge (walkBlock ⟨parted, {}⟩ 20) 0 1 atParting.setAside)

theorem reaches_last {t : Nat} {block : Block} (here : f.block? t = some block)
    (last : ∀ i ∈ block.instrs, i.successors = []) (reaches : Reaches f t b) : b = t := by
  induction reaches with
  | refl => rfl
  | tail _ leaves ih =>
    subst ih
    obtain ⟨i, ⟨block', here', inside⟩, there⟩ := leaves
    obtain rfl := Option.mem_unique here here'
    rw [last i inside] at there
    exact nomatch there

theorem defines_parting {value : String} : Defines parting 1 value ↔ value = "a" := by
  constructor
  · rintro ⟨b, i, reaches, ⟨block, found, inside⟩, named⟩
    obtain rfl := reaches_last (f := parting) rfl (by decide) reaches
    cases found
    have only : ∀ i ∈ (parting.blocks[1]).instrs, ∀ name ∈ i.name?, name = "a" := by decide
    exact only i inside value named
  · rintro rfl
    exact ⟨1, .define "a" .intChan (.makeChan (.int 1)), .refl,
      ⟨_, rfl, List.mem_cons_self⟩, rfl⟩

theorem separate_parting : Separate parting 1 2 := by
  have elsewhere : ∀ b < 3, b ≠ 1 → ∀ block ∈ parting.block? b, ∀ i ∈ block.instrs,
      Operand.var "a" ∉ i.action.operands ∧ i.name? ≠ some "a" := by decide
  have outside {b : Nat} {i : Instr} (inside : Inside parting b i) (other : ¬ Reaches parting 1 b) :
      Operand.var "a" ∉ i.action.operands ∧ i.name? ≠ some "a" := by
    obtain ⟨block, found, inside⟩ := inside
    obtain ⟨below, -⟩ := List.getElem?_eq_some_iff.1 found
    exact elsewhere b below (fun same => other (same ▸ .refl)) block found i inside
  refine ⟨fun b first second => ?_, fun b i inside other x used name eq defines => ?_,
    fun b i inside other name named defines => ?_⟩
  · obtain rfl := reaches_last (f := parting) rfl (by decide) first
    exact nomatch reaches_last (f := parting) rfl (by decide) second
  · subst eq
    exact (outside inside other).1 (defines_parting.1 defines ▸ used)
  · exact (outside inside other).2 (defines_parting.1 defines ▸ named)

theorem undisturbed_parting : Undisturbed 1 2 atParting pastFirst where
  globals name := congrArg (·.get? name) (by decide +kernel : pastFirst.context.globals = atParting.context.globals)
  containers := ⟨[.map {}], by decide +kernel⟩
  heap := ⟨[], by decide +kernel, nofun⟩
  callables := ⟨[], by decide +kernel, nofun⟩
  locals value other := by
    have func : atParting.act.func = parting := by decide +kernel
    have bound : pastFirst.act.locals = atParting.act.locals.insert "a" (minted "a" 0) := by decide +kernel
    rw [Activation.resolve?, bound, Table.get?_insert, if_neg]
    · rfl
    · rintro rfl
      exact other (func ▸ defines_parting.2 rfl)
  addresses value _ := congrArg (·.get? value) (by decide +kernel : pastFirst.act.addresses = atParting.act.addresses)
  storage := ⟨[], by decide +kernel, nofun⟩
  tuples := ⟨[], by decide +kernel, nofun⟩
  selects := ⟨[], by decide +kernel, nofun⟩
  defers := by decide +kernel
  deferred c member := by
    have empty : atParting.act.defers = [] := by decide +kernel
    rw [empty] at member
    exact nomatch member
  created := by
    have func : atParting.act.func = parting := by decide +kernel
    rintro ⟨b, block, reaches, found, merges⟩
    rw [func] at reaches found
    obtain rfl := reaches_last (f := parting) rfl (by decide) reaches
    cases found
    exact nomatch merges

/-- The second side has a channel of its own served, whatever the first has served. -/
theorem parting_independent :
    ∃ m₁ m₂ k₁ k₂, Sides (walkBlock ⟨parted, {}⟩ 20) 0 1 2 atParting m₁ m₂ ∧
      Sides (walkBlock ⟨parted.cut "main.main" 1, {}⟩ 20) 0 1 2 atParting' k₁ k₂ ∧
      m₂.act.routine.stmts = [.newChan "b" 2, .call "main.serve" ["b"], .send "b"] ∧
      k₂.act.routine.stmts = m₂.act.routine.stmts := by
  have stops : StopsAt parted {} 1 (.instr ⟨0, none⟩ (.perform (.branch (.var "c") 1 2)))
      (after (analyse ⟨parted, {}⟩ (Machine.start parted parting 1))) := by
    have halts : (stop? parted {} 1).map (·.1) =
        some (.instr ⟨0, none⟩ (.perform (.branch (.var "c") 1 2))) := by decide +kernel
    obtain ⟨⟨point, m₀⟩, found, rfl⟩ := Option.map_eq_some_iff.1 halts
    obtain ⟨entry, named, ends⟩ := stop?_eq_some.1 found
    cases named
    exact ⟨parting, rfl, ends.trans (by rw [ends, after])⟩
  have settled : Settled (.var "c") 1 2 ⟨0, none⟩
      ((after (analyse ⟨parted, {}⟩ (Machine.start parted parting 1))).withBudget 100) atParting :=
    ⟨_, .stay _, ⟨_, rfl⟩, Iff.rfl⟩
  have func : atParting.act.func = parting := by decide +kernel
  have abreast : Abreast 1 2 atParting atParting' :=
    ⟨⟨_, rfl⟩, ⟨_, _, by rw [func]; rfl⟩, fun _ _ _ => rfl, fun _ _ _ => Iff.rfl⟩
  obtain ⟨_, goes⟩ := ends_of_isOk (x := walkBothWays (walkBlock ⟨parted, {}⟩ 20) 0 1 2) (m :=
    atParting) (by decide +kernel)
  obtain ⟨_, goes'⟩ :=
    ends_of_isOk (x := walkBothWays (walkBlock ⟨parted.cut atParting.act.func.name 1, {}⟩ 20) 0 1 2)
    (m := atParting') (by decide +kernel)
  obtain ⟨m₁, m₂, k₁, k₂, sides, -, sides', -, same⟩ := sides_independent stops settled
    (func ▸ ⟨parting.draft, rfl⟩) (func ▸ separate_parting) abreast goes goes' fun m₁ first => by
      rw [show m₁ = pastFirst by rw [pastFirst, first, after]]
      exact undisturbed_parting
  have second : ((after (followEdge (walkBlock ⟨parted, {}⟩ 20) 0 2
      (pastFirst.setAside.resetLoops atParting.act.loops))).act.routine.stmts =
      [.newChan "b" 2, .call "main.serve" ["b"], .send "b"]) := by decide +kernel
  rw [func] at sides'
  refine ⟨m₁, m₂, k₁, k₂, sides, sides', ?_, same⟩
  rw [← second, pastFirst, sides.first, after, sides.second, after]

/-! ### A branch that stores to a global -/

/-- Stores another channel to a global on one side of a branch, and sends on what the global holds on the other. -/
def leaking : Function := .closed "main.main" [
  .of 0 none [] [1, 2] [
    .define "a" .intChan (.makeChan (.int 1)),
    .define "b" .intChan (.makeChan (.int 1)),
    .perform (.store (.global "main.out") (.var "a")),
    .define "c" .bool (.binary .lt (.int 0) (.int 1)),
    .perform (.branch (.var "c") 1 2)],
  .of 1 none [0] [] [
    .perform (.store (.global "main.out") (.var "b")),
    .perform (.ret [])],
  .of 2 none [0] [] [
    .define "d" .intChan (.deref (.global "main.out")),
    .perform (.send (.var "d") (.int 1)),
    .perform (.ret [])]]

def leaked : Program := { globals := [⟨"main.out", .intChan⟩], functions := [leaking] }

/-- The statements that are inferred for the entry function. -/
def mainStatements (p : Program) : Option (List Statement) :=
  (infer 100 p { cleanUp := false }).result.toOption.bind fun protocol => (protocol.routine? "main.main").map (·.stmts)

/-- The second side sends on the channel that only the first side stores. -/
theorem leaking_dependent :
    leaking.Linked ∧ (∀ b, Reaches leaking 1 b → ¬ Reaches leaking 2 b) ∧
      mainStatements leaked = some [.newChan "a" 1, .newChan "b" 1, .branch [] [.send "b"]] ∧
      mainStatements (leaked.cut "main.main" 1) = some [.newChan "a" 1, .newChan "b" 1, .branch [] [.send "a"]] := by
  refine ⟨⟨leaking.draft, rfl⟩, fun b first second => ?_, by decide +kernel, by decide +kernel⟩
  obtain rfl := reaches_last (f := leaking) rfl (by decide) first
  exact nomatch reaches_last (f := leaking) rfl (by decide) second

end Analysis

end ChanFlow
