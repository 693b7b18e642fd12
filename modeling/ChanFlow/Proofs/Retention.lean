import ChanFlow.Proofs.Labels
import ChanFlow.Proofs.Operations

/-!
What is written into a routine stays there.

A moment of a run is marked. The operations that are in the routine under construction at that moment are in the
routine of that name when the run is over, unless the name is begun again: a routine takes the place of the one
that had its name before. Names are begun by activations of one function only, by its own name for the whole of it
and by labels for its merge points. So nothing is lost if no other activation of that function comes later.
-/
open List

namespace ChanFlow.Analysis

open Ssa Protocol Statement

variable {f entry : Function} {name : String} {key : BlockVisit} {a b : Activation} {p : Program} {n dst : Nat}
  {point : Point} {o : Options}

/-! ### Names and who begins them -/

/-- The routines that activations of a function begin: the one of the function itself, and those of its merge
points. -/
def BegunBy (f : Function) (name : String) : Prop := name = f.name ∨ ∃ key, name = visitLabel f key

theorem BegunBy.isPrefix (begun : BegunBy f name) : f.name.toList <+: name.toList := by
  rcases begun with rfl | ⟨key, rfl⟩
  · exact prefix_rfl
  · rw [toList_visitLabel]
    exact prefix_append _ _

/-! ### The marked moment -/

section Moment

variable (p : Program) (o : Options) (mark : Machine) (left : Nat) (s : Statement)

/-- How the routine under construction belongs to its activation. The initialiser and the entry function build the
routine of the entry function. -/
inductive Owner (o : Options) (a : Activation) : Prop
  | whole (name : a.routine.name = a.func.name)
  | merge {key : BlockVisit} (known : (a.labels.get? key).isSome) (name : a.routine.name = visitLabel a.func key)
  | root (outermost : a.callers = []) (name : a.routine.name = o.entry)

/-- The activation goes on with the routine of the marked moment: it is the same one, or both build the routine of
the entry function. -/
def Continues (m : Machine) : Prop :=
  ¬ Apart mark.act m.act ∨ mark.act.routine.name = o.entry ∧ mark.act.callers = [] ∧ m.act.callers = []

instance (o : Options) (mark m : Machine) : Decidable (Continues o mark m) :=
  inferInstanceAs (Decidable (¬ (mark.act.func.name = m.act.func.name → mark.act.seq ≠ m.act.seq) ∨
    mark.act.routine.name = o.entry ∧ mark.act.callers = [] ∧ m.act.callers = []))

/-- The routine of the marked moment is in the protocol, with all the occurrences of the statement. -/
def Finished (m : Machine) : Prop :=
  ∃ r, m.context.protocol.routine? mark.act.routine.name = some r ∧
    mark.act.routine.operations.count s ≤ (operationsOfAll r.stmts).count s

/-- What is known after the marked moment. -/
structure Beyond (m : Machine) : Prop where
  known : Interpretable p mark.act.func
  owner : Owner o mark.act
  once : mark.act.func.name ∉ mark.act.callers
  taken : mark.act.seq < m.context.count mark.act.func.name
  waiting : ∀ a ∈ m.tasks.waiting, Apart mark.act a

/-- Functions are not entered twice, and those that wait are called from somewhere. -/
def Awaited (m : Machine) : Prop := ∀ a ∈ m.tasks.waiting, a.callers ≠ [] ∧ a.func.name ∉ a.callers

structure Guarded (m : Machine) : Prop where
  owner : Owner o m.act
  once : m.act.func.name ∉ m.act.callers
  queued : Awaited m
  beyond : m.budget < left → Beyond p o mark m
  labels : m.budget < left → ¬ Apart mark.act m.act →
    ∀ key, (mark.act.labels.get? key).isSome → (m.act.labels.get? key).isSome

/-- The marked moment is one of a routine that is begun and finished in between: of a merge point, or of a function
called from here. -/
inductive Inner (m : Machine) : Prop
  | merge (func : mark.act.func = m.act.func) (seq : mark.act.seq = m.act.seq)
    (callers : mark.act.callers = m.act.callers) {key : BlockVisit} (unknown : m.act.labels.get? key = none)
    (name : mark.act.routine.name = visitLabel m.act.func key)
  | call (nested : m.act.callers ++ [m.act.func.name] <+: mark.act.callers)
    (fresh : m.context.count mark.act.func.name ≤ mark.act.seq)

/-- Where the operations of the marked moment are, if it lies between two machines: in the routine that is built
here, or in one that is finished. -/
def Captured (m m' : Machine) : Prop :=
  Abides m.act mark.act ∧ mark.act.routine.operations.count s ≤ m'.act.routine.operations.count s ∨
    Inner mark m ∧ Finished mark s m'

/-- The machine before and after steps that build a routine. -/
structure Flow (m m' : Machine) : Prop extends Abides m.act m'.act where
  counts : ∀ f, m.context.count f ≤ m'.context.count f
  budget : m'.budget ≤ m.budget
  labels : ∀ key, (m.act.labels.get? key).isSome → (m'.act.labels.get? key).isSome
  tally : m.act.routine.operations.count s ≤ m'.act.routine.operations.count s
  across : left ≤ m.budget → m'.budget < left → Captured mark s m m'
  after : m.budget < left → Finished mark s m → Finished mark s m'

end Moment

section Flow

variable {p : Program} {o : Options} {mark : Machine} {left : Nat} {s : Statement} {m m' m'' : Machine}

theorem Inner.back (inner : Inner mark m') (func : m'.act.func = m.act.func) (seq : m'.act.seq = m.act.seq)
    (callers : m'.act.callers = m.act.callers) (counts : ∀ f, m.context.count f ≤ m'.context.count f)
    (labels : ∀ key, (m.act.labels.get? key).isSome → (m'.act.labels.get? key).isSome) : Inner mark m := by
  cases inner with
  | merge func' seq' callers' unknown name =>
    refine .merge (func'.trans func) (seq'.trans seq) (callers'.trans callers)
      (Option.not_isSome_iff_eq_none.1 fun known => ?_) (func ▸ name)
    simpa [unknown] using labels _ known
  | call nested fresh =>
    rw [callers, func] at nested
    exact .call nested (Nat.le_trans (counts _) fresh)

theorem Flow.trans (one : Flow mark left s m m') (two : Flow mark left s m' m'') : Flow mark left s m m'' where
  toAbides := one.toAbides.trans two.toAbides
  counts f := Nat.le_trans (one.counts f) (two.counts f)
  budget := Nat.le_trans two.budget one.budget
  labels key known := two.labels key (one.labels key known)
  tally := Nat.le_trans one.tally two.tally
  across before beyond := by
    -- The marked moment lies in the one part or in the other.
    by_cases first : m'.budget < left
    · rcases one.across before first with ⟨current, tally⟩ | ⟨inner, finished⟩
      · exact .inl ⟨current, Nat.le_trans tally two.tally⟩
      · exact .inr ⟨inner, two.after first finished⟩
    · rcases two.across (Nat.le_of_not_lt first) beyond with ⟨current, tally⟩ | ⟨inner, finished⟩
      · exact .inl ⟨one.toAbides.trans current, tally⟩
      · exact .inr ⟨inner.back one.func one.seq one.callers one.counts one.labels, finished⟩
  after beyond finished := two.after (Nat.lt_of_le_of_lt one.budget beyond) (one.after beyond finished)

/-- A step that pays for nothing and begins or ends nothing. -/
structure Small (m m' : Machine) : Prop extends Abides m.act m'.act where
  labels : m'.act.labels = m.act.labels := by rfl
  protocol : m'.context.protocol = m.context.protocol := by rfl
  counts : ∀ f, m.context.count f ≤ m'.context.count f := by exact fun _ => Nat.le_refl _
  budget : m'.budget = m.budget := by rfl

theorem Small.flow (small : Small m m')
    (tally : m.act.routine.operations.count s ≤ m'.act.routine.operations.count s) : Flow mark left s m m' where
  toAbides := small.toAbides
  counts := small.counts
  budget := Nat.le_of_eq small.budget
  labels key := small.labels ▸ id
  tally := tally
  across before beyond := by
    rw [small.budget] at beyond
    omega
  after _ finished := by
    obtain ⟨r, found, enough⟩ := finished
    exact ⟨r, small.protocol ▸ found, enough⟩

theorem Owner.later (owner : Owner o a) (abides : Abides a b)
    (labels : ∀ key, (a.labels.get? key).isSome → (b.labels.get? key).isSome) : Owner o b := by
  cases owner with
  | whole own => exact .whole (by rw [abides.name, abides.func, own])
  | merge known label => exact .merge (labels _ known) (by rw [abides.name, abides.func, label])
  | root outermost entry => exact .root (abides.callers.trans outermost) (abides.name.trans entry)

theorem Guarded.small (guarded : Guarded p o mark left m) (small : Small m m') (tasks : m'.tasks = m.tasks := by rfl) :
    Guarded p o mark left m' where
  owner := guarded.owner.later small.toAbides fun _ => small.labels ▸ id
  once := by
    rw [small.func, small.callers]
    exact guarded.once
  queued := by
    rw [Awaited, tasks]
    exact guarded.queued
  beyond past := by
    have beyond := guarded.beyond (small.budget ▸ past)
    exact { beyond with taken := Nat.lt_of_lt_of_le beyond.taken (small.counts _), waiting := tasks ▸ beyond.waiting }
  labels past twin := by
    rw [Apart, small.func, small.seq] at twin
    rw [small.labels]
    exact guarded.labels (small.budget ▸ past) twin

theorem Quiet.small (quiet : Quiet m m') (budget : m'.budget = m.budget) : Small m m' :=
  ⟨quiet.same.toAbides, quiet.labels, quiet.protocol, quiet.counts, budget⟩

theorem Quiet.tally (quiet : Quiet m m') : m.act.routine.operations.count s ≤ m'.act.routine.operations.count s := by
  obtain ⟨added, -, stmts⟩ := quiet.stmts
  have grows (ss : List Statement) :
      (operationsOfAll ss).count s ≤ (operationsOfAll (added.foldl Routine.append ss)).count s := by
    clear stmts
    induction added generalizing ss with
    | nil => exact Nat.le_refl _
    | cons t rest ih =>
      refine Nat.le_trans ?_ (ih (Routine.append ss t))
      rw [operationsOfAll_add, count_append]
      exact Nat.le_add_right _ _
  rw [Routine.count_operations, Routine.count_operations, quiet.waiting, stmts]
  exact Nat.add_le_add_right (grows _) _

theorem Quiet.selects (quiet : Quiet m m') : Selects m.act.routine.stmts m'.act.routine.stmts := by
  obtain ⟨added, -, stmts⟩ := quiet.stmts
  rw [stmts]
  exact selects_appends added _

end Flow

/-! ### Being marked -/

/-- The operand a branch depends on. -/
def condition? (i : Instr) : Option Operand :=
  match i.action with
  | .perform (.branch cond _ _) => some cond
  | _ => none

/-- Where a branch tests for a case of a select, the select has that case, and the default if this was the last case
before it. -/
def Tested (m : Machine) (i : Instr) : Prop :=
  ∀ cond ∈ condition? i, ∀ test ∈ selectTest? m.act cond, test.1.routine = m.act.routine.name →
    ∀ cases ∈ m.act.routine.casesAt? test.1.slot, test.2 < cases.length ∧
      (test.2 + 1 = test.1.cases → test.1.blocking = false → test.1.cases < cases.length)

instance (m : Machine) (i : Instr) : Decidable (Tested m i) :=
  inferInstanceAs (Decidable (∀ cond ∈ condition? i, ∀ test ∈ selectTest? m.act cond,
    test.1.routine = m.act.routine.name → ∀ cases ∈ m.act.routine.casesAt? test.1.slot, test.2 < cases.length ∧
      (test.2 + 1 = test.1.cases → test.1.blocking = false → test.1.cases < cases.length)))

/-- The marked moment in a run that comes through the states of `property`, and is not undone there. -/
structure Marked (p : Program) (o : Options) (mark : Machine) (left : Nat)
    (property : Property) : Prop where
  linked : ∀ f ∈ p.functions, f.Linked
  plain : ∀ f ∈ p.functions, '#' ∉ f.name.toList
  entry : '#' ∉ o.entry.toList
  here : ∀ point m, property left point m → m = mark
  last : ∀ n point m, n < left → property n point m → BegunBy m.act.func mark.act.routine.name →
    Continues o mark m
  tested : ∀ n arrival i m, property n (.instr arrival i) m → Tested m i

theorem Interpretable.mem (known : Interpretable p f) : f ∈ p.functions :=
  mem_of_find?_eq_some known.1

section Marked

variable {p : Program} {o : Options} {mark : Machine} {left : Nat} {s : Statement}
  {property : Property} {m m' m₁ : Machine}

theorem Guarded.pay (marked : Marked p o mark left property) (tidy : Tidy p m)
    (guarded : Guarded p o mark left m) (pays : m.budget = n + 1)
    (reached : property (n + 1) point (m.withBudget 0)) :
    Guarded p o mark left (m.withBudget n) ∧ Flow mark left s m (m.withBudget n) := by
  -- What is paid here is the step at the marked moment, or the budget stays on one side of it.
  by_cases now : left = n + 1
  · subst now
    obtain rfl := marked.here point _ reached
    refine ⟨{ guarded with beyond := fun _ => ?_, labels := fun _ _ _ => id }, ?_⟩
    · refine ⟨tidy.known, guarded.owner, guarded.once, tidy.numbered, fun a waits same number => ?_⟩
      exact tidy.apart a waits same.symm number.symm
    · refine ⟨{}, fun _ => Nat.le_refl _, ?_, fun _ => id, Nat.le_refl _, fun _ _ => .inl ⟨{}, Nat.le_refl _⟩, ?_⟩
      · show n ≤ m.budget
        omega
      · intro past
        omega
  · have past : n < left ↔ m.budget < left := by omega
    refine ⟨{ guarded with beyond := fun after => ?_, labels := fun after => guarded.labels (past.1 after) }, ?_⟩
    · exact { guarded.beyond (past.1 after) with }
    · refine ⟨{}, fun _ => Nat.le_refl _, ?_, fun _ => id, Nat.le_refl _, fun before after => ?_, fun _ => id⟩
      · show n ≤ m.budget
        omega
      · have after : n < left := after
        omega

theorem Finished.closeRoutine (finished : Finished mark s m) (other : m.act.routine.name ≠ mark.act.routine.name) :
    Finished mark s m.closeRoutine := by
  obtain ⟨r, found, enough⟩ := finished
  exact ⟨r, (Machine.routine?_closeRoutine rfl _).trans ((if_neg other).trans found), enough⟩

theorem finished_closeRoutine (name : m.act.routine.name = mark.act.routine.name)
    (complete : m.act.routine.waiting = [])
    (enough : mark.act.routine.operations.count s ≤ m.act.routine.operations.count s) :
    Finished mark s m.closeRoutine :=
  ⟨m.act.routine, (Machine.routine?_closeRoutine rfl _).trans (if_pos name),
    Routine.operations_finished complete ▸ enough⟩

/-- A routine of the same name is not begun anew in the protocol. -/
theorem Finished.openRoutine (finished : Finished mark s m) (r : Routine) (e : Event) :
    Finished mark s (m.openRoutine r e) := by
  obtain ⟨r', found, enough⟩ := finished
  refine ⟨r', ?_, enough⟩
  show (m.context.protocol.add r.header).routine? _ = some r'
  by_cases same : r.header.name = mark.act.routine.name
  · rw [Protocol.add, Protocol.add?, same, found]
    exact found
  · rw [routine?_add_of_ne _ same]
    exact found

/-- The name of the marked routine, where it is one of a function called from here. -/
theorem Beyond.name_ne (marked : Marked p o mark left property) (beyond : Beyond p o mark m')
    (member : f ∈ p.functions) (nested : f.name ∈ mark.act.callers) : ¬ BegunBy f mark.act.routine.name := by
  have other : f.name ≠ mark.act.func.name := fun same => beyond.once (same ▸ nested)
  have plain := marked.plain f member
  have plain' := marked.plain _ beyond.known.mem
  rintro (own | ⟨key, label⟩)
  · cases beyond.owner with
    | whole name => exact other (own.symm.trans name)
    | merge _ name => exact visitLabel_ne_plain plain _ _ (name.symm.trans own)
    | root outermost _ => simp [outermost] at nested
  · cases beyond.owner with
    | whole name => exact visitLabel_ne_plain plain' _ _ (label.symm.trans name)
    | merge _ name => exact other (visitLabel_func plain plain' (label.symm.trans name)).1
    | root outermost _ => simp [outermost] at nested

theorem mem_of_nested {cs ds : List String} (nested : cs ++ [name] <+: ds) : name ∈ ds :=
  nested.subset (mem_append_right _ (mem_singleton.2 rfl))

section

variable (marked : Marked p o mark left property)
include marked

section

variable (beyond : Beyond p o mark m') (inner : Inner mark m) (known : Interpretable p m.act.func)
include beyond inner known

/-- Whatever was begun and finished in between, it does not have the name of the function itself. -/
theorem Inner.ne_whole : m.act.func.name ≠ mark.act.routine.name := by
  intro same
  cases inner with
  | merge _ _ _ _ name => exact visitLabel_ne _ _ (name.symm.trans same.symm)
  | call nested _ => exact beyond.name_ne marked known.mem (mem_of_nested nested) (.inl same.symm)

/-- Nor that of a merge point with a label. -/
theorem Inner.ne_merge
    (labelled : (m.act.labels.get? key).isSome) : visitLabel m.act.func key ≠ mark.act.routine.name := by
  intro same
  cases inner with
  | merge _ _ _ unknown name =>
    obtain rfl := visitLabel_inj (name.symm.trans same.symm)
    simp [unknown] at labelled
  | call nested _ => exact beyond.name_ne marked known.mem (mem_of_nested nested) (.inr ⟨key, same.symm⟩)

end

/-- The routine under construction does not have a label that is not given yet. -/
theorem Owner.ne_merge (owner : Owner o a) (unknown : a.labels.get? key = none) :
    visitLabel a.func key ≠ a.routine.name := by
  intro same
  cases owner with
  | whole name => exact visitLabel_ne _ _ (same.trans name)
  | merge known name =>
    obtain rfl := visitLabel_inj (same.trans name)
    simp [unknown] at known
  | root _ name => exact visitLabel_ne_plain marked.entry _ _ (same.trans name)

/-- An activation that comes later does not give the label of the marked routine. -/
theorem Guarded.ne_merge (guarded : Guarded p o mark left m)
    (tidy : Tidy p m) (past : m.budget < left) (reached : property m.budget point (m.withBudget 0))
    (unknown : m.act.labels.get? key = none) : visitLabel m.act.func key ≠ mark.act.routine.name := by
  intro same
  have beyond := guarded.beyond past
  have plain := marked.plain _ tidy.known.mem
  have plain' := marked.plain _ beyond.known.mem
  rcases marked.last _ point _ past reached (.inr ⟨key, same.symm⟩) with twin | ⟨entry, -, -⟩
  · cases beyond.owner with
    | whole name => exact visitLabel_ne_plain plain' _ _ (same.trans name)
    | merge known name =>
      obtain ⟨-, rfl⟩ := visitLabel_func plain plain' (same.trans name)
      simpa [unknown] using guarded.labels past twin _ known
    | root _ name => exact visitLabel_ne_plain marked.entry _ _ (same.trans name)
  · exact visitLabel_ne_plain marked.entry _ _ (same.trans entry)

end

/-! ### Merge points -/

theorem Guarded.openMerge (guarded : Guarded p o mark left m) (paid : Guarded p o mark left (m.withBudget n))
    (dst : Nat) : Guarded p o mark left ((m.withBudget n).openMerge dst) where
  owner := .merge (label_openMerge m n dst) (mergeLabel_eq m.act dst)
  once := guarded.once
  queued := guarded.queued
  beyond past := { paid.beyond past with }
  labels past twin key known := labels_openMerge m n dst key (paid.labels past twin key known)

/-- The routine that called the merge point goes on. -/
theorem Guarded.closeMerge (guarded : Guarded p o mark left m) (guarded₁ : Guarded p o mark left m₁)
    (flow : Flow mark left s ((m.withBudget n).openMerge dst) m₁) :
    Guarded p o mark left ((m.withBudget n).closeMerge m₁ dst) := by
  have owner : Owner o ((m.withBudget n).closeMerge m₁ dst).act :=
    guarded.owner.later { flow.toAbides with name := rfl } fun key known => flow.labels key (labels_openMerge m n dst key known)
  exact { guarded₁ with owner := owner, beyond := fun past => { guarded₁.beyond past with } }

theorem Flow.merge (marked : Marked p o mark left property) (tidy : Tidy p m) (guarded : Guarded p o mark left m)
    {src : Nat} (pays : m.budget = n + 1) (reached : property (n + 1) (.edge src dst) (m.withBudget 0))
    (unknown : m.act.labels.get? (m.act.key dst) = none) (same : Same ((m.withBudget n).openMerge dst) m₁)
    (guarded₁ : Guarded p o mark left m₁) (flow : Flow mark left s ((m.withBudget n).openMerge dst) m₁) :
    Flow mark left s (m.withBudget n) ((m.withBudget n).closeMerge m₁ dst) := by
  have name : m₁.act.routine.name = visitLabel m.act.func (m.act.key dst) := flow.name
  have complete : m₁.act.routine.waiting = [] := same.waiting
  refine
    { flow.toAbides with
      name := rfl, counts := flow.counts, budget := flow.budget, labels := fun key known => flow.labels key (labels_openMerge m n dst key known),
      tally := ?_, across := fun before beyond => ?_, after := fun beyond finished => ?_ }
  · exact Nat.le_trans (Nat.le_add_right _ _) (Nat.le_of_eq (Routine.count_addStatement s m.act.routine _).symm)
  · rcases flow.across before beyond with ⟨current, tally⟩ | ⟨inner, finished⟩
    · have begun : mark.act.routine.name = visitLabel m.act.func (m.act.key dst) := current.name
      refine .inr ⟨.merge current.func current.seq current.callers unknown begun, ?_⟩
      exact finished_closeRoutine (name.trans begun.symm) complete tally
    · refine .inr ⟨inner.back rfl rfl rfl (fun _ => Nat.le_refl _) (labels_openMerge m n dst), ?_⟩
      have other := inner.ne_merge marked (guarded₁.beyond beyond) tidy.known (label_openMerge m n dst)
      exact finished.closeRoutine (name ▸ other)
  · have other : visitLabel m.act.func (m.act.key dst) ≠ mark.act.routine.name := by
      by_cases now : left = n + 1
      · subst now
        obtain rfl := marked.here _ _ reached
        exact guarded.owner.ne_merge marked unknown
      · have beyond : n < left := beyond
        exact guarded.ne_merge marked tidy (by omega) (pays ▸ reached) unknown
    have opened : Finished mark s ((m.withBudget n).openMerge dst) :=
      Finished.openRoutine (m := (m.withBudget n).addLabel dst) finished _ _
    exact (flow.after beyond opened).closeRoutine (name ▸ other)

/-! ### Functions -/

variable (o mark left) in
/-- Nothing of the activation is interpreted yet, and it would begin the marked routine again. -/
def Doomed (m : Machine) : Prop :=
  m.budget < left ∧ m.act.visited = [] ∧ BegunBy m.act.func mark.act.routine.name ∧ ¬ Continues o mark m

theorem Guarded.openFunction (queued : Awaited m) (whole : a.routine.name = a.func.name)
    (once : a.func.name ∉ a.callers) (beyond : m.budget < left → Beyond p o mark m ∧ Apart mark.act a) :
    Guarded p o mark left (m.openFunction a) where
  owner := .whole whole
  once := once
  queued := queued
  beyond past := { (beyond past).1 with }
  labels past twin := absurd (beyond past).2 twin

section Whole

variable (marked : Marked p o mark left property) (known : Interpretable p m.act.func)
  (whole : m.act.routine.name = m.act.func.name) (flow : Flow mark left s m m₁)
include marked known whole flow

/-- The routine of a function is finished, and the marked moment lies in it. -/
theorem Flow.finishes (complete : m.act.routine.waiting = []) (same : Same m m₁)
    (guarded₁ : Guarded p o mark left m₁) (before : left ≤ m.budget) (past : m₁.budget < left) :
    (Abides m.act mark.act ∨ Inner mark m) ∧ Finished mark s m₁.closeRoutine := by
  rcases flow.across before past with ⟨current, tally⟩ | ⟨inner, finished⟩
  · exact ⟨.inl current, finished_closeRoutine (flow.name.trans current.name.symm)
      (same.waiting.trans complete) tally⟩
  · have other := inner.ne_whole marked (guarded₁.beyond past) known
    exact ⟨.inr inner, finished.closeRoutine (by rw [flow.name, whole]; exact other)⟩

omit marked known in
/-- The routine of a function is finished, and is none that could take the place of the marked one. -/
theorem Flow.spares (visited : m.act.visited = []) (spared : ¬ Doomed o mark left m) (other : ¬ Continues o mark m)
    (past : m.budget < left) (finished : Finished mark s m) : Finished mark s m₁.closeRoutine := by
  refine (flow.after past finished).closeRoutine fun same => spared ⟨past, visited, .inl ?_, other⟩
  rw [← same, flow.name, whole]

end Whole

/-- An activation that is not called from another one ends, before the marked moment or after it. -/
theorem Flow.ended (marked : Marked p o mark left property) (known : Interpretable p a.func)
    (whole : a.routine.name = a.func.name) (complete : a.routine.waiting = []) (visited : a.visited = [])
    (same : Same (m.openFunction a) m₁) (guarded₁ : Guarded p o mark left m₁)
    (flow : Flow mark left s (m.openFunction a) m₁) (spared : ¬ Doomed o mark left (m.openFunction a))
    (finished : m.budget < left → Finished mark s m ∧ ¬ Continues o mark (m.openFunction a))
    (past : m₁.budget < left) : Finished mark s m₁.closeRoutine := by
  by_cases before : left ≤ m.budget
  · exact (Flow.finishes (m := m.openFunction a) marked known whole flow complete same guarded₁ before past).2
  · obtain ⟨finished, other⟩ := finished (Nat.lt_of_not_le before)
    have opened : Finished mark s (m.openFunction a) :=
      Finished.openRoutine (m := { m with act := a }) finished _ _
    exact Flow.spares (m := m.openFunction a) whole flow visited spared other (Nat.lt_of_not_le before) opened

/-- Activations that are begun between two machines have new numbers. -/
theorem fresh_of_inner (inside : Abides m'.act mark.act ∨ Inner mark m')
    (numbered : m.context.count m'.act.func.name ≤ m'.act.seq)
    (counts : ∀ f, m.context.count f ≤ m'.context.count f) :
    m.context.count mark.act.func.name ≤ mark.act.seq := by
  rcases inside with current | inner
  · rw [current.func, current.seq]
    exact numbered
  · cases inner with
    | merge func seq _ _ _ =>
      rw [func, seq]
      exact numbered
    | call _ fresh => exact Nat.le_trans (counts _) fresh

theorem apart_of_fresh (fresh : m.context.count a.func.name ≤ a.seq)
    (taken : b.seq < m.context.count b.func.name) : Apart a b := by
  intro same number
  rw [same] at fresh
  omega

/-! ### Calls -/

/-- An activation is prepared in `m`, and is handed its channels in `m'`. -/
structure Prepared (p : Program) (m m' : Machine) (n : Nat) (f : Function) (a : Activation) : Prop where
  tidy : Tidy p m
  quiet : Quiet m m'
  before : m.budget = n + 1
  after : m'.budget = n + 1
  known : Interpretable p f
  new : Newcomer m.act f a
  numbered : Numbered m m' a

section Call

variable {n : Nat} {f : Function} {a : Activation} {channels : List Parameter} (prepared : Prepared p m m' n f a)
include prepared

theorem Prepared.whole : a.routine.name = a.func.name :=
  prepared.new.name.trans (congrArg (·.name) prepared.new.func.symm)

theorem Prepared.called : a.callers ≠ [] := by
  rw [prepared.new.callers]
  exact append_ne_nil_of_right_ne_nil _ (cons_ne_nil _ _)

theorem Prepared.once (fresh : m.act.reenters f.name = false) : a.func.name ∉ a.callers := by
  rw [prepared.new.func, prepared.new.callers, ← reenters_iff, fresh]
  exact Bool.false_ne_true

variable (marked : Marked p o mark left property) (guarded : Guarded p o mark left m)
  (reached : property (n + 1) (.handOver f.name channels) (m'.withBudget 0))
include marked guarded reached

/-- The marked moment is not one of an activation that is only prepared. -/
theorem Prepared.apart (past : n < left) : Apart mark.act a := by
  have fresh := prepared.numbered.fresh
  by_cases now : left = n + 1
  · subst now
    obtain rfl := marked.here _ _ reached
    have taken := prepared.tidy.numbered
    rw [← prepared.quiet.func, ← prepared.quiet.seq] at taken
    exact fun same number => apart_of_fresh fresh taken same.symm number.symm
  · have before := prepared.before
    have beyond := guarded.beyond (by omega)
    exact fun same number => apart_of_fresh fresh beyond.taken same.symm number.symm

theorem Prepared.paid : Guarded p o mark left (m'.withBudget n) ∧ Flow mark left s m (m'.withBudget n) := by
  have small : Small m m' := prepared.quiet.small (prepared.after.trans prepared.before.symm)
  obtain ⟨paid, spent⟩ :=
    (guarded.small small prepared.quiet.tasks).pay (s := s) marked
      (prepared.quiet.tidy prepared.tidy) prepared.after reached
  exact ⟨paid, (small.flow prepared.quiet.tally).trans spent⟩

theorem Prepared.openFunction (fresh : m.act.reenters f.name = false) :
    Guarded p o mark left ((m'.withBudget n).openFunction a) := by
  obtain ⟨paid, -⟩ := prepared.paid (s := .tau) marked guarded reached
  exact .openFunction paid.queued prepared.whole (prepared.once fresh) fun past =>
    ⟨paid.beyond past, prepared.apart marked guarded reached past⟩

variable (same : Same ((m'.withBudget n).openFunction a) m₁) (guarded₁ : Guarded p o mark left m₁)
  (flow : Flow mark left s ((m'.withBudget n).openFunction a) m₁)
include same guarded₁ flow

omit guarded reached in
/-- The marked moment lies in a function called from here. -/
theorem Prepared.nested (before : left ≤ n) (past : m₁.budget < left) :
    m.act.callers ++ [m.act.func.name] <+: mark.act.callers ∧ m.context.count mark.act.func.name ≤ mark.act.seq ∧
      Finished mark s m₁.closeRoutine := by
  have known : Interpretable p a.func := prepared.new.func ▸ prepared.known
  obtain ⟨inside, finished⟩ :=
    flow.finishes marked known prepared.whole prepared.new.unbegun.waiting same guarded₁ before past
  refine ⟨?_, fresh_of_inner inside prepared.numbered.fresh prepared.quiet.counts, finished⟩
  rw [← prepared.new.callers]
  rcases inside with current | inner
  · exact current.callers ▸ prefix_rfl
  · cases inner with
    | merge _ _ callers _ _ => exact callers ▸ prefix_rfl
    | call nested _ => exact (prefix_append _ _).trans nested

theorem Prepared.closeFunction (args : List String) : Guarded p o mark left (m'.closeFunction m₁ args) := by
  obtain ⟨paid, -⟩ := prepared.paid (s := s) marked guarded reached
  have owner : Owner o (m'.closeFunction m₁ args).act := paid.owner.later {} fun _ => id
  refine ⟨owner, paid.once, guarded₁.queued, fun past => { guarded₁.beyond past with }, fun past twin => ?_⟩
  by_cases before : n < left
  · exact paid.labels before twin
  · -- An activation called from here is not the one that called it.
    obtain ⟨-, fresh, -⟩ := prepared.nested marked same guarded₁ flow (Nat.le_of_not_lt before) past
    have taken := prepared.tidy.numbered
    rw [← prepared.quiet.func, ← prepared.quiet.seq] at taken
    exact absurd (apart_of_fresh fresh taken) twin

theorem Prepared.returns (spared : ¬ Doomed o mark left ((m'.withBudget n).openFunction a)) (args : List String) :
    Flow mark left s m (m'.closeFunction m₁ args) := by
  have quiet := prepared.quiet
  have later : m₁.budget ≤ n := flow.budget
  have written : m'.act.routine.operations.count s ≤ (m'.closeFunction m₁ args).act.routine.operations.count s :=
    Nat.le_trans (Nat.le_add_right _ _) (Nat.le_of_eq (Routine.count_addStatement s m'.act.routine _).symm)
  refine
    { quiet.same.toAbides with
      counts := fun f => Nat.le_trans (quiet.counts f) (flow.counts f),
      budget := by rw [prepared.before]; exact Nat.le_succ_of_le later,
      labels := fun _ => quiet.labels ▸ id, tally := Nat.le_trans quiet.tally written,
      across := fun before past => ?_, after := fun past finished => ?_ }
  · by_cases now : left = n + 1
    · subst now
      obtain rfl := marked.here _ _ reached
      exact .inl ⟨quiet.same.toAbides, written⟩
    · have start := prepared.before
      obtain ⟨nested, fresh, finished⟩ := prepared.nested marked same guarded₁ flow (by omega) past
      exact .inr ⟨.call nested fresh, finished⟩
  · have past : n < left := by
      have start := prepared.before
      omega
    have finished : Finished mark s m' := by
      obtain ⟨r, found, enough⟩ := finished
      exact ⟨r, quiet.protocol ▸ found, enough⟩
    have opened : Finished mark s ((m'.withBudget n).openFunction a) :=
      Finished.openRoutine (m := { m'.withBudget n with act := a }) finished _ _
    refine flow.spares prepared.whole prepared.new.unbegun.visited spared ?_ past opened
    rintro (twin | ⟨-, -, outermost⟩)
    · exact twin (prepared.apart marked guarded reached past)
    · exact prepared.called outermost

end Call

theorem Guarded.enqueue (guarded : Guarded p o mark left m) {queue : TaskQueue} (called : a.callers ≠ [])
    (once : a.func.name ∉ a.callers) (apart : m.budget < left → Apart mark.act a)
    (queued : m.tasks.enqueue? a = some queue) : Guarded p o mark left { m with tasks := queue } := by
  obtain ⟨-, rfl⟩ := TaskQueue.enqueue?_eq_some queued
  refine { guarded with queued := fun b member => ?_, beyond := fun past => ?_ }
  · rcases mem_append.1 member with old | one
    · exact guarded.queued b old
    · exact mem_singleton.1 one ▸ ⟨called, once⟩
  · have beyond := guarded.beyond past
    refine { beyond with waiting := fun b member => ?_ }
    rcases mem_append.1 member with old | one
    · exact beyond.waiting b old
    · exact mem_singleton.1 one ▸ apart past

/-! ### All steps -/

/-- The entry function has not begun; the initialiser may have built a part of its routine. -/
structure Unopened (o : Options) (m : Machine) : Prop where
  func : m.act.func.name = o.entry
  callers : m.act.callers = []
  name : m.act.routine.name = o.entry
  complete : m.act.routine.waiting = []
  visited : m.act.visited = []
  queued : Awaited m

theorem Unopened.whole (unopened : Unopened o m) : m.act.routine.name = m.act.func.name :=
  unopened.name.trans unopened.func.symm

variable (p o mark left s) in
def retaining : Conduct where
  holds := Guarded p o mark left
  keeps m m' := Flow mark left s m m' ∧ Selects m.act.routine.stmts m'.act.routine.stmts
  stopped _ _ := True
  during m₀ _ block rest m := Guarded p o mark left m ∧ Flow mark left s m₀ m ∧
    Selects m₀.act.routine.stmts m.act.routine.stmts ∧ (Doomed o mark left m₀ → rest = block.instrs)
  walks m _ := ¬ Doomed o mark left m
  fills m slot case := ∃ cases, m.act.routine.stmts[slot]? = some (.select cases) ∧ case < cases.length
  ready m := Unopened o m ∧ (m.budget < left → Beyond p o mark m ∧ Apart mark.act m.act ∧
    (mark.act.routine.name = o.entry ∧ mark.act.routine.operations.count s ≤ m.act.routine.operations.count s ∨
      Finished mark s m ∧ (mark.act.routine.name = o.entry → mark.act.callers ≠ [])))
  fresh m := Unopened o m ∧ left ≤ m.budget
  idle m := Awaited m ∧ (m.budget < left → Beyond p o mark m ∧ Finished mark s m)

theorem Guarded.stay (guarded : Guarded p o mark left m) (small : Small m m')
    (tally : m.act.routine.operations.count s ≤ m'.act.routine.operations.count s)
    (selects : Selects m.act.routine.stmts m'.act.routine.stmts) (tasks : m'.tasks = m.tasks := by rfl) :
    (retaining p o mark left s).Moves m m' :=
  ⟨guarded.small small tasks, small.flow tally, selects⟩

theorem Guarded.addStatement (guarded : Guarded p o mark left m) (t : Statement) :
    (retaining p o mark left s).Moves m (m.addStatement t) := by
  refine guarded.stay {} ?_ (selects_append _ _)
  exact Nat.le_trans (Nat.le_add_right _ _) (Nat.le_of_eq (Routine.count_addStatement s m.act.routine t).symm)

theorem tally_setAside (m : Machine) : m.act.routine.operations.count s ≤ m.setAside.act.routine.operations.count s :=
  Nat.le_of_eq (Routine.count_setAside s m.act.routine).symm

section

variable (first : Same m.setAside m₁) (flow : Flow mark left s m.setAside m₁)
include first flow

theorem Flow.join {m₂ : Machine} (second : Same (m₁.setAside.resetLoops m.act.loops) m₂)
    (flow' : Flow mark left s (m₁.setAside.resetLoops m.act.loops) m₂) :
    Flow mark left s m (m.joinSides m₁ m₂) := by
  have stack : m₂.act.routine.waiting = m₁.act.routine.stmts :: m.act.routine.stmts :: m.act.routine.waiting := by
    rw [second.waiting]
    exact congrArg (m₁.act.routine.stmts :: ·) first.waiting
  have one : Flow mark left s m m.setAside := Small.flow {} (tally_setAside m)
  have two : Flow mark left s m₁ (m₁.setAside.resetLoops m.act.loops) := Small.flow {} (tally_setAside m₁)
  have three : Flow mark left s m₂ (m.joinSides m₁ m₂) :=
    Small.flow {} (Nat.le_of_eq (Routine.count_addBranch s stack).symm)
  exact (((one.trans flow).trans two).trans flow').trans three

theorem Flow.case {slot case : Nat} {r : Routine}
    {cases : List (List Statement)} (select : m.act.routine.stmts[slot]? = some (.select cases))
    (bounded : case < cases.length) (extended : (m.backTo m₁).extendCaseOf slot case m₁.act.routine.stmts = .ok r) :
    Flow mark left s m (m₁.setRoutine r) := by
  have stack : m₁.act.routine.waiting = m.act.routine.stmts :: m.act.routine.waiting := first.waiting
  have counted := Routine.count_extendCaseOf s stack select bounded extended
  have one : Flow mark left s m m.setAside := Small.flow {} (tally_setAside m)
  have two : Flow mark left s m₁ (m₁.setRoutine r) := by
    obtain ⟨cases', -, rfl⟩ := Routine.extendCaseOf_eq extended
    exact Small.flow {} (Nat.le_of_eq counted.symm)
  exact (one.trans flow).trans two

end

theorem Continues.of_flow (continues : Continues o mark m') (flow : Flow mark left s m m') : Continues o mark m := by
  refine continues.imp (fun twin apart => twin ?_)
    fun ⟨name, outermost, callers⟩ => ⟨name, outermost, flow.callers ▸ callers⟩
  rw [Apart, flow.func, flow.seq]
  exact apart

theorem lawful_retaining (marked : Marked p o mark left property) :
    (retaining p o mark left s).Lawful ⟨p, o⟩ property where
  refl _ := ⟨Small.flow {} (Nat.le_refl _), .refl _⟩
  trans one two := ⟨one.keeps.1.trans two.keeps.1, one.keeps.2.trans two.keeps.2⟩
  quiet here quiet budget := here.holds.stay (quiet.small budget) quiet.tally quiet.selects quiet.tasks
  turn here _ _ := here.holds.stay {} (Nat.le_refl _) (.refl _)
  defer _ here := here.holds.stay {} (Nat.le_refl _) (.refl _)
  straight here pays reached _ _ := by
    obtain ⟨paid, spent⟩ := here.holds.pay marked here.tidy pays reached
    exact ⟨paid, spent, .refl _⟩
  again here pays reached _ _ _ _ := by
    obtain ⟨paid, spent⟩ := here.holds.pay (s := s) marked here.tidy pays reached
    obtain ⟨holds, flow, selects⟩ := paid.addStatement (s := s) (.call _ _)
    exact ⟨holds, spent.trans flow, selects⟩
  merge here pays reached _ _ _ unknown := by
    obtain ⟨paid, spent⟩ := here.holds.pay (s := s) marked here.tidy pays reached
    refine ⟨here.holds.openMerge paid _, fun m₁ walked =>
      ⟨here.holds.closeMerge walked.holds walked.keeps.1, ?_, ?_⟩⟩
    · exact spent.trans (.merge marked here.tidy here.holds pays reached unknown walked.same
        walked.holds walked.keeps.1)
    · exact selects_append _ _
  aside here := here.holds.small {}
  between _ first := first.holds.small {}
  join _ first second :=
    ⟨second.holds.small {}, .join first.same first.keeps.1 second.same second.keeps.1, selects_append _ _⟩
  test {m m₀ arrival i cond onTrue onFalse site case} _ reached action settled found atHand := by
    obtain ⟨l, -, ⟨log, rfl⟩, -⟩ := settled
    obtain ⟨here, select⟩ := atHand
    obtain ⟨cases, select⟩ := Routine.isSelectAt_iff.1 select
    have tests : condition? i = some cond := by
      rw [condition?, action]
    obtain ⟨bounded, default⟩ :=
      marked.tested _ _ _ _ reached cond tests (site, case) found here cases (Routine.casesAt?_eq_some.2 select)
    refine ⟨⟨cases, select, bounded⟩, fun m₁ stays last blocks => ?_⟩
    obtain ⟨cases', select', length⟩ := stays.keeps.2 _ _ select
    exact ⟨cases', select', length ▸ default last blocks⟩
  case {m m₁ slot case r} here fills first extended := by
    obtain ⟨cases, select, bounded⟩ := fills
    have selects := selects_extendCaseOf extended
    refine ⟨?_, .case first.same first.keeps.1 select bounded extended, selects⟩
    obtain ⟨cases', -, rfl⟩ := Routine.extendCaseOf_eq extended
    exact first.holds.small {}
  reset _ stays := ⟨stays.holds.small {}, stays.keeps.1.trans (Small.flow {} (Nat.le_refl _)), stays.keeps.2⟩
  call here quiet after before known fresh new numbered reached := by
    have prepared : Prepared p _ _ _ _ _ := ⟨here.tidy, quiet, before, after, known, new, numbered⟩
    refine ⟨prepared.openFunction marked here.holds reached fresh, fun m₁ walked => ⟨?_, ?_, ?_⟩⟩
    · exact prepared.closeFunction marked here.holds reached walked.same walked.holds walked.keeps.1 _
    · exact prepared.returns marked here.holds reached walked.same walked.holds walked.keeps.1 walked.walks _
    · exact quiet.selects.trans (selects_append _ _)
  spawn {m m' n f a} here quiet after before known new numbered reached := by
    have prepared : Prepared p m m' n f a := ⟨here.tidy, quiet, before, after, known, new, numbered⟩
    obtain ⟨paid, spent⟩ := prepared.paid (s := s) marked here.holds reached
    obtain ⟨holds, flow, selects⟩ := paid.addStatement (s := s) (.spawn f.name (a.routine.params.map (·.caller)))
    have selects := quiet.selects.trans selects
    refine ⟨fun _ => ⟨holds, spent.trans flow, selects⟩, fun queue fresh queued => ⟨?_, ?_, selects⟩⟩
    · exact holds.enqueue prepared.called (prepared.once fresh) (prepared.apart marked here.holds reached)
        (quiet.tasks ▸ queued)
    · exact (spent.trans flow).trans (Small.flow {} (Nat.le_refl _))
  revisit {m arrival block} here _ seen := by
    refine ⟨here.holds.stay {} (Nat.le_refl _) (.refl _), fun doomed => ?_⟩
    have seen : m.act.visited.contains _ = true := seen
    simp [doomed.2.1] at seen
  visit here _ _ _ := ⟨here.holds.small {}, Small.flow {} (Nat.le_refl _), .refl _, fun _ => rfl⟩
  instr {m₀ m arrival block i rest} during _ tidy _ _ := by
    obtain ⟨holds, flow, selects, doomed⟩ := during
    refine ⟨fun _ => trivial, fun n pays reached => ?_⟩
    have emitted : Flow mark left s m (m.emit (.instrVisited i)) := Small.flow {} (Nat.le_refl _)
    have tidy' : Tidy p (m.emit (.instrVisited i)) := { tidy with }
    have holds' : Guarded p o mark left (m.emit (.instrVisited i)) := holds.small {}
    obtain ⟨paid, spent⟩ := holds'.pay (s := s) marked tidy' pays reached
    have whole := (flow.trans emitted).trans spent
    refine ⟨paid, fun m' stays => ⟨stays.holds, whole.trans stays.keeps.1, selects.trans stays.keeps.2,
      fun is => ?_⟩⟩
    -- The state is one of an activation that begins the marked routine again, and there is none.
    obtain ⟨past, -, begins, other⟩ := is
    have budget : n + 1 ≤ m₀.budget := pays ▸ flow.budget
    have continues := marked.last (n + 1) _ _ (by omega) reached (flow.func ▸ begins)
    have continues : Continues o mark m := continues
    exact absurd (continues.of_flow flow) other
  ends {m₀ m arrival block} during _ tidy found := by
    obtain ⟨holds, flow, selects, doomed⟩ := during
    refine ⟨⟨holds, flow, selects⟩, fun is => ?_⟩
    -- There is a terminator, so the walk through the block has come to an instruction.
    obtain ⟨term, ends, -⟩ := (marked.linked _ tidy.known.mem).terminator found
    simp [BlockDraft.terminator?, ← doomed is] at ends
  skip fresh := ⟨fresh.1, fun past => absurd past (Nat.not_lt.2 fresh.2)⟩
  init {m m' f seq} tidy fresh found quiet budget numbered := by
    obtain ⟨unopened, before⟩ := fresh
    have never {n : Nat} (past : n < left) (same : n = m.budget) : False := by omega
    have begun : Guarded p o mark left { m' with act := Activation.start f seq [] m.act.func.name } :=
      { owner := .root rfl unopened.func
        once := not_mem_nil
        queued := show ∀ a ∈ m'.tasks.waiting, _ from quiet.tasks ▸ unopened.queued
        beyond := fun past => (never past budget).elim
        labels := fun past => (never past budget).elim }
    refine ⟨begun, fun m₁ walked => ⟨?_, fun past => ⟨{ walked.holds.beyond past with }, ?_⟩⟩⟩
    · exact ⟨(congrArg (·.name) quiet.func).trans unopened.func, quiet.callers.trans unopened.callers,
        walked.same.name.trans unopened.func, walked.same.waiting,
        quiet.visited.trans unopened.visited, walked.holds.queued⟩
    have captured := walked.keeps.1.across (Nat.le_trans before (Nat.le_of_eq budget.symm)) past
    have fresh := fresh_of_inner (captured.imp And.left And.left) numbered.fresh quiet.counts
    have taken := (quiet.tidy tidy).numbered
    refine ⟨apart_of_fresh fresh ?_, ?_⟩
    · show m'.act.seq < m.context.count m'.act.func.name
      rw [quiet.func, quiet.seq]
      exact tidy.numbered
    rcases captured with ⟨current, tally⟩ | ⟨inner, finished⟩
    · exact .inl ⟨current.name.trans unopened.func, tally⟩
    · refine .inr ⟨finished, fun name => ?_⟩
      cases inner with
      | merge _ _ _ _ label => exact absurd (label.symm.trans name) (visitLabel_ne_plain marked.entry _ _)
      | call nested _ => exact ne_nil_of_mem (mem_of_nested nested)
  entry {m} tidy ready := by
    obtain ⟨unopened, past⟩ := ready
    have once : m.act.func.name ∉ m.act.callers := unopened.callers ▸ not_mem_nil
    refine ⟨.openFunction unopened.queued unopened.whole once
      fun beyond => ⟨(past beyond).1, (past beyond).2.1⟩, fun m₁ walked => ?_⟩
    refine ⟨walked.holds.queued, fun beyond => ⟨{ walked.holds.beyond beyond with }, ?_⟩⟩
    have flow := walked.keeps.1
    by_cases begun : m.budget < left ∧ mark.act.routine.name = o.entry ∧
        mark.act.routine.operations.count s ≤ m.act.routine.operations.count s
    · -- The initialiser has built a part of the routine, and the entry function goes on with it.
      obtain ⟨-, name, tally⟩ := begun
      have name : m₁.act.routine.name = mark.act.routine.name := flow.name.trans (unopened.name.trans name.symm)
      exact finished_closeRoutine name (walked.same.waiting.trans unopened.complete) (Nat.le_trans tally flow.tally)
    · refine flow.ended marked tidy.known unopened.whole unopened.complete unopened.visited walked.same walked.holds
        walked.walks (fun before => ?_) beyond
      obtain ⟨-, apart, begun' | ⟨finished, called⟩⟩ := past before
      · exact absurd ⟨before, begun'⟩ begun
      · refine ⟨finished, ?_⟩
        rintro (twin | ⟨name, outermost, -⟩)
        · exact twin apart
        · exact called name outermost
  task {m a rest} tidy idle waits := by
    obtain ⟨queued, past⟩ := idle
    have first : a ∈ m.tasks.waiting := waits ▸ mem_cons_self
    have others {b : Activation} (member : b ∈ rest) : b ∈ m.tasks.waiting := waits ▸ mem_cons_of_mem a member
    obtain ⟨unbegun, known⟩ := tidy.unbegun a first
    obtain ⟨called, once⟩ := queued a first
    refine ⟨.openFunction (fun b member => queued b (others member)) unbegun.name once fun beyond => ?_,
      fun m₁ walked => ?_⟩
    · have beyond := (past beyond).1
      exact ⟨{ beyond with waiting := fun b member => beyond.waiting b (others member) }, beyond.waiting a first⟩
    refine ⟨walked.holds.queued, fun beyond => ⟨{ walked.holds.beyond beyond with }, ?_⟩⟩
    refine Flow.ended marked known unbegun.name unbegun.waiting unbegun.visited walked.same walked.holds walked.keeps.1
      walked.walks (fun before => ?_) beyond
    obtain ⟨beyond, finished⟩ := past before
    refine ⟨finished, ?_⟩
    rintro (twin | ⟨-, -, outermost⟩)
    · exact twin (beyond.waiting a first)
    · exact called outermost

end Marked

/-! ### Runs from the start -/

/-- No other activation begins the routine of a state after it. -/
def LastToBegin (p : Program) (o : Options) (n : Nat) (m : Machine) : Prop :=
  ∀ n' point m', n < n' → StopsAt p o n' point m' → BegunBy m'.act.func m.act.routine.name → Continues o m m'

theorem marked_of_stops {budget : Nat} {mark : Machine} (linked : ∀ f ∈ p.functions, f.Linked)
    (plain : ∀ f ∈ p.functions, '#' ∉ f.name.toList) (found : Enters p o.entry entry)
    (tested : ∀ n arrival i m, StopsAt p o n (.instr arrival i) m → Tested m i)
    (stops : analyse ⟨p, o⟩ (Machine.start p entry n) = .error (.stopped point) mark) (before : n < budget)
    (last : LastToBegin p o n mark) : Marked p o mark (budget - n) (History p o entry budget) where
  linked := linked
  plain := plain
  entry := by
    obtain ⟨known, -⟩ := Option.filter_eq_some_iff.1 found
    rw [← Program.function?_name known]
    exact plain entry (mem_of_find?_eq_some known)
  here point' m reached := by
    obtain ⟨-, again⟩ := reached
    rw [Nat.sub_sub_self (Nat.le_of_lt before), stops] at again
    exact (EStateM.Result.error.inj again).2.symm
  last left point' m less reached := last (budget - left) point' m (by omega) ⟨entry, found, reached.2⟩
  tested left arrival i m reached := tested _ _ _ _ ⟨entry, found, reached.2⟩

theorem Unopened.start (found : Enters p o.entry entry) (budget : Nat) :
    Unopened o (Machine.start p entry budget) := by
  obtain ⟨known, -⟩ := Option.filter_eq_some_iff.1 found
  have name : entry.name = o.entry := Program.function?_name known
  exact ⟨name, rfl, name, rfl, rfl, fun _ waits => nomatch waits⟩

/-- The operations that a run has written into a routine, in whatever branch or case, are in the routine of that
name that it returns, as often as they were written: if the run begins the routine not again in another activation
after that, and the cases that are tested for are those that the selects have. -/
theorem operations_kept {p : Program} {o : Options} {budget : Nat} {protocol : Protocol}
    (linked : ∀ f ∈ p.functions, f.Linked) (plain : ∀ f ∈ p.functions, '#' ∉ f.name.toList)
    (all : o.cleanUp = false) (inferred : (infer budget p o).result = .ok protocol)
    (tested : ∀ n arrival i m, StopsAt p o n (.instr arrival i) m → Tested m i)
    {n : Nat} {point : Point} {m : Machine} (stops : StopsAt p o n point m) (last : LastToBegin p o n m) :
    ∃ r, protocol.routine? m.act.routine.name = some r ∧
      ∀ s, m.act.routine.operations.count s ≤ (operationsOfAll r.stmts).count s := by
  obtain ⟨entry, found, stops⟩ := stops
  obtain ⟨entry', m', found', ends⟩ := exists_of_inferred inferred
  obtain rfl := Option.mem_unique found found'
  have before := stops_before ends stops
  have marked := marked_of_stops linked plain found tested stops (by omega : n < budget) last
  have finished (s : Statement) : ∃ r, protocol.routine? m.act.routine.name = some r ∧
      m.act.routine.operations.count s ≤ (operationsOfAll r.stmts).count s := by
    have leads := (lawful_retaining (s := s) marked).leads found ⟨.start found budget, Nat.sub_le _ _⟩
    rw [Leads, ends] at leads
    obtain ⟨m₁, -, idle, -, left, result⟩ := leads
    rw [all] at result
    subst result
    exact (idle.2 (by omega)).2
  -- The routine is the same for every statement, as it is found by its name.
  obtain ⟨r, named, -⟩ := finished .tau
  refine ⟨r, named, fun s => ?_⟩
  obtain ⟨r', named', enough⟩ := finished s
  obtain rfl := Option.mem_unique named named'
  exact enough

/-! ### Select cases and a spawned function -/

/-- Waits for one of two channels, and goes on with it. -/
def serving : Function := .closed "main.main" [
  .of 0 none [] [1, 2] [
    .define "a" .intChan (.makeChan (.int 0)),
    .define "b" .intChan (.makeChan (.int 0)),
    .perform (.go ⟨.static "main.put", [.var "b"]⟩),
    .define "s" (.tuple [.basic "int", .basic "bool"])
        (.select true [.send (.var "a") (.const (.int 1)), .recv (.var "b")]),
    .define "i" .int (.extract (.var "s") 0),
    .define "first" .bool (.binary .eq (.var "i") (.int 0)),
    .perform (.branch (.var "first") 1 2)],
  .of 1 none [0] [] [
    .perform (.call ⟨.builtin "close", [.var "a"]⟩),
    .perform (.ret [])],
  .of 2 none [0] [3, 4] [
    .define "second" .bool (.binary .eq (.var "i") (.int 1)),
    .perform (.branch (.var "second") 3 4)],
  .of 3 none [2] [] [
    .perform (.send (.var "a") (.int 2)),
    .perform (.ret [])],
  .of 4 none [2] [] [.perform (.ret [])]]

def putting : Function where
  name := "main.put"
  params := [⟨"out", .intChan⟩]
  freeVars := []
  results := none
  blocks := [
    .of 0 none [] [] [
      .perform (.send (.var "out") (.int 1)),
      .perform (.ret [])]]

def service : Program := { functions := [serving, putting] }

/-- The state in which the run of the service is stopped after sixteen steps, in the body of a case. -/
def inCase : Machine := after (analyse ⟨service, { cleanUp := false }⟩ (Machine.start service serving 16))

theorem service_ends : ¬ Stops (analyse ⟨service, { cleanUp := false }⟩ (Machine.start service serving 21)) := by
  decide +kernel

theorem service_tested (n : Nat) (arrival : Arrival) (i : Instr) (m : Machine)
    (stops : StopsAt service { cleanUp := false } n (.instr arrival i) m) : Tested m i := by
  have below : ∀ n < 21, (stop? service { cleanUp := false } n).all fun s =>
      (instrAhead? s.1).all fun i => decide (Tested s.2 i) := by decide +kernel
  exact of_decide_eq_true (stops.checked rfl service_ends below)

theorem inCase_last : LastToBegin service { cleanUp := false } 16 inCase := by
  intro n point m later stops begun
  have below : ∀ n < 21, (stop? service { cleanUp := false } n).all fun s =>
      decide (16 < n → s.2.act.func.name.toList <+: inCase.act.routine.name.toList →
        Continues { cleanUp := false } inCase s.2) := by decide +kernel
  exact of_decide_eq_true (stops.checked rfl service_ends below) later begun.isPrefix

/-- Two sends on the same channel are there when the run is stopped, the second in a list that is no part of the
select yet; the spawned function is interpreted later. -/
theorem service_kept :
    ∃ point protocol, StopsAt service { cleanUp := false } 16 point inCase ∧
      (infer 100 service { cleanUp := false }).result = .ok protocol ∧
      inCase.act.routine.operations.count (.send "a") = 2 ∧
      ∃ r, protocol.routine? inCase.act.routine.name = some r ∧
        ∀ s, inCase.act.routine.operations.count s ≤ (operationsOfAll r.stmts).count s := by
  have twice : inCase.act.routine.operations.count (.send "a") = 2 := by decide +kernel
  obtain ⟨point, stopped⟩ : ∃ point, StopsAt service { cleanUp := false } 16 point inCase := by
    refine exists_stopsAt rfl ?_
    decide +kernel
  obtain ⟨protocol, inferred⟩ :=
    ok_of_toBool (by decide +kernel : (infer 100 service { cleanUp := false }).result.toBool)
  have linked : ∀ f ∈ service.functions, f.Linked := by
    intro f member
    obtain rfl | rfl : f = serving ∨ f = putting := by simpa [service] using member
    · exact ⟨serving.draft, rfl⟩
    · exact ⟨putting.draft, rfl⟩
  have plain : ∀ f ∈ service.functions, '#' ∉ f.name.toList := by decide
  have kept := operations_kept linked plain rfl inferred service_tested stopped inCase_last
  exact ⟨point, protocol, stopped, inferred, twice, kept⟩

/-! ### A function that is interpreted twice -/

/-- Hands over one channel after the other by way of a global. -/
def publishing : Function := .closed "main.main" [
  .of 0 none [] [] [
    .define "a" .intChan (.makeChan (.int 0)),
    .define "b" .intChan (.makeChan (.int 0)),
    .perform (.store (.global "main.out") (.var "a")),
    .perform (.call ⟨.static "main.put", []⟩),
    .perform (.store (.global "main.out") (.var "b")),
    .perform (.call ⟨.static "main.put", []⟩),
    .perform (.ret [])]]

def puttingOut : Function := .closed "main.put" [
  .of 0 none [] [] [
    .define "c" .intChan (.deref (.global "main.out")),
    .perform (.send (.var "c") (.int 1)),
    .perform (.ret [])]]

def publication : Program where
  globals := [⟨"main.out", .intChan⟩]
  functions := [publishing, puttingOut]

/-- The state in which the run of the publication is stopped after seven steps, when the first channel was sent to. -/
def published : Machine :=
  after (analyse ⟨publication, { cleanUp := false }⟩ (Machine.start publication publishing 7))

/-- The second interpretation of the function takes the place of the first, and what the first one sent is lost. -/
theorem published_send_lost :
    publishing.Linked ∧ puttingOut.Linked ∧
      ∃ point protocol r, StopsAt publication { cleanUp := false } 7 point published ∧
        (infer 100 publication { cleanUp := false }).result = .ok protocol ∧
        protocol.routine? published.act.routine.name = some r ∧
        .send "a" ∈ published.act.routine.operations ∧ .send "a" ∉ operationsOfAll r.stmts := by
  have sent : .send "a" ∈ published.act.routine.operations := by decide +kernel
  have returned : ((infer 100 publication { cleanUp := false }).result.toOption.bind
      (·.routine? published.act.routine.name)).map (operationsOfAll ·.stmts) = some [.send "b"] := by decide +kernel
  obtain ⟨point, stopped⟩ : ∃ point, StopsAt publication { cleanUp := false } 7 point published := by
    refine exists_stopsAt rfl ?_
    decide +kernel
  cases inferred : (infer 100 publication { cleanUp := false }).result with
  | error halt => simp [inferred, Except.toOption] at returned
  | ok protocol =>
    rw [inferred] at returned
    obtain ⟨r, found, operations⟩ := Option.map_eq_some_iff.1 returned
    refine ⟨⟨publishing.draft, rfl⟩, ⟨puttingOut.draft, rfl⟩, point, protocol, r, stopped, rfl,
      found, sent, ?_⟩
    rw [operations]
    decide

end ChanFlow.Analysis
