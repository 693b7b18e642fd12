import ChanFlow.Proofs.Arity
import ChanFlow.Proofs.Arrivals
import ChanFlow.Proofs.Termination

/-!
Functions without counted loops are interpreted once.

Where no phi of a loop header starts at an integer, no loop is unrolled, so every block has one key. An activation
interprets the instructions of a block in order and not again, and begins the routine of a merge point once. Then
only a type without an end of pointers keeps the analysis from its end.

What an activation does is read off the states in which budgets stop the run (`trace`). An activation is watched
from before it begins; once the block is visited, or has its label, the trace stays as it is (`Watch`).
-/
open List

namespace ChanFlow.Analysis

open Ssa Protocol

variable {α : Type} {p : Program} {o : Options} {n src dst : Nat} {point : Point} {m₀ : Machine} {block : Block}
  {arrival : Arrival} {whole : List α}

/-! ### Functions without counted loops -/

/-- The integer that stands on the first edge of a phi. -/
def phiStart? (i : Instr) : Option Int :=
  match i.action with
  | .define _ _ (.phi (first :: _)) => first.value.int?
  | _ => none

/-- No phi of a loop header starts at an integer. -/
def Uncounted (f : Function) : Prop :=
  ∀ block ∈ f.blocks, block.tag = some "for.loop" → ∀ i ∈ block.instrs, phiStart? i = none

instance (f : Function) : Decidable (Uncounted f) :=
  inferInstanceAs (Decidable (∀ block ∈ f.blocks, block.tag = some "for.loop" →
    ∀ i ∈ block.instrs, phiStart? i = none))

theorem tag_of_role {b : BlockDraft} (role : b.role = .loopHeader) : b.tag = some "for.loop" := by
  unfold BlockDraft.role at role
  split at role
  · assumption
  all_goals exact nomatch role

theorem Uncounted.unranged {f : Function} (uncounted : Uncounted f) :
    ∀ block ∈ f.blocks, block.role = .loopHeader →
      ∀ phi ∈ block.instrs, ∀ comparison ∈ block.instrs, ranges f phi comparison = false := by
  intro block member role i inside j _
  unfold ranges
  split
  · next value ty edges _ _ _ _ _ action _ =>
    have start := uncounted block member (tag_of_role role) i inside
    unfold indexCandidate?
    split
    · next entry back =>
      rw [phiStart?, action] at start
      simp [show entry.value.int? = none from start]
    · rfl
  · rfl

/-! ### What is recorded of a run -/

def recorded {α : Type} (p : Program) (o : Options) (record : Point → Machine → Option α) (n : Nat) : Option α :=
  (stop? p o n).bind fun stop => record stop.1 stop.2

/-- What is recorded in the states that a run comes through in its first steps, in their order. -/
def trace {α : Type} (p : Program) (o : Options) (record : Point → Machine → Option α) (steps : Nat) : List α :=
  (List.range steps).filterMap (recorded p o record)

section Trace

variable {α : Type} {p : Program} {o : Options} (record : Point → Machine → Option α) {n : Nat} {point : Point}
  {m : Machine}

theorem recorded_stop (stops : StopsAt p o n point m) : recorded p o record n = record point m := by
  rw [recorded, stop?_eq_some.2 stops, Option.bind_some]

theorem trace_succ (n : Nat) : trace p o record (n + 1) = trace p o record n ++ (recorded p o record n).toList := by
  unfold trace
  rw [range_succ, filterMap_append]
  cases found : recorded p o record n <;> simp [found]

end Trace

/-! ### Watching an activation -/

/-- An activation, and when what it does is over. -/
structure Watch where
  name : String
  seq : Nat
  shut : Activation → Prop
  mono : ∀ {a a' : Activation}, (∀ key ∈ a.visited, key ∈ a'.visited) →
    (∀ key, (a.labels.get? key).isSome → (a'.labels.get? key).isSome) → shut a → shut a'

namespace Watch

/-- The activation is the one that is interpreted. -/
def Acting (w : Watch) (m : Machine) : Prop := m.act.func.name = w.name ∧ m.act.seq = w.seq

/-- The activation is not prepared yet, or waits. -/
def Pending (w : Watch) (m : Machine) : Prop :=
  m.context.count w.name ≤ w.seq ∨ ∃ a ∈ m.tasks.waiting, a.func.name = w.name ∧ a.seq = w.seq

/-- The activation does nothing more of what is watched while the current one goes on. -/
def Closed (w : Watch) (m : Machine) : Prop := ¬ w.Pending m ∧ (w.Acting m → w.shut m.act)

variable {α : Type}

/-- What the activation has done is a part of the whole, and nothing if it can still begin. -/
structure Holds (w : Watch) (past : Machine → List α) (whole : List α) (m : Machine) : Prop where
  short : past m <+: whole
  blank : ¬ w.Closed m → past m = []

def Keeps (w : Watch) (past : Machine → List α) (m m' : Machine) : Prop :=
  w.Closed m → w.Closed m' ∧ past m' = past m

end Watch

/-- The machine before and after a step that an activation goes on with. -/
structure Onward (m m' : Machine) : Prop where
  later : Later m m' := by exact ⟨fun _ => Nat.le_refl _, fun _ => .inl⟩
  func : m'.act.func = m.act.func := by rfl
  seq : m'.act.seq = m.act.seq := by rfl
  visited : ∀ key ∈ m.act.visited, key ∈ m'.act.visited := by exact fun _ => id
  labels : ∀ key, (m.act.labels.get? key).isSome → (m'.act.labels.get? key).isSome := by exact fun _ => id

namespace Watch

section Steps

variable {α : Type} {w : Watch} {past : Machine → List α} {whole : List α} {p : Program} {m m' m'' : Machine}

theorem Pending.back (pending : w.Pending m') (later : Later m m') : w.Pending m := by
  rcases pending with unknown | ⟨a, waits, name, seq⟩
  · exact .inl (Nat.le_trans (later.counts _) unknown)
  · rcases later.tasks a waits with old | new
    · exact .inr ⟨a, old, name, seq⟩
    · exact .inl (by rwa [name, seq] at new)

theorem Acting.not_pending (acting : w.Acting m) (tidy : Tidy p m) : ¬ w.Pending m := by
  obtain ⟨name, seq⟩ := acting
  rintro (unknown | ⟨a, waits, name', seq'⟩)
  · have numbered := tidy.numbered
    rw [name, seq] at numbered
    omega
  · exact tidy.apart a waits (name'.trans name.symm) (seq'.trans seq.symm)

theorem Closed.onward (closed : w.Closed m) (onward : Onward m m') : w.Closed m' := by
  obtain ⟨begun, shut⟩ := closed
  refine ⟨fun pending => begun (pending.back onward.later), fun acting => ?_⟩
  rw [Acting, onward.func, onward.seq] at acting
  exact w.mono onward.visited onward.labels (shut acting)

theorem Keeps.refl (m : Machine) : w.Keeps past m m := fun closed => ⟨closed, rfl⟩

theorem Keeps.trans (one : w.Keeps past m m') (two : w.Keeps past m' m'') : w.Keeps past m m'' := by
  intro closed
  obtain ⟨closed', same⟩ := one closed
  obtain ⟨closed'', same'⟩ := two closed'
  exact ⟨closed'', same'.trans same⟩

theorem Keeps.onward (onward : Onward m m') (same : past m' = past m) : w.Keeps past m m' :=
  fun closed => ⟨closed.onward onward, same⟩

theorem Holds.onward (holds : w.Holds past whole m) (onward : Onward m m') (same : past m' = past m) :
    w.Holds past whole m' where
  short := same ▸ holds.short
  blank still := same ▸ holds.blank fun closed => still (closed.onward onward)

end Steps

/-! ### Another activation comes in between -/

section Interlude

variable {α : Type} {w : Watch} {past : Machine → List α} {whole : List α} {p : Program} {m x y z : Machine}
  (later : Later m x) (new : m.context.count x.act.func.name ≤ x.act.seq ∨ x.act ∈ m.tasks.waiting)
  (same : past x = past m)
include later new

omit later in
theorem Acting.pending_before (acting : w.Acting x) : w.Pending m := by
  obtain ⟨name, seq⟩ := acting
  rcases new with fresh | waits
  · exact .inl (by rwa [name, seq] at fresh)
  · exact .inr ⟨x.act, waits, name, seq⟩

theorem closed_of_begun (begun : ¬ w.Pending m) : w.Closed x :=
  ⟨fun pending => begun (pending.back later), fun acting => absurd (acting.pending_before new) begun⟩

include same

theorem Holds.opens (holds : w.Holds past whole m) : w.Holds past whole x where
  short := same ▸ holds.short
  blank still := by
    rw [same]
    exact holds.blank fun closed => still (closed_of_begun later new closed.1)

variable (kept : w.Keeps past x y) (later' : Later y z) (same' : past z = past y)
  (func : z.act.func = m.act.func) (seq : z.act.seq = m.act.seq) (visited : z.act.visited = m.act.visited)
  (labels : z.act.labels = m.act.labels)
include kept later' same' func seq visited labels

theorem Keeps.closes : w.Keeps past m z := by
  intro closed
  obtain ⟨closed', past'⟩ := kept (closed_of_begun later new closed.1)
  refine ⟨⟨fun pending => closed'.1 (pending.back later'), fun acting => ?_⟩, by rw [same', past', same]⟩
  rw [Acting, func, seq] at acting
  exact w.mono (fun _ => visited ▸ id) (fun _ => labels ▸ id) (closed.2 acting)

theorem Holds.closes (tidy : Tidy p m) (holds : w.Holds past whole m) (ends : w.Holds past whole y) :
    w.Holds past whole z where
  short := same' ▸ ends.short
  blank still := by
    by_cases acting : w.Acting m
    · -- The activation was interrupted, and comes back as it was.
      have begun := acting.not_pending tidy
      have before : past m = [] := by
        refine holds.blank fun closed => still ?_
        exact (Keeps.closes later new same kept later' same' func seq visited labels closed).1
      rw [same', (kept (closed_of_begun later new begun)).2, same, before]
    · rw [same']
      refine ends.blank fun closed => still ⟨fun pending => closed.1 (pending.back later'), fun acting' => ?_⟩
      rw [Acting, func, seq] at acting'
      exact absurd acting' acting

end Interlude

end Watch

/-! ### Blocks and merge points -/

/-- The instruction of a block that an activation is about to interpret. -/
def instrIn (name : String) (seq block : Nat) : Point → Machine → Option Instr
  | .instr arrival i, m =>
    if m.act.func.name = name ∧ m.act.seq = seq ∧ arrival.block = block then some i else none
  | _, _ => none

/-- An edge leads to a merge point that has no routine yet. -/
def OpensMerge (m : Machine) (dst : Nat) : Prop :=
  (m.act.func.block? dst).any (·.isMergePoint) ∧ m.act.loops.current.repeatsAt dst = false ∧
    m.act.labels.get? (m.act.key dst) = none

instance (m : Machine) (dst : Nat) : Decidable (OpensMerge m dst) :=
  inferInstanceAs (Decidable ((m.act.func.block? dst).any (·.isMergePoint) ∧
    m.act.loops.current.repeatsAt dst = false ∧ m.act.labels.get? (m.act.key dst) = none))

/-- The label of the routine that an activation is about to begin for a merge point. -/
def mergeIn (name : String) (seq block : Nat) : Point → Machine → Option String
  | .edge _ dst, m =>
    if m.act.func.name = name ∧ m.act.seq = seq ∧ dst = block ∧ OpensMerge m dst then some (m.act.mergeLabel dst)
    else none
  | _, _ => none

/-- The instructions of a block of a function. -/
def instrsAt (f : Function) (block : Nat) : List Instr := ((f.block? block).map (·.instrs)).getD []

/-- A block of an activation, in a run with a budget. -/
structure Scene where
  p : Program
  o : Options
  entry : Function
  enters : Enters p o.entry entry
  budget : Nat
  f : Function
  known : p.function? f.name = some f
  seq : Nat
  b : Nat

namespace Scene

variable (s : Scene)

/-- What is recorded of the run until the machine has this much left. -/
def before {α : Type} (record : Point → Machine → Option α) (m : Machine) : List α :=
  trace s.p s.o record (s.budget - m.budget)

abbrev History : Property := Analysis.History s.p s.o s.entry s.budget

abbrev instrIn : Point → Machine → Option Instr := Analysis.instrIn s.f.name s.seq s.b

abbrev mergeIn : Point → Machine → Option String := Analysis.mergeIn s.f.name s.seq s.b

/-- The activation has interpreted the block. -/
def visiting : Watch where
  name := s.f.name
  seq := s.seq
  shut a := (s.b, []) ∈ a.visited
  mono visited _ := visited _

/-- The activation has begun the routine of the merge point. -/
def merging : Watch where
  name := s.f.name
  seq := s.seq
  shut a := (a.labels.get? (s.b, [])).isSome
  mono _ labels := labels _

def visits : Machine → List Instr := s.before s.instrIn

def merges : Machine → List String := s.before s.mergeIn

abbrev HoldsVisits : Machine → Prop := s.visiting.Holds s.visits (instrsAt s.f s.b)

abbrev HoldsMerges : Machine → Prop := s.merging.Holds s.merges [visitLabel s.f (s.b, [])]

structure Watched (m : Machine) : Prop where
  calm : ∀ l ∈ m.act.loops.loops, Calm m.act.func l
  visits : s.HoldsVisits m
  merges : s.HoldsMerges m

structure Lasting (m m' : Machine) : Prop where
  visits : s.visiting.Keeps s.visits m m'
  merges : s.merging.Keeps s.merges m m'

/-- The activation is in the middle of the block, and `rest` is left of it. -/
structure Amid (m₀ : Machine) (rest : List Instr) (m : Machine) : Prop where
  fresh : ¬ s.visiting.Closed m₀
  closed : s.visiting.Closed m
  whole : s.visits m ++ rest = instrsAt s.f s.b

/-- The instructions of a block are interpreted: of the watched one or of another. -/
structure Between (m₀ : Machine) (arrival : Arrival) (rest : List Instr) (m : Machine) : Prop where
  calm : ∀ l ∈ m.act.loops.loops, Calm m.act.func l
  merges : s.HoldsMerges m
  merged : s.merging.Keeps s.merges m₀ m
  here : s.visiting.Acting m ∧ arrival.block = s.b → s.Amid m₀ rest m
  elsewhere : ¬ (s.visiting.Acting m ∧ arrival.block = s.b) → s.HoldsVisits m ∧ s.visiting.Keeps s.visits m₀ m

def once : Conduct where
  holds := s.Watched
  keeps := s.Lasting
  stopped point m := m.act.signature = [] ∧
    (∀ i ∈ s.instrIn point m, m.budget = 0 ∧ s.visits m ++ [i] <+: instrsAt s.f s.b) ∧
    ∀ l ∈ s.mergeIn point m, m.budget = 0 ∧ s.merges m ++ [l] <+: [visitLabel s.f (s.b, [])]
  during m₀ arrival _ rest m := s.Between m₀ arrival rest m
  ready := s.Watched
  idle := s.Watched

end Scene

section Laws

variable {s : Scene} {p : Program} {o : Options} {budget : Nat} {f entry : Function} {m m' m₁ : Machine}

theorem key_of_calm {a : Activation} (calm : ∀ l ∈ a.loops.loops, Calm a.func l) (block : Nat) :
    a.key block = (block, []) := by
  have empty : a.loops.signature = [] := signature_eq_nil calm
  rw [Activation.key, Activation.signature, empty]

/-- Functions are known by their names. -/
theorem Tidy.func_eq (tidy : Tidy p m) (known : p.function? f.name = some f) (named : m.act.func.name = f.name) :
    m.act.func = f :=
  Option.some.inj ((named ▸ tidy.known.1).symm.trans known)

section Before

variable {α : Type} (record : Point → Machine → Option α)

theorem Scene.before_same (same : m'.budget = m.budget) : s.before record m' = s.before record m := by
  rw [before, before, same]

section

variable (reached : s.History (n + 1) point m₀) (pays : m.budget = n + 1) (left : m'.budget = n)
include reached pays left

/-- The trace grows with the budget that is spent. -/
theorem Scene.before_paid : s.before record m' = s.before record m ++ (record point m₀).toList := by
  obtain ⟨enough, stops⟩ := reached
  rw [before, before, pays, left, ← recorded_stop record ⟨s.entry, s.enters, stops⟩, ← trace_succ]
  congr 1
  omega

theorem Scene.before_unrecorded (nothing : record point m₀ = none) : s.before record m' = s.before record m := by
  rw [before_paid record reached pays left, nothing, Option.toList_none, append_nil]

end

end Before

/-- The activation goes on, and nothing is recorded. -/
theorem Scene.Watched.onward (here : s.Watched m) (onward : Onward m m')
    (visits : s.visits m' = s.visits m) (merges : s.merges m' = s.merges m)
    (calm : ∀ l ∈ m'.act.loops.loops, Calm m'.act.func l) : s.once.Moves m m' :=
  ⟨⟨calm, here.visits.onward onward visits, here.merges.onward onward merges⟩, .onward onward visits,
    .onward onward merges⟩

/-- A step of the activation that changes nothing that is watched. -/
theorem Scene.Watched.stay (here : s.Watched m) (onward : Onward m m') (same : m'.budget = m.budget := by rfl)
    (loops : m'.act.loops = m.act.loops := by rfl) : s.once.Moves m m' := by
  refine here.onward onward (Scene.before_same _ same) (Scene.before_same _ same) ?_
  rw [loops, onward.func]
  exact here.calm

theorem Scene.Watched.setAside (here : s.Watched m) : s.once.Moves m m.setAside := here.stay {}

/-- The activation goes back to the loops it had before. -/
theorem Scene.Watched.resetLoops (here : s.Watched m') (before : s.Watched m) (func : m'.act.func = m.act.func) :
    s.once.Moves m' (m'.resetLoops m.act.loops) :=
  here.onward {} rfl rfl (func ▸ before.calm)

theorem Scene.Lasting.trans {m'' : Machine} (one : s.Lasting m m') (two : s.Lasting m' m'') : s.Lasting m m'' :=
  ⟨one.visits.trans two.visits, one.merges.trans two.merges⟩

theorem Quiet.onward (quiet : Quiet m m') : Onward m m' where
  later := quiet.same.toLater
  func := quiet.func
  seq := quiet.seq
  visited := quiet.visited ▸ fun _ => id
  labels := quiet.labels ▸ fun _ => id

/-- The watched activation begins what is watched. -/
theorem Watch.begins {w : Watch} {past : Machine → List α} (fresh : ¬ w.Closed m)
    (closed : w.Closed m') (short : past m' <+: whole) : w.Holds past whole m' ∧ w.Keeps past m m' :=
  ⟨⟨short, fun still => absurd closed still⟩, fun before => absurd before fresh⟩

section

variable (here : s.Watched m)
include here

/-- What is recorded where an edge leads to a merge point for the first time: the block has no label yet. -/
theorem Scene.Watched.mergeIn_eq_some (tidy : Tidy s.p m) {label : String}
    (records : s.mergeIn (.edge src dst) m = some label) :
    label = visitLabel s.f (s.b, []) ∧ dst = s.b ∧ s.merging.Acting m ∧ ¬ s.merging.Closed m := by
  rw [mergeIn, Analysis.mergeIn, Option.ite_none_right_eq_some] at records
  obtain ⟨⟨name, number, rfl, -, -, unknown⟩, records⟩ := records
  rw [key_of_calm here.calm] at unknown
  refine ⟨?_, rfl, ⟨name, number⟩, fun closed => ?_⟩
  · rw [← Option.some.inj records, mergeLabel_eq, key_of_calm here.calm, tidy.func_eq s.known name]
  · have labelled : (m.act.labels.get? (s.b, [])).isSome := closed.2 ⟨name, number⟩
    simp [unknown] at labelled

theorem Scene.Watched.openMerge (tidy : Tidy s.p m)
    (pays : m.budget = n + 1)
    (reached : s.History (n + 1) (.edge src dst) (m.withBudget 0)) :
    s.once.Moves m ((m.withBudget n).openMerge dst) := by
  have onward : Onward m ((m.withBudget n).openMerge dst) := { labels := labels_openMerge m n dst }
  have visits : s.visits ((m.withBudget n).openMerge dst) = s.visits m :=
    Scene.before_unrecorded _ reached pays rfl rfl
  suffices merges : s.HoldsMerges ((m.withBudget n).openMerge dst) ∧
      s.merging.Keeps s.merges m ((m.withBudget n).openMerge dst) from
    ⟨⟨here.calm, here.visits.onward onward visits, merges.1⟩, .onward onward visits, merges.2⟩
  have paid : s.merges ((m.withBudget n).openMerge dst) =
      s.merges m ++ (s.mergeIn (.edge src dst) (m.withBudget 0)).toList :=
    Scene.before_paid _ reached pays rfl
  cases records : s.mergeIn (.edge src dst) (m.withBudget 0) with
  | none =>
    rw [records, Option.toList_none, append_nil] at paid
    exact ⟨here.merges.onward onward paid, .onward onward paid⟩
  | some label =>
    have begins : s.mergeIn (.edge src dst) m = .some label := records
    obtain ⟨rfl, rfl, acting, fresh⟩ := here.mergeIn_eq_some tidy begins
    -- The label is given together with the routine, and closes the merge point.
    refine Watch.begins fresh ⟨fun pending => ?_, fun _ => ?_⟩ ?_
    · exact acting.not_pending tidy (pending.back onward.later)
    · have labelled := label_openMerge m n s.b
      rw [key_of_calm here.calm] at labelled
      exact labelled
    · rw [paid, here.merges.blank fresh, records]
      exact prefix_rfl

/-- What holds of an interlude of another activation. -/
theorem Scene.Watched.opens (later : Later m m')
    (new : m.context.count m'.act.func.name ≤ m'.act.seq ∨ m'.act ∈ m.tasks.waiting)
    (visits : s.visits m' = s.visits m) (merges : s.merges m' = s.merges m) (loops : m'.act.loops = {}) :
    s.Watched m' :=
  ⟨loops ▸ calm_nil _, here.visits.opens later new visits, here.merges.opens later new merges⟩

theorem Scene.Watched.closes {z : Machine} (tidy : Tidy s.p m) (later : Later m m')
    (new : m.context.count m'.act.func.name ≤ m'.act.seq ∨ m'.act ∈ m.tasks.waiting)
    (visits : s.visits m' = s.visits m) (merges : s.merges m' = s.merges m) (ends : s.Watched m₁)
    (kept : s.Lasting m' m₁) (later' : Later m₁ z) (same : z.budget = m₁.budget)
    (func : z.act.func = m.act.func) (number : z.act.seq = m.act.seq)
    (visited : z.act.visited = m.act.visited) (labels : z.act.labels = m.act.labels)
    (loops : z.act.loops = m.act.loops) : s.once.Moves m z := by
  have visits' : s.visits z = s.visits m₁ := Scene.before_same _ same
  have merges' : s.merges z = s.merges m₁ := Scene.before_same _ same
  refine ⟨⟨?_, ?_, ?_⟩, ?_, ?_⟩
  · rw [loops, func]
    exact here.calm
  · exact .closes later new visits kept.visits later' visits' func number visited labels tidy here.visits ends.visits
  · exact .closes later new merges kept.merges later' merges' func number visited labels tidy here.merges ends.merges
  · exact .closes later new visits kept.visits later' visits' func number visited labels
  · exact .closes later new merges kept.merges later' merges' func number visited labels

end

/-- Entering a block keeps the loops calm, and they have no index values. -/
theorem calm_machine_enter (linked : m.act.func.Linked)
    (calm : ∀ l ∈ m.act.loops.loops, Calm m.act.func l) (found : m.act.func.block? arrival.block = some block) :
    ∀ l ∈ (m.enter block arrival.pred).act.loops.loops, Calm m.act.func l :=
  calm_enter calm ((linked.index_eq found).symm ▸ found)

theorem Scene.Watched.stopped_elsewhere (here : s.Watched m) (visits : s.instrIn point m = none)
    (merges : s.mergeIn point m = none) : s.once.stopped point m :=
  ⟨signature_eq_nil here.calm, by simp [visits], by simp [merges]⟩

theorem mergeIn_eq_none {name : String} (other : ¬ OpensMerge m dst) :
    mergeIn name seq b (.edge src dst) m = none := if_neg fun is => other is.2.2.2

/-- The watched block is entered, or another one. -/
theorem Scene.Watched.visit (here : s.Watched m) (tidy : Tidy s.p m) (linked : m.act.func.Linked)
    (there : m.act.func.block? arrival.block = some block)
    (fresh : (m.enter block arrival.pred).act.hasVisited block.index = false) :
    s.Between m arrival block.instrs ((m.enter block arrival.pred).onAct (·.noteVisit block.index)) := by
  have calm := calm_machine_enter linked here.calm there
  have key : (m.enter block arrival.pred).act.key block.index = (arrival.block, []) := by
    rw [key_of_calm calm, linked.index_eq there]
  have unseen : (arrival.block, []) ∉ m.act.visited := by
    rw [Activation.hasVisited, key] at fresh
    exact fun member => Bool.eq_false_iff.1 fresh (contains_iff_mem.2 member)
  rw [Machine.onAct, Activation.noteVisit, fresh, key, if_neg Bool.false_ne_true]
  have onward : Onward m { m.enter block arrival.pred with act :=
      { (m.enter block arrival.pred).act with
        visited := (arrival.block, []) :: (m.enter block arrival.pred).act.visited } } :=
    { visited := fun _ => mem_cons_of_mem _ }
  refine
    { calm := calm, merges := here.merges.onward onward rfl, merged := .onward onward rfl, here := ?_,
      elsewhere := fun _ => ⟨here.visits.onward onward rfl, .onward onward rfl⟩ }
  rintro ⟨acting, same⟩
  rw [same] at unseen there
  have before : s.visiting.Acting m := acting
  have isOpen : ¬ s.visiting.Closed m := fun closed => unseen (closed.2 before)
  refine ⟨isOpen, ⟨fun pending => before.not_pending tidy (pending.back onward.later),
    fun _ => same ▸ mem_cons_self⟩, ?_⟩
  have unvisited : s.visits m = [] := here.visits.blank isOpen
  have whole : instrsAt s.f s.b = block.instrs := by
    rw [instrsAt, ← tidy.func_eq s.known before.1, there]
    rfl
  rw [whole]
  exact congrArg (· ++ block.instrs) unvisited

section Interpret

variable {m₀ : Machine} {arrival : Arrival} {i : Instr} {rest : List Instr}
  (during : s.Between m₀ arrival (i :: rest) m)
include during

/-- The next instruction of the watched block is the one after those interpreted before. -/
theorem Scene.Between.next {j : Instr} (records : s.instrIn (.instr arrival i) m = some j) :
    s.visits m ++ [j] <+: instrsAt s.f s.b := by
  rw [instrIn, Analysis.instrIn, Option.ite_none_right_eq_some] at records
  obtain ⟨⟨name, number, here⟩, records⟩ := records
  obtain rfl := Option.some.inj records
  have amid := during.here ⟨⟨name, number⟩, here⟩
  rw [← amid.whole, append_cons _ i rest]
  exact prefix_append _ _

theorem Scene.Between.interpret (pays : m.budget = n + 1)
    (reached : s.History (n + 1) (.instr arrival i) ((m.emit (.instrVisited i)).withBudget 0)) :
    s.Watched ((m.emit (.instrVisited i)).withBudget n) ∧
      ∀ m', s.once.Stays s.p ((m.emit (.instrVisited i)).withBudget n) m' → s.Between m₀ arrival rest m' := by
  have onward : Onward m ((m.emit (.instrVisited i)).withBudget n) := {}
  have merges : s.merges ((m.emit (.instrVisited i)).withBudget n) = s.merges m :=
    Scene.before_unrecorded _ reached pays rfl rfl
  have visits : s.visits ((m.emit (.instrVisited i)).withBudget n) =
      s.visits m ++ (s.instrIn (.instr arrival i) ((m.emit (.instrVisited i)).withBudget 0)).toList :=
    Scene.before_paid _ reached pays rfl
  have merged := during.merged.trans (.onward onward merges)
  have acting {m' : Machine} (stays : s.once.Stays s.p ((m.emit (.instrVisited i)).withBudget n) m') :
      s.visiting.Acting m' ↔ s.visiting.Acting m := by
    rw [Watch.Acting, stays.same.func, stays.same.seq]
    exact Iff.rfl
  by_cases watched : s.visiting.Acting m ∧ arrival.block = s.b
  · have amid := during.here watched
    have closed := amid.closed.onward onward
    have records : s.instrIn (.instr arrival i) ((m.emit (.instrVisited i)).withBudget 0) = .some i :=
      if_pos ⟨watched.1.1, watched.1.2, watched.2⟩
    rw [records] at visits
    have short : s.visits ((m.emit (.instrVisited i)).withBudget n) <+: instrsAt s.f s.b :=
      visits ▸ during.next records
    refine ⟨⟨during.calm, ⟨short, fun still => absurd closed still⟩,
      during.merges.onward onward merges⟩, fun m' stays => ?_⟩
    -- The block has been closed since it was entered: whatever the instruction leads to adds nothing to it.
    obtain ⟨closed', same⟩ := stays.keeps.visits closed
    refine ⟨stays.holds.calm, stays.holds.merges, merged.trans stays.keeps.merges,
      fun _ => ⟨amid.fresh, closed', ?_⟩, ?_⟩
    · rw [same, visits, ← amid.whole, append_cons _ i rest]
      rfl
    · exact fun other => absurd ⟨(acting stays).2 watched.1, watched.2⟩ other
  · have records : s.instrIn (.instr arrival i) ((m.emit (.instrVisited i)).withBudget 0) = none :=
      if_neg fun is => watched ⟨⟨is.1, is.2.1⟩, is.2.2⟩
    rw [records, Option.toList_none, append_nil] at visits
    obtain ⟨holds, kept⟩ := during.elsewhere watched
    refine ⟨⟨during.calm, holds.onward onward visits, during.merges.onward onward merges⟩, fun m' stays => ?_⟩
    refine ⟨stays.holds.calm, stays.holds.merges, merged.trans stays.keeps.merges, fun is => ?_, fun _ => ?_⟩
    · exact absurd ⟨(acting stays).1 is.1, is.2⟩ watched
    · exact ⟨stays.holds.visits, (kept.trans (.onward onward visits)).trans stays.keeps.visits⟩

end Interpret

theorem lawful_once (linked : ∀ g ∈ s.p.functions, g.Linked) (uncounted : ∀ g ∈ s.p.functions, Uncounted g) :
    s.once.Lawful ⟨s.p, s.o⟩ s.History where
  refl _ := ⟨.refl _, .refl _⟩
  trans one two := one.keeps.trans two.keeps
  quiet here quiet budget := here.holds.stay quiet.onward budget quiet.loops
  turn {m arrival i l} here inside turn := by
    obtain ⟨block, found, member⟩ := inside
    have current := here.holds.calm _ mem_cons_self
    have turned := calm_turn (uncounted _ (mem_of_find?_eq_some here.tidy.known.1)).unranged
      current found member turn
    refine here.holds.onward {} rfl rfl ?_
    exact forall_mem_cons.2 ⟨turned, fun l member => here.holds.calm l (mem_cons_of_mem _ member)⟩
  defer {m} call here := here.holds.stay {}
  straight {m n src dst block} here pays reached there straight := by
    have other : ¬ OpensMerge (m.withBudget 0) dst := by
      rintro ⟨merge, fresh, -⟩
      have merge : ((m.act.func.block? dst).any (·.isMergePoint)) = true := merge
      rw [there] at merge
      exact Bool.eq_false_iff.1 fresh (straight merge)
    exact here.holds.onward {} (Scene.before_unrecorded _ reached pays rfl rfl)
      (Scene.before_unrecorded _ reached pays rfl (mergeIn_eq_none other)) here.holds.calm
  again {m n src dst block label} here pays reached _ _ _ labelled := by
    have other : ¬ OpensMerge (m.withBudget 0) dst := fun opens => by cases labelled.symm.trans opens.2.2
    exact here.holds.onward {} (Scene.before_unrecorded _ reached pays rfl rfl)
      (Scene.before_unrecorded _ reached pays rfl (mergeIn_eq_none other)) here.holds.calm
  merge {m n src dst block} here pays reached there merge fresh unknown := by
    have opened := here.holds.openMerge here.tidy pays reached
    refine ⟨opened.holds, fun m₁ walked => ?_⟩
    have closed : s.once.Moves m₁ ((m.withBudget n).closeMerge m₁ dst) := walked.holds.stay {}
    exact ⟨closed.holds, (opened.keeps.trans walked.keeps).trans closed.keeps⟩
  aside here := here.holds.setAside.holds
  between here first := (first.holds.setAside.holds.resetLoops here.holds first.same.func).holds
  join {m m₁ m₂} here first second := by
    have aside := first.holds.setAside
    have again := aside.holds.resetLoops here.holds first.same.func
    have joined : s.once.Moves m₂ (m.joinSides m₁ m₂) := second.holds.stay {}
    refine ⟨joined.holds, ?_⟩
    have one := here.holds.setAside.keeps.trans first.keeps
    have two := (aside.keeps.trans again.keeps).trans second.keeps
    exact (one.trans two).trans joined.keeps
  case {m m₁ slot case r} here _ first extended := by
    have extended : s.once.Moves m₁ (m₁.setRoutine r) := first.holds.stay {}
    exact ⟨extended.holds, (here.holds.setAside.keeps.trans first.keeps).trans extended.keeps⟩
  reset {m m₁} here stays := by
    have again := stays.holds.resetLoops here.holds stays.same.func
    exact ⟨again.holds, stays.keeps.trans again.keeps⟩
  call {m m' n g a} here quiet after before interpretable fresh new numbered reached := by
    have later : Later m ((m'.withBudget n).openFunction a) := { quiet.same.toLater with }
    have visits := Scene.before_unrecorded s.instrIn reached before
      (rfl : ((m'.withBudget n).openFunction a).budget = n) rfl
    have merges := Scene.before_unrecorded s.mergeIn reached before
      (rfl : ((m'.withBudget n).openFunction a).budget = n) rfl
    refine ⟨here.holds.opens later (.inl numbered.fresh) visits merges new.unbegun.loops, fun m₁ walked => ?_⟩
    exact here.holds.closes here.tidy later (.inl numbered.fresh) visits merges walked.holds walked.keeps
      { Later.refl m₁ with } rfl quiet.func quiet.seq quiet.visited quiet.labels quiet.loops
  spawn {m m' n g a} here quiet after before interpretable new numbered reached := by
    have visits := Scene.before_unrecorded s.instrIn reached before
      (rfl : (m'.withBudget n).budget = n) rfl
    have merges := Scene.before_unrecorded s.mergeIn reached before
      (rfl : (m'.withBudget n).budget = n) rfl
    have calm : ∀ l ∈ m'.act.loops.loops, Calm m'.act.func l := by
      rw [quiet.loops, quiet.func]
      exact here.holds.calm
    refine ⟨fun _ => here.holds.onward { quiet.onward with later := { quiet.same.toLater with } } visits merges calm,
      fun queue _ queued => ?_⟩
    have later := (here.tidy.enqueue quiet interpretable new numbered queued).2
    exact here.holds.onward { quiet.onward with later := { later with } } visits merges calm
  revisit {m arrival block} here there _ := by
    have calm := calm_machine_enter (linked _ (mem_of_find?_eq_some here.tidy.known.1)) here.holds.calm there
    exact ⟨here.holds.onward {} rfl rfl calm, trivial⟩
  visit here there fresh noted := by
    have during := here.holds.visit here.tidy (linked _ (mem_of_find?_eq_some here.tidy.known.1)) there fresh
    rwa [Machine.onAct, noted] at during
  instr {m₀ m arrival block i rest} during _ _ _ _ := by
    refine ⟨fun spent => ⟨signature_eq_nil during.calm, fun j records => ⟨spent, ?_⟩,
      (fun _ member => by cases member)⟩, ?_⟩
    · exact during.next records
    · exact fun n pays reached => during.interpret pays reached
  ends {m₀ m arrival block} during _ _ _ := by
    refine ⟨?_, trivial⟩
    by_cases watched : s.visiting.Acting m ∧ arrival.block = s.b
    · have amid := during.here watched
      have whole := amid.whole
      rw [append_nil] at whole
      obtain ⟨visits, visited⟩ :=
        Watch.begins amid.fresh amid.closed
          (whole ▸ prefix_rfl : s.visits m <+: instrsAt s.f s.b)
      exact ⟨⟨during.calm, visits, during.merges⟩, visited, during.merged⟩
    · obtain ⟨visits, visited⟩ := during.elsewhere watched
      exact ⟨⟨during.calm, visits, during.merges⟩, visited, during.merged⟩
  stopEdge {m src dst} here spent _ := by
    refine ⟨signature_eq_nil here.holds.calm, (fun _ member => by cases member),
      fun label begins => ⟨spent, ?_⟩⟩
    have begins : s.mergeIn (.edge src dst) m = .some label := begins
    obtain ⟨rfl, -, -, fresh⟩ := here.holds.mergeIn_eq_some here.tidy begins
    rw [here.holds.merges.blank fresh]
    exact prefix_rfl
  stopHandOver here _ := here.holds.stopped_elsewhere rfl rfl
  stopBlock here := here.holds.stopped_elsewhere rfl rfl
  skip := id
  init {m m' g number} tidy here _ quiet same numbered := by
    have later : Later m { m' with act := Activation.start g number [] m.act.func.name } := { quiet.same.toLater with }
    refine ⟨here.opens later (.inl numbered.fresh) (Scene.before_same _ same) (Scene.before_same _ same) rfl, ?_⟩
    intro m₁ walked
    have closed : s.once.Moves m { m₁ with act := m'.act.setRoutine m₁.act.routine } :=
      here.closes tidy later (.inl numbered.fresh)
        (Scene.before_same _ same) (Scene.before_same _ same) walked.holds
        walked.keeps { Later.refl m₁ with } rfl quiet.func quiet.seq quiet.visited quiet.labels quiet.loops
    exact closed.holds
  entry {m} _ here := by
    have opened : s.once.Moves m (m.openFunction m.act) := here.stay {}
    refine ⟨opened.holds, fun m₁ walked => ?_⟩
    have closed : s.once.Moves m₁ m₁.closeRoutine := walked.holds.stay {}
    exact closed.holds
  task {m a rest} tidy here waits := by
    have first : a ∈ m.tasks.waiting := waits ▸ mem_cons_self
    have later : Later m (({ m with tasks := { m.tasks with waiting := rest } } : Machine).openFunction a) :=
      ⟨fun _ => Nat.le_refl _, fun other waits' => .inl (waits ▸ mem_cons_of_mem a waits')⟩
    refine ⟨here.opens later (.inr first) rfl rfl (tidy.unbegun a first).1.loops, fun m₁ walked => ?_⟩
    have closed : s.once.Moves m { m₁.closeRoutine with act := m.act } :=
      here.closes tidy later (.inr first) rfl rfl walked.holds
        walked.keeps { Later.refl m₁ with } rfl rfl rfl rfl rfl rfl
    exact closed.holds
  stopTask here := here.stopped_elsewhere rfl rfl

/-! ### Runs from the start -/

theorem Scene.Watched.start (s : Scene) : s.Watched (Machine.start s.p s.entry s.budget) := by
  have nothing {α : Type} (record : Point → Machine → Option α) :
      s.before record (Machine.start s.p s.entry s.budget) = [] := by
    have zero : s.budget - (Machine.start s.p s.entry s.budget).budget = 0 := Nat.sub_self _
    rw [before, zero]
    rfl
  refine ⟨calm_nil _, ⟨?_, fun _ => nothing _⟩, ⟨?_, fun _ => nothing _⟩⟩
  · rw [Scene.visits, nothing]
    exact nil_prefix
  · rw [Scene.merges, nothing]
    exact nil_prefix

section Programs

variable (linked : ∀ g ∈ p.functions, g.Linked) (uncounted : ∀ g ∈ p.functions, Uncounted g)
include linked uncounted

theorem stopped_once (known : p.function? f.name = some f) (seq b : Nat) (stops : StopsAt p o n point m) :
    m.act.signature = [] ∧
      (∀ i ∈ instrIn f.name seq b point m, trace p o (instrIn f.name seq b) n ++ [i] <+: instrsAt f b) ∧
      ∀ l ∈ mergeIn f.name seq b point m, trace p o (mergeIn f.name seq b) n ++ [l] <+: [visitLabel f (b, [])] := by
  obtain ⟨entry, enters, stops⟩ := stops
  let s : Scene := { p, o, entry, enters, budget := n, f, known, seq, b }
  have leads := (lawful_once (s := s) linked uncounted).leads enters (.start s)
  rw [Leads, stops] at leads
  obtain ⟨empty, visits, merges⟩ := leads point rfl
  refine ⟨empty, fun i records => ?_, fun l records => ?_⟩
  · obtain ⟨spent, short⟩ := visits i records
    rwa [Scene.visits, Scene.before, spent] at short
  · obtain ⟨spent, short⟩ := merges l records
    rwa [Scene.merges, Scene.before, spent] at short

theorem signature_eq_nil_of_stops (stops : StopsAt p o n point m) : m.act.signature = [] := by
  have ⟨entry, found, _⟩ := stops
  obtain ⟨known, -⟩ := Option.filter_eq_some_iff.1 found
  have known : p.function? entry.name = some entry := (Program.function?_name known).symm ▸ known
  exact (stopped_once linked uncounted known 0 0 stops).1

end Programs

end Laws

/-- A trace grows within bounds if it does where something is recorded. -/
theorem trace_isPrefix {record : Point → Machine → Option α}
    (each : ∀ n point m x, StopsAt p o n point m → record point m = some x → trace p o record n ++ [x] <+: whole)
    (n : Nat) : trace p o record n <+: whole := by
  induction n with
  | zero => exact nil_prefix
  | succ n ih =>
    rw [trace_succ]
    cases found : recorded p o record n with
    | none => rwa [Option.toList_none, append_nil]
    | some x =>
      obtain ⟨⟨point, m⟩, stops, records⟩ := Option.bind_eq_some_iff.1 found
      exact each n point m x (stop?_eq_some.1 stops) records

/-- If some budget is enough, only an endless type keeps the analysis from a result. -/
theorem finishes_iff_of_enough {entry : Function} {budget : Nat}
    (found : Enters p o.entry entry)
    (enough : ¬ Stops (analyse ⟨p, o⟩ (Machine.start p entry budget))) :
    Finishes p o ↔ ∀ budget ty, (infer budget p o).result ≠ .error (.endless ty) := by
  have goes {n : Nat} {ty : Ty} (endless : (infer n p o).result = .error (.endless ty)) :
      ¬ Stops (analyse ⟨p, o⟩ (Machine.start p entry n)) := by
    rw [result_infer found] at endless
    cases result : analyse ⟨p, o⟩ (Machine.start p entry n) with
    | ok protocol m => exact id
    | error h m =>
      simp only [result, Except.error.injEq] at endless
      exact endless ▸ id
  constructor
  · -- Two budgets that do not stop the analysis give the same result.
    rintro ⟨n, finished⟩ n' ty endless
    have same := result_eq_of_not_stops found (not_stops_of_finished found finished) (goes endless)
    rw [← same, endless] at finished
    simp at finished
  · intro ending
    refine ⟨budget, ?_⟩
    cases result : (infer budget p o).result with
    | ok protocol => exact .inl ⟨protocol, rfl⟩
    | error h =>
      cases h with
      | failed e => exact .inr ⟨e, rfl⟩
      | endless ty => exact absurd result (ending budget ty)
      | stopped point =>
        rw [result_infer found] at result
        cases stops : analyse ⟨p, o⟩ (Machine.start p entry budget) with
        | ok protocol m => simp [stops] at result
        | error h m =>
          simp only [stops, Except.error.injEq] at result
          rw [stops, result] at enough
          exact absurd trivial enough

/-- Without a loop that could be counted, the analysis comes to an end unless it asks for a part of a type without an
end of pointers. No state it comes through has an index value. What an activation interprets of a block is the
beginning of the block, and it begins no more than one routine for a merge point. -/
theorem interpreted_once {p : Program} {o : Options} (linked : ∀ f ∈ p.functions, f.Linked)
    (uncounted : ∀ f ∈ p.functions, Uncounted f) :
    (Finishes p o ↔ ∀ budget ty, (infer budget p o).result ≠ .error (.endless ty)) ∧
      (∀ n point m, StopsAt p o n point m → m.act.signature = []) ∧
      ∀ f, p.function? f.name = some f → ∀ seq b n,
        trace p o (instrIn f.name seq b) n <+: instrsAt f b ∧
        trace p o (mergeIn f.name seq b) n <+: [visitLabel f (b, [])] := by
  have empty {n : Nat} {point : Point} {m : Machine} (stops : StopsAt p o n point m) : m.act.signature = [] :=
    signature_eq_nil_of_stops linked uncounted stops
  refine ⟨?_, fun n point m => empty, fun f known seq b n => ⟨?_, ?_⟩⟩
  · cases found : (p.function? o.entry).filter (·.hasBody) with
    | none =>
      have result (budget : Nat) : (infer budget p o).result = .error (.failed ⟨.missingEntry o.entry, none⟩) := by
        rw [infer, found]
      refine ⟨fun _ budget ty endless => ?_, fun _ => ⟨0, .inr ⟨_, result 0⟩⟩⟩
      rw [result budget] at endless
      cases endless
    | some entry =>
      have shallow (point : Point) (m : Machine) (reached : Reachable p o point m) : m.act.signature.length ≤ 0 := by
        obtain ⟨n, entry, found, stops⟩ := reached
        rw [empty ⟨entry, found, stops⟩]
        exact Nat.le_refl 0
      obtain ⟨budget, enough⟩ := exists_enough found shallow
      exact finishes_iff_of_enough found enough
  · refine trace_isPrefix (fun n point m i stops records => ?_) n
    exact (stopped_once linked uncounted known seq b stops).2.1 i records
  · refine trace_isPrefix (fun n point m l stops records => ?_) n
    exact (stopped_once linked uncounted known seq b stops).2.2 l records

/-! ### A loop with a bound that is not known -/

/-- Sends the numbers from a given one on, calls itself in every round, and closes the channel in the end. -/
def numbering : Function := .closed "main.main" [
  .of 0 none [] [1] [
    .define "ch" .intChan (.makeChan (.int 1)),
    .perform (.defer ⟨.builtin "close", [.var "ch"]⟩),
    .define "n" .int (.unary .neg (.int 3)),
    .perform (.jump 1)],
  .of 1 (some "for.loop") [0, 2] [2, 3] [
    .define "i" .int (.phi [⟨0, .var "n"⟩, ⟨2, .var "t"⟩]),
    .define "c" .bool (.binary .lt (.var "i") (.int 3)),
    .perform (.branch (.var "c") 2 3)],
  .of 2 (some "for.body") [1] [1] [
    .perform (.send (.var "ch") (.var "i")),
    .perform (.call ⟨.static "main.main", []⟩),
    .define "t" .int (.binary .add (.var "i") (.int 1)),
    .perform (.jump 1)],
  .of 3 (some "for.done") [1] [] [
    .perform .runDefers,
    .perform (.ret [])]]

/-- The header is come to twice and interpreted once, by way of its routine. -/
theorem numbering_once :
    Finishes { functions := [numbering] } {} ∧
      (∀ n, trace { functions := [numbering] } {} (instrIn "main.main" 0 1) n <+: instrsAt numbering 1) ∧
      trace { functions := [numbering] } {} (instrIn "main.main" 0 1) 30 = instrsAt numbering 1 ∧
      (∀ n, trace { functions := [numbering] } {} (mergeIn "main.main" 0 1) n <+: ["main.main#1"]) ∧
      trace { functions := [numbering] } {} (mergeIn "main.main" 0 1) 30 = ["main.main#1"] := by
  have linked : ∀ f ∈ ({ functions := [numbering] } : Program).functions, f.Linked := by
    intro f member
    obtain rfl := mem_singleton.1 member
    exact ⟨numbering.draft, rfl⟩
  obtain ⟨-, -, once⟩ := interpreted_once (o := {}) linked (by decide)
  have each (n : Nat) := once numbering rfl 0 1 n
  refine ⟨⟨30, .inl (ok_of_toBool ?_)⟩,
    fun n => (each n).1, by decide +kernel, fun n => (each n).2, by decide +kernel⟩
  decide +kernel

/-! ### A type without an end of pointers -/

/-- Reads from a slice that is declared as a pointer to itself. -/
def peeking : Function := .closed "main.main" [
  .of 0 none [] [] [
    .define "a" (.slice .int) (.makeSlice (.int 1)),
    .define "s" (.named "main.T") (.slice (.var "a")),
    .define "v" .int (.index (.var "s") (.int 0)),
    .perform (.ret [])]]

def peek : Program where
  types := { decls := Dict.empty.insert "main.T" { underlying := .pointer (.named "main.T"), methods := .empty } }
  functions := [peeking]

/-- There is no loop, and no budget is enough. -/
theorem peek_unfinished : peeking.Linked ∧ Uncounted peeking ∧ ¬ Finishes peek {} := by
  refine ⟨⟨peeking.draft, rfl⟩, by decide, fun finishes => ?_⟩
  have enough : ¬ Stops (analyse ⟨peek, {}⟩ (Machine.start peek peeking 10)) := by decide +kernel
  have endless : (match (infer 10 peek {}).result with | .error (.endless _) => true | _ => false) = true := by
    decide +kernel
  split at endless
  · next ty result => exact (finishes_iff_of_enough rfl enough).1 finishes 10 ty result
  · exact nomatch endless

end ChanFlow.Analysis
