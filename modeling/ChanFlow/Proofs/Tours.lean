import ChanFlow.Analysis.Activation
import ChanFlow.Proofs.Counting
import ChanFlow.Proofs.Traces
import Mathlib.Algebra.BigOperators.Group.List.Basic
import Mathlib.Data.List.Nodup

/-!
The way through a nest of counted loops.

A `Stage` is an edge on that way, together with the rounds of the loops around it, and a `Tour` says which
visits and which channel operations follow from it. Each loop of a nest is gone round as often as it counts, so
the operations of the innermost body come once for each combination of rounds (`tour_first`), and no visit comes
twice (`nodup_keysOf`).
-/
open List

namespace ChanFlow.Analysis

open Ssa

variable {l : Counter} {inner ls : List Counter} {keys : List BlockVisit} {ops : List ChanOp} {key : BlockVisit}
  {j : Nat}

/-- The loops around a place with their rounds, the innermost first. -/
abbrev Rounds := List (Counter × Nat)

/-- The index values of the loops around a place, the outermost first. -/
def Rounds.values (around : Rounds) : List Int := (around.map fun r => r.1.value r.2).reverse

@[simp] theorem Rounds.values_nil : Rounds.values [] = [] := rfl

@[simp] theorem Rounds.values_cons (l : Counter) (j : Nat) (around : Rounds) :
    Rounds.values ((l, j) :: around) = around.values ++ [l.value j] := by simp [Rounds.values]

/-- An edge on the way through a nest of loops, into a block of `l`, which is around the loops of `inner`. -/
inductive Stage where
  /-- To the header, from outside of the loop. -/
  | first (around : Rounds) (l : Counter) (inner : List Counter)
  /-- Back to the header after the round `j`. -/
  | again (around : Rounds) (l : Counter) (j : Nat) (inner : List Counter)
  /-- To the body, for the round `j`. -/
  | body (around : Rounds) (l : Counter) (j : Nat) (inner : List Counter)
  /-- Out of the loop. -/
  | done (around : Rounds) (l : Counter) (inner : List Counter)

/-- Where the header leads to before the round `j`. -/
def Stage.turn (around : Rounds) (l : Counter) (j : Nat) (inner : List Counter) : Stage :=
  if j < l.rounds then .body around l j inner else .done around l inner

/-- The visits and operations from a stage on, where the innermost body performs `work`, and `final` comes after
the outermost loop. -/
inductive Tour (work final : List ChanOp) : Stage → List BlockVisit → List ChanOp → Prop
  | first {around : Rounds} {l : Counter} {inner : List Counter} {keys : List BlockVisit} {ops : List ChanOp}
    (next : Tour work final (.turn around l 0 inner) keys ops) :
    Tour work final (.first around l inner) ((l.header, around.values) :: keys) ops
  | again {around : Rounds} {l : Counter} {j : Nat} {inner : List Counter} {keys : List BlockVisit} {ops : List ChanOp}
    (less : j < l.rounds) (next : Tour work final (.turn around l (j + 1) inner) keys ops) :
    Tour work final (.again around l j inner) ((l.header, Rounds.values ((l, j) :: around)) :: keys) ops
  | inside {around : Rounds} {l l' : Counter} {j : Nat} {inner : List Counter} {keys : List BlockVisit}
    {ops : List ChanOp} (next : Tour work final (.first ((l, j) :: around) l' inner) keys ops) :
    Tour work final (.body around l j (l' :: inner)) ((l.body, Rounds.values ((l, j) :: around)) :: keys) ops
  | work {around : Rounds} {l : Counter} {j : Nat} {keys : List BlockVisit} {ops : List ChanOp}
    (next : Tour work final (.again around l j []) keys ops) :
    Tour work final (.body around l j []) ((l.body, Rounds.values ((l, j) :: around)) :: keys) (work ++ ops)
  | outside {around : Rounds} {l l' : Counter} {j : Nat} {inner : List Counter} {keys : List BlockVisit}
    {ops : List ChanOp} (next : Tour work final (.again around l j (l' :: inner)) keys ops) :
    Tour work final (.done ((l, j) :: around) l' inner) ((l'.done, Rounds.values ((l, j) :: around)) :: keys) ops
  | final {l : Counter} {inner : List Counter} :
    Tour work final (.done [] l inner) [(l.done, [l.value l.rounds])] final

/-- The visits from the first arrival at the header of the first of these loops, which are inside of one another,
until it is left. -/
def keysOf : Rounds → List Counter → List BlockVisit
  | _, [] => []
  | around, l :: inner =>
    (l.header, around.values) :: (List.range l.rounds).flatMap fun j =>
      (l.body, Rounds.values ((l, j) :: around)) :: (keysOf ((l, j) :: around) inner ++
        ((inner.head?.map fun l' => (l'.done, Rounds.values ((l, j) :: around))).toList ++
          [(l.header, Rounds.values ((l, j) :: around))]))

/-- The visits of one round. -/
def roundOf (around : Rounds) (l : Counter) (inner : List Counter) (j : Nat) : List BlockVisit :=
  (l.body, Rounds.values ((l, j) :: around)) :: (keysOf ((l, j) :: around) inner ++
    ((inner.head?.map fun l' => (l'.done, Rounds.values ((l, j) :: around))).toList ++
      [(l.header, Rounds.values ((l, j) :: around))]))

theorem keysOf_cons (around : Rounds) (l : Counter) (inner : List Counter) :
    keysOf around (l :: inner) = (l.header, around.values) :: (List.range l.rounds).flatMap
      (roundOf around l inner) := rfl

variable {work final : List ChanOp}

variable {around : Rounds}

/-- If each round comes to its end with the operations of `once`, the rounds that are left perform them so many
times. -/
theorem tour_turn (once : List ChanOp)
    (goes : ∀ j keys ops, j < l.rounds → Tour work final (.turn around l (j + 1) inner) keys ops →
      Tour work final (.body around l j inner) (roundOf around l inner j ++ keys) (once ++ ops))
        (leaves : Tour work final (.done around l inner) keys ops)
    (n j : Nat) (left : j + n = l.rounds) :
    Tour work final (.turn around l j inner) ((List.range' j n).flatMap (roundOf around l inner) ++ keys)
      ((List.replicate n once).flatten ++ ops) := by
  induction n generalizing j with
  | zero =>
    rw [Stage.turn, if_neg (by omega)]
    exact leaves
  | succ n ih =>
    rw [Stage.turn, if_pos (by omega)]
    have round := goes j _ _ (by omega) (ih (j + 1) (by omega))
    simpa [range'_succ, replicate_succ] using round

theorem flatten_replicate_replicate {α : Type} (n k : Nat) (xs : List α) :
    (List.replicate n (List.replicate k xs).flatten).flatten = (List.replicate (n * k) xs).flatten := by
  induction n with
  | zero => simp
  | succ n ih =>
    rw [replicate_succ, flatten_cons, ih, Nat.succ_mul, Nat.add_comm, replicate_add, flatten_append]

/-- The innermost work is done once for each combination of rounds. -/
theorem tour_first (around : Rounds) (l : Counter) (inner : List Counter)
    (leaves : Tour work final (.done around l inner) keys ops) :
    Tour work final (.first around l inner) (keysOf around (l :: inner) ++ keys)
      ((List.replicate ((l :: inner).map (·.rounds)).prod work).flatten ++ ops) := by
  induction inner generalizing around l keys ops with
  | nil =>
    have rounds := tour_turn work (fun j keys ops less next => .work (.again less next)) leaves
      l.rounds 0 (Nat.zero_add _)
    simpa [keysOf_cons, range_eq_range'] using Tour.first rounds
  | cons l' inner ih =>
    have goes (j : Nat) (keys : List BlockVisit) (ops : List ChanOp) (less : j < l.rounds)
        (next : Tour work final (.turn around l (j + 1) (l' :: inner)) keys ops) :
        Tour work final (.body around l j (l' :: inner)) (roundOf around l (l' :: inner) j ++ keys)
          ((List.replicate ((l' :: inner).map (·.rounds)).prod work).flatten ++ ops) := by
      have inside := Tour.inside (ih ((l, j) :: around) l' (.outside (.again less next)))
      simpa [roundOf] using inside
    have rounds := tour_turn _ goes leaves l.rounds 0 (Nat.zero_add _)
    rw [flatten_replicate_replicate] at rounds
    simpa [keysOf_cons, range_eq_range'] using Tour.first rounds

/-! ### No visit comes twice -/

/-- The visits of a loop are inside of the rounds around it, and not at the block it is left for. -/
theorem mem_keysOf (member : key ∈ keysOf around ls) :
    around.values <+: key.2 ∧ ∃ l inner, ls = l :: inner ∧
      (key.1 = l.header ∨ key.1 = l.body ∨ key.1 ∈ inner.flatMap Counter.blocks) := by
  induction ls generalizing around key with
  | nil => simp [keysOf] at member
  | cons l inner ih =>
    have within (j : Nat) : around.values <+: Rounds.values ((l, j) :: around) := by
      rw [Rounds.values_cons]
      exact prefix_append _ _
    rw [keysOf_cons] at member
    rcases mem_cons.1 member with rfl | member
    · exact ⟨prefix_refl _, l, inner, rfl, .inl rfl⟩
    obtain ⟨j, -, member⟩ := mem_flatMap.1 member
    rcases mem_cons.1 member with rfl | member
    · exact ⟨within j, l, inner, rfl, .inr (.inl rfl)⟩
    rcases mem_append.1 member with member | member
    · obtain ⟨values, l', inner', rfl, block⟩ := ih member
      refine ⟨(within j).trans values, l, l' :: inner', rfl, .inr (.inr ?_)⟩
      rw [flatMap_cons, mem_append]
      rcases block with eq | eq | deeper
      · exact .inl (by simp [Counter.blocks, eq])
      · exact .inl (by simp [Counter.blocks, eq])
      · exact .inr deeper
    rcases mem_append.1 member with member | member
    · cases inner with
      | nil => simp at member
      | cons l' inner =>
        obtain rfl : key = (l'.done, Rounds.values ((l, j) :: around)) := by simpa using member
        exact ⟨within j, l, l' :: inner, rfl, .inr (.inr (by simp [Counter.blocks]))⟩
    · obtain rfl := mem_singleton.1 member
      exact ⟨within j, l, inner, rfl, .inl rfl⟩

/-- Until a loop is left, the visits are at its other blocks and at those of the loops inside of it. -/
theorem block_of_mem_keysOf (apart : ((l :: inner).flatMap Counter.blocks).Nodup)
    (member : key ∈ keysOf around (l :: inner)) : key.1 ∈ (l :: inner).flatMap Counter.blocks ∧
    key.1 ≠ l.done := by
  obtain ⟨-, l', inner', eq, block⟩ := mem_keysOf member
  obtain ⟨rfl, rfl⟩ := List.cons.inj eq
  rw [flatMap_cons, nodup_append] at apart
  obtain ⟨own, -, between⟩ := apart
  rw [flatMap_cons, mem_append]
  rcases block with eq | eq | deeper
  · refine ⟨.inl (by simp [Counter.blocks, eq]), fun same => ?_⟩
    simp [Counter.blocks, ← same, eq] at own
  · refine ⟨.inl (by simp [Counter.blocks, eq]), fun same => ?_⟩
    simp [Counter.blocks, ← same, eq] at own
  · exact ⟨.inr deeper, (between _ (by simp [Counter.blocks]) _ deeper).symm⟩

theorem values_of_mem_roundOf (member : key ∈ roundOf around l inner j) : around.values ++ [l.value j] <+: key.2 := by
  rw [← Rounds.values_cons]
  rcases mem_cons.1 member with rfl | member
  · exact prefix_refl _
  rcases mem_append.1 member with member | member
  · exact (mem_keysOf member).1
  rcases mem_append.1 member with member | member
  · obtain ⟨l', -, rfl⟩ := Option.map_eq_some_iff.1 (Option.mem_toList.1 member)
    exact prefix_refl _
  · obtain rfl := mem_singleton.1 member
    exact prefix_refl _

theorem nodup_roundOf (apart : ((l :: inner).flatMap Counter.blocks).Nodup)
    (inside : (keysOf ((l, j) :: around) inner).Nodup) : (roundOf around l inner j).Nodup := by
  rw [flatMap_cons, nodup_append] at apart
  obtain ⟨own, others, between⟩ := apart
  have header {b : Nat} (inner : b ∈ inner.flatMap Counter.blocks) : b ≠ l.header :=
    (between _ (by simp [Counter.blocks]) b inner).symm
  have body {b : Nat} (inner : b ∈ inner.flatMap Counter.blocks) : b ≠ l.body :=
    (between _ (by simp [Counter.blocks]) b inner).symm
  have ends : l.header ≠ l.body := by
    intro eq
    simp [Counter.blocks, eq] at own
  cases inner with
  | nil => simpa [roundOf, keysOf] using ends.symm
  | cons l' inner =>
    have left : l'.done ∈ (l' :: inner).flatMap Counter.blocks := by simp [Counter.blocks]
    have blocks {key : BlockVisit} (member : key ∈ keysOf ((l, j) :: around) (l' :: inner)) :=
      block_of_mem_keysOf others member
    rw [roundOf, nodup_cons, nodup_append]
    refine ⟨fun member => ?_, inside, ?_, fun key member key' member' same => ?_⟩
    · rcases mem_append.1 member with member | member
      · exact body (blocks member).1 rfl
      · simp only [head?_cons, Option.map_some, Option.toList_some, singleton_append, mem_cons,
          Prod.mk.injEq, not_mem_nil, or_false] at member
        rcases member with ⟨eq, -⟩ | ⟨eq, -⟩
        · exact body left eq.symm
        · exact ends eq.symm
    · simpa using header left
    · subst same
      simp only [head?_cons, Option.map_some, Option.toList_some, singleton_append, mem_cons,
        not_mem_nil, or_false] at member'
      rcases member' with rfl | rfl
      · exact (blocks member).2 rfl
      · exact header (blocks member).1 rfl

/-- No visit comes twice on the way through a loop. -/
theorem nodup_keysOf (apart : (ls.flatMap Counter.blocks).Nodup)
    (moves : ∀ l ∈ ls, l.step ≠ 0) : (keysOf around ls).Nodup := by
  induction ls generalizing around with
  | nil => exact nodup_nil
  | cons l inner ih =>
    rw [forall_mem_cons] at moves
    have others : (inner.flatMap Counter.blocks).Nodup := by
      rw [flatMap_cons, nodup_append] at apart
      exact apart.2.1
    rw [keysOf_cons, nodup_cons, nodup_flatMap]
    refine ⟨fun member => ?_, fun j _ => nodup_roundOf apart (ih others moves.2), ?_⟩
    · obtain ⟨j, -, member⟩ := mem_flatMap.1 member
      have length := (values_of_mem_roundOf member).length_le
      simp at length
    · refine nodup_range.imp fun {j j'} different key member member' => different ?_
      have same := prefix_of_prefix_length_le (values_of_mem_roundOf member) (values_of_mem_roundOf member') (by simp)
      have same := same.eq_of_length (by simp)
      exact Counter.value_inj moves.1 (by simpa using same)

end ChanFlow.Analysis
