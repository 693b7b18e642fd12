import ChanFlow.Loop.Nest
import Mathlib.Tactic.Positivity
import Mathlib.Tactic.Ring

/-!
Loops that count, and how often they go round.

A `Counter` is a loop that counts from a constant by a constant, with a comparison of its index with a constant.
If the comparison classifies the loop as static, the rounds the classification counts are the rounds for which
the comparison holds.
-/
namespace ChanFlow

open Ssa

variable {j : Nat} {step : Int}

/-- Whether a comparison holds of two integers. -/
def Ssa.BinOp.Holds (op : BinOp) (x y : Int) : Prop :=
  match op with
  | .eq => x = y
  | .ne => x ≠ y
  | .lt => x < y
  | .le => x ≤ y
  | .gt => y < x
  | .ge => y ≤ x
  | _ => False

theorem Ssa.BinOp.holds_flip (op : BinOp) (x y : Int) : op.flip.Holds x y ↔ op.Holds y x := by
  cases op <;> simp [BinOp.flip, BinOp.Holds, eq_comm]

/-- A loop that counts: its blocks, the values of its header and of its way back, and its constants. -/
structure Counter where
  header : Nat
  body : Nat
  done : Nat
  index : String
  indexTy : Ty
  cond : String
  condTy : Ty
  /-- The index for the next round. -/
  next : String
  nextTy : Ty
  start : Int
  step : Int
  op : BinOp
  bound : Int
  /-- Whether the bound stands on the left of the comparison. -/
  swapped : Bool

namespace Counter

variable (l : Counter)

def blocks : List Nat := [l.header, l.body, l.done]

def comparison : ValueOp :=
  if l.swapped then .binary l.op (.const (.int l.bound)) (.var l.index)
  else .binary l.op (.var l.index) (.const (.int l.bound))

/-- Whether the loop goes round once more with this index. -/
def Goes (i : Int) : Prop := if l.swapped then l.op.Holds l.bound i else l.op.Holds i l.bound

/-- The index after so many rounds. -/
def value (j : Nat) : Int := l.start + j * l.step

theorem value_succ (j : Nat) : l.value (j + 1) = l.value j + l.step := by
  simp only [value]
  push_cast
  ring

/-- The loop goes round exactly `n` times. -/
structure Counts (n : Nat) : Prop where
  goes : ∀ j < n, l.Goes (l.value j)
  ends : ¬ l.Goes (l.value n)

theorem Counts.unique {l : Counter} {n n' : Nat} (counts : l.Counts n) (counts' : l.Counts n') : n = n' := by
  rcases Nat.lt_trichotomy n n' with less | same | more
  · exact absurd (counts'.goes n less) counts.ends
  · exact same
  · exact absurd (counts.goes n' more) counts'.ends

/-- The comparison with the index on the left. -/
def test : BinOp := if l.swapped then l.op.flip else l.op

theorem goes_iff (i : Int) : l.Goes i ↔ l.test.Holds i l.bound := by
  unfold Goes test
  split
  · exact (BinOp.holds_flip _ _ _).symm
  · exact Iff.rfl

/-- The loop as its header leaves it the first time. -/
def classified (maxUnroll : Nat) : Loop :=
  ((Nest.entered l.header).noteIndex l.index l.start l.step).noteCondition l.cond (some l.index) l.test (some l.bound)
    maxUnroll

def last : Int := (Loop.lastIndex? l.step l.test l.bound).getD 0

/-- The number of rounds the classification goes by. -/
def rounds : Nat := (Loop.iterations? l.start l.step l.last).getD 0

/-- The loop after so many rounds. -/
def loop (state : Loop.State) (j : Nat) : Loop where
  state := state
  bound := .static
  header := some l.header
  indexVar := some l.index
  condVar := some l.cond
  start := some l.start
  step := some l.step
  last := some l.last
  index := l.value j

theorem value_inj {l : Counter} (moves : l.step ≠ 0) {j' : Nat} (same : l.value j = l.value j') : j = j' := by
  have products : (j : Int) * l.step = j' * l.step := by simpa [value] using same
  exact_mod_cast mul_right_cancel₀ moves products

/-- What a classification as static says of the constants. -/
structure Static (maxUnroll : Nat) : Prop where
  last : Loop.lastIndex? l.step l.test l.bound = some l.last
  next : Word.Fits (l.last + l.step)
  rounds : Loop.iterations? l.start l.step l.last = some l.rounds
  few : l.rounds ≤ maxUnroll

variable {l} {maxUnroll : Nat}

theorem static_of_classified (static : (l.classified maxUnroll).isStatic) :
    l.Static maxUnroll ∧ l.classified maxUnroll = l.loop .enter 0 := by
  have noted : (Nest.entered l.header).noteIndex l.index l.start l.step =
      { Nest.entered l.header with indexVar := some l.index, start := some l.start, step := some l.step } := rfl
  unfold classified at static ⊢
  rw [noted] at static ⊢
  unfold Loop.noteCondition Loop.verdict Loop.range? at static ⊢
  cases last : Loop.lastIndex? l.step l.test l.bound with
  | none => simp [last, Nest.entered, Loop.isStatic] at static
  | some last' =>
    obtain rfl : last' = l.last := by simp [Counter.last, last]
    by_cases next : Word.Fits (l.last + l.step)
    · cases count : Loop.iterations? l.start l.step l.last with
      | none => simp [last, next, count, Word.inRange?, Nest.entered, Loop.isStatic] at static
      | some n =>
        obtain rfl : n = l.rounds := by simp [Counter.rounds, count]
        by_cases few : l.rounds ≤ maxUnroll
        · refine ⟨⟨last, next, count, few⟩, ?_⟩
          simp [last, next, count, few, Word.inRange?, Nest.entered, Counter.loop, Counter.value]
        · simp [last, next, count, few, Word.inRange?, Nest.entered, Loop.isStatic] at static
    · simp [last, next, Word.inRange?, Nest.entered, Loop.isStatic] at static

/-- The comparison bounds the index from the side it moves to. -/
theorem holds_iff_of_lastIndex? {bound last : Int} {op : BinOp} (found : Loop.lastIndex? step op bound = some last) :
    (0 < step ∧ ∀ i, op.Holds i bound ↔ i ≤ last) ∨ step < 0 ∧ ∀ i, op.Holds i bound ↔ last ≤ i := by
  unfold Loop.lastIndex? Word.inRange? at found
  cases op with
  | lt =>
    by_cases up : 0 < step
    · by_cases fits : Word.Fits (bound - 1)
      · obtain rfl : bound - 1 = last := by simpa [up, fits] using found
        exact .inl ⟨up, fun i => by simp only [BinOp.Holds]; omega⟩
      · simp [up, fits] at found
    · simp [up] at found
  | le =>
    by_cases up : 0 < step
    · obtain rfl : bound = last := by simpa [up] using found
      exact .inl ⟨up, fun i => Iff.rfl⟩
    · simp [up] at found
  | gt =>
    by_cases down : step < 0
    · by_cases fits : Word.Fits (bound + 1)
      · obtain rfl : bound + 1 = last := by simpa [down, fits] using found
        exact .inr ⟨down, fun i => by simp only [BinOp.Holds]; omega⟩
      · simp [down, fits] at found
    · simp [down] at found
  | ge =>
    by_cases down : step < 0
    · obtain rfl : bound = last := by simpa [down] using found
      exact .inr ⟨down, fun i => Iff.rfl⟩
    · simp [down] at found
  | _ => simp at found

/-- How often a step goes into a span. -/
theorem lt_rounds_iff {span : Int} (positive : 0 < step) (j : Nat) :
    j < (if span < 0 then 0 else span.toNat / step.natAbs + 1) ↔ j * step ≤ span := by
  obtain ⟨k, rfl⟩ := Int.eq_ofNat_of_zero_le positive.le
  have positive' : 0 < k := by omega
  split
  · next negative =>
    have product : (0 : Int) ≤ j * k := by positivity
    omega
  · next natural =>
    obtain ⟨n, rfl⟩ := Int.eq_ofNat_of_zero_le (Int.not_lt.1 natural)
    rw [Int.natAbs_natCast, Int.toNat_natCast, Nat.lt_succ_iff, Nat.le_div_iff_mul_le positive']
    exact_mod_cast Iff.rfl

namespace Static

variable (static : l.Static maxUnroll)

include static

/-- The index bounds the rounds from the side it moves to. -/
theorem value_iff : (0 < l.step ∧ (∀ i, l.Goes i ↔ i ≤ l.last) ∧ ∀ j : Nat, l.value j ≤ l.last ↔
      j < l.rounds) ∨
    l.step < 0 ∧ (∀ i, l.Goes i ↔ l.last ≤ i) ∧ ∀ j : Nat, l.last ≤ l.value j ↔ j < l.rounds := by
  have count := static.rounds
  unfold Loop.iterations? Word.inRange? at count
  rcases holds_iff_of_lastIndex? static.last with ⟨up, holds⟩ | ⟨down, holds⟩
  · refine .inl ⟨up, fun i => (l.goes_iff i).trans (holds i), fun j => ?_⟩
    by_cases fits : Word.Fits (l.last - l.start)
    · have rounds : (if l.last - l.start < 0 then 0 else (l.last - l.start).toNat / l.step.natAbs + 1) = l.rounds := by
        simpa [up, up.ne', fits] using count
      rw [← rounds, lt_rounds_iff up, value]
      omega
    · simp [up, up.ne', fits] at count
  · refine .inr ⟨down, fun i => (l.goes_iff i).trans (holds i), fun j => ?_⟩
    have upward : ¬ 0 < l.step := by omega
    by_cases fits : Word.Fits (l.start - l.last)
    · have rounds :
        (if l.start - l.last < 0 then 0 else (l.start - l.last).toNat / (-l.step).natAbs + 1) = l.rounds := by
        simpa [upward, down.ne, fits] using count
      rw [← rounds, lt_rounds_iff (by omega), value]
      have product : (j : Int) * -l.step = -(j * l.step) := by ring
      omega
    · simp [upward, down.ne, fits] at count

theorem step_ne_zero : l.step ≠ 0 := by
  rcases static.value_iff with ⟨up, -⟩ | ⟨down, -⟩
  · exact up.ne'
  · exact down.ne

theorem hasNext_loop (state : Loop.State) (j : Nat) : (l.loop state j).hasNext = decide (j < l.rounds) := by
  rcases static.value_iff with ⟨up, -, iff⟩ | ⟨down, -, iff⟩
  · simp [Loop.hasNext, loop, up, iff]
  · simp [Loop.hasNext, loop, show ¬ 0 < l.step by omega, down, iff]

/-- The comparison holds in exactly the rounds the classification goes by. -/
theorem counts : l.Counts l.rounds := by
  have goes (j : Nat) : l.Goes (l.value j) ↔ j < l.rounds := by
    rcases static.value_iff with ⟨-, goes, iff⟩ | ⟨-, goes, iff⟩
    · exact (goes _).trans (iff j)
    · exact (goes _).trans (iff j)
  exact ⟨fun j less => (goes j).2 less, fun more => Nat.lt_irrefl _ ((goes _).1 more)⟩

/-- As long as the loop goes round, its next index is in range. -/
theorem fits_value_succ (start : Word.Fits l.start) (less : j < l.rounds) : Word.Fits (l.value (j + 1)) := by
  have finish := static.next
  rw [value_succ]
  unfold Word.Fits at start finish ⊢
  rcases static.value_iff with ⟨up, -, iff⟩ | ⟨down, -, iff⟩
  · have inside := (iff j).2 less
    have moved : 0 ≤ (j : Int) * l.step := by positivity
    simp only [value] at inside ⊢
    omega
  · have inside := (iff j).2 less
    have moved : (j : Int) * l.step ≤ 0 := mul_nonpos_of_nonneg_of_nonpos (by positivity) down.le
    simp only [value] at inside ⊢
    omega

theorem advance_loop (start : Word.Fits l.start) (state : Loop.State) (less : j < l.rounds) :
    (l.loop state j).advance = l.loop state (j + 1) := by
  have fits := static.fits_value_succ start less
  rw [value_succ] at fits
  simp [Loop.advance, loop, Word.inRange?, value_succ, fits]

end Static

end Counter

end ChanFlow
