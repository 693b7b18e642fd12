import ChanFlow.Proofs.Counting

/-!
Which loops are static, and what walking a static loop visits.

A loop that counts from a constant by a constant is static exactly if its comparison bounds the index on the side
the index moves to, the numbers at the end of its range fit a word, and the comparison holds for few enough rounds.
Walking a static loop visits the values for which the comparison holds, in order, and never leaves the words.
-/
namespace ChanFlow

open Ssa

variable {step last : Int}

namespace Loop

/-- Taking down the index and moving it on for as long as the range has a next value: the indices taken down, and the
loop that is left. -/
inductive Walks : Loop → List Int → Loop → Prop where
  | done (l : Loop) (ended : l.hasNext = false) : Walks l [] l
  | next (l left : Loop) (visited : List Int) (more : l.hasNext = true) (walks : Walks l.advance visited left) :
      Walks l (l.index :: visited) left

theorem Walks.unique {l left left' : Loop} {visited visited' : List Int} (walks : Walks l visited left)
    (walks' : Walks l visited' left') : visited' = visited ∧ left' = left := by
  induction walks generalizing visited' left' with
  | done l ended =>
    cases walks' with
    | done => simp
    | next _ _ _ more => simp [ended] at more
  | next l left visited more walks ih =>
    cases walks' with
    | done _ ended => simp [more] at ended
    | next _ _ _ _ walks' => simp [ih walks']

/-- The last value a comparison with `bound` admits. -/
def admitted (op : BinOp) (bound : Int) : Int :=
  match op with
  | .lt => bound - 1
  | .gt => bound + 1
  | _ => bound

/-- The comparison `index op bound` holds of an index that starts at `start` and moves by `step` for
exactly `n` rounds. -/
structure Rounds (start step : Int) (op : BinOp) (bound : Int) (n : Nat) : Prop where
  holds : ∀ j < n, op.Holds (start + j * step) bound
  ends : ¬ op.Holds (start + n * step) bound

/-- What makes a loop static, said of its constants alone. -/
structure Unrollable (start step : Int) (op : BinOp) (bound : Int) (maxUnroll : Nat) : Prop where
  /-- The comparison bounds the index on the side it moves to. -/
  toward : (op = .lt ∨ op = .le) ∧ 0 < step ∨ (op = .gt ∨ op = .ge) ∧ step < 0
  last : Word.Fits (admitted op bound)
  beyond : Word.Fits (admitted op bound + step)
  distance : Word.Fits (if 0 < step then admitted op bound - start else start - admitted op bound)
  few : ∃ n ≤ maxUnroll, Rounds start step op bound n

theorem lastIndex?_eq_some_iff {bound : Int} {op : BinOp} (fits : Word.Fits bound) :
    lastIndex? step op bound = some last ↔
      ((op = .lt ∨ op = .le) ∧ 0 < step ∨ (op = .gt ∨ op = .ge) ∧ step < 0) ∧ Word.Fits last ∧
    last = admitted op bound := by
  cases op <;> simp [lastIndex?, admitted, Word.inRange?] <;> grind

/-- A step that moves counts the values on the way if it can measure it. -/
theorem isSome_iterations?_iff {start : Int} (moves : step ≠ 0) :
    (iterations? start step last).isSome ↔ Word.Fits (if 0 < step then last - start else start - last) := by
  unfold iterations? Word.inRange?
  rw [if_neg moves]
  generalize (if 0 < step then last - start else start - last) = span
  by_cases fits : Word.Fits span <;> simp [fits]

end Loop

namespace Counter

variable {l : Counter} {maxUnroll : Nat}

theorem counts_iff_rounds (n : Nat) : l.Counts n ↔ Loop.Rounds l.start l.step l.test l.bound n := by
  have goes (j : Nat) : l.Goes (l.value j) ↔ l.test.Holds (l.start + j * l.step) l.bound := l.goes_iff _
  constructor
  · rintro ⟨holds, ends⟩
    exact ⟨fun j less => (goes j).1 (holds j less), fun more => ends ((goes n).2 more)⟩
  · rintro ⟨holds, ends⟩
    exact ⟨fun j less => (goes j).2 (holds j less), fun more => ends ((goes n).1 more)⟩

theorem Static.last_eq (static : l.Static maxUnroll) (bound : Word.Fits l.bound) :
    l.last = Loop.admitted l.test l.bound :=
  ((Loop.lastIndex?_eq_some_iff bound).1 static.last).2.2

theorem Static.unrollable (static : l.Static maxUnroll) (bound : Word.Fits l.bound) :
    Loop.Unrollable l.start l.step l.test l.bound maxUnroll := by
  obtain ⟨toward, last, same⟩ := (Loop.lastIndex?_eq_some_iff bound).1 static.last
  have measured : (Loop.iterations? l.start l.step l.last).isSome := by simp [static.rounds]
  rw [Loop.isSome_iterations?_iff static.step_ne_zero] at measured
  rw [same] at last measured
  have next := static.next
  rw [same] at next
  exact ⟨toward, last, next, measured, l.rounds, static.few, (l.counts_iff_rounds _).1 static.counts⟩

/-- The classification counts the rounds, so a loop that goes round few enough times passes for static. -/
theorem static_of_unrollable (unrollable : Loop.Unrollable l.start l.step l.test l.bound maxUnroll)
    (bound : Word.Fits l.bound) : l.Static maxUnroll := by
  have moves : l.step ≠ 0 := by
    have toward := unrollable.toward
    omega
  have found := (Loop.lastIndex?_eq_some_iff bound).2 ⟨unrollable.toward, unrollable.last, rfl⟩
  have last : l.last = Loop.admitted l.test l.bound := by simp [Counter.last, found]
  obtain ⟨count, counted⟩ := Option.isSome_iff_exists.1 ((Loop.isSome_iterations?_iff moves).2 unrollable.distance)
  rw [← last] at found counted
  have rounds : Loop.iterations? l.start l.step l.last = some l.rounds := by simp [Counter.rounds, counted]
  have next : Word.Fits (l.last + l.step) := last ▸ unrollable.beyond
  -- Without the limit the loop is static, and then its rounds are those for which the comparison holds.
  have unlimited : l.Static l.rounds := ⟨found, next, rounds, Nat.le_refl _⟩
  obtain ⟨n, few, holds⟩ := unrollable.few
  have same := unlimited.counts.unique ((l.counts_iff_rounds n).2 holds)
  exact ⟨found, next, rounds, same ▸ few⟩

theorem Static.classified (static : l.Static maxUnroll) : l.classified maxUnroll = l.loop .enter 0 := by
  simp [Counter.classified, Loop.noteIndex, Loop.noteCondition, Loop.verdict, Loop.range?, Nest.entered, static.last,
    static.next, static.rounds, static.few, Word.inRange?, Counter.loop, Counter.value]

theorem classified_bound : (l.classified maxUnroll).bound = .static ∨ (l.classified maxUnroll).bound = .dynamic := by
  have unknown : ((Nest.entered l.header).noteIndex l.index l.start l.step).bound = .unknown := rfl
  unfold classified Loop.noteCondition
  rw [if_pos unknown]
  split <;> simp

/-- From any round on, walking visits the values of the rounds that are left. -/
theorem Static.walks (static : l.Static maxUnroll) (start : Word.Fits l.start) (state : Loop.State) (more j : Nat)
    (total : j + more = l.rounds) :
    (l.loop state j).Walks ((List.range' j more).map l.value) (l.loop state l.rounds) := by
  induction more generalizing j with
  | zero =>
    obtain rfl : j = l.rounds := by omega
    exact .done _ (by simp [static.hasNext_loop])
  | succ more ih =>
    have less : j < l.rounds := by omega
    refine .next _ _ _ (by simp [static.hasNext_loop, less]) ?_
    rw [static.advance_loop start state less]
    exact ih (j + 1) (by omega)

/-- Up to the one after its last, the values of the index are words. -/
theorem Static.fits_value (static : l.Static maxUnroll) (start : Word.Fits l.start) :
    ∀ j ≤ l.rounds, Word.Fits (l.value j)
  | 0, _ => by simpa [value] using start
  | _ + 1, within => static.fits_value_succ start within

end Counter

namespace Loop

/-- A loop just entered whose index moves from `start` by `step`, and whose comparison is `index op bound`. -/
def counting (header : Nat) (var cond : String) (start step : Int) (op : BinOp) (bound : Int)
    (maxUnroll : Nat) : Loop :=
  ((Nest.entered header).noteIndex var start step).noteCondition cond (some var) op (some bound) maxUnroll

/-- A counting loop is static exactly if its constants make it unrollable, and dynamic otherwise. 
Walking it when it is static visits the values for which the comparison holds, as many as the
classification counts, and then ends with the range kept. -/
theorem counting_static_iff_and_walks (header : Nat) (var cond : String) {start bound : Int} (step : Int) (op : BinOp)
    (maxUnroll : Nat) (startFits : Word.Fits start) (boundFits : Word.Fits bound) :
    let l := counting header var cond start step op bound maxUnroll
    (l.bound = .static ↔ Unrollable start step op bound maxUnroll) ∧
      (l.bound ≠ .static → l.bound = .dynamic) ∧
    (l.bound = .static → ∃ n, Rounds start step op bound n ∧
      iterations? start step (admitted op bound) = some n ∧ (∀ j ≤ n, Word.Fits (start + j * step)) ∧
      ∀ visited left, l.Walks visited left ↔
        visited = (List.range n).map (fun j : Nat => start + j * step) ∧
          left = { l with index := start + n * step }) := by
  let l : Counter :=
    { header, body := 0, done := 0, index := var, indexTy := .func, cond, condTy := .func, next := var, nextTy := .func,
      start, step, op, bound, swapped := false }
  change ((l.classified maxUnroll).bound = .static ↔ _) ∧ ((l.classified maxUnroll).bound ≠ .static → _) ∧
    ((l.classified maxUnroll).bound = .static → _)
  refine ⟨⟨fun static => ?_, fun unrollable => ?_⟩, l.classified_bound.resolve_left, fun static => ?_⟩
  · exact (Counter.static_of_classified (by simpa [isStatic] using static)).1.unrollable boundFits
  · rw [(Counter.static_of_unrollable unrollable boundFits).classified]
    rfl
  · obtain ⟨counts, classified⟩ := Counter.static_of_classified (l := l) (by simpa [isStatic] using static)
    have rounds := counts.rounds
    rw [counts.last_eq boundFits] at rounds
    have walks := counts.walks startFits .enter l.rounds 0 (by omega)
    rw [← List.range_eq_range'] at walks
    refine ⟨l.rounds, (l.counts_iff_rounds _).1 counts.counts, rounds, counts.fits_value startFits, ?_⟩
    intro visited left
    rw [show counting header var cond start step op bound maxUnroll = l.loop .enter 0 from classified]
    constructor
    · exact walks.unique
    · rintro ⟨rfl, rfl⟩
      exact walks

/-- At the far end of the words: counting down by the least of them from the greatest. -/
theorem counting_down_from_greatest :
    Word.Fits Word.greatest ∧ Word.Fits 0 ∧
      (counting 1 "i" "c" Word.greatest Word.least .gt 0 1).bound = .static ∧
    ∃ n, Rounds Word.greatest Word.least .gt 0 n ∧ iterations? Word.greatest Word.least 1 = some n := by
  have fits : Word.Fits Word.greatest ∧ Word.Fits 0 := by decide
  have static : (counting 1 "i" "c" Word.greatest Word.least .gt 0 1).bound = .static := by decide
  obtain ⟨n, rounds, count, -⟩ :=
    (counting_static_iff_and_walks 1 "i" "c" Word.least .gt 1 fits.1 fits.2).2.2 static
  exact ⟨fits.1, fits.2, static, n, rounds, count⟩

end Loop

end ChanFlow
