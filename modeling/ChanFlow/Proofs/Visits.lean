import ChanFlow.Proofs.Turn
import Mathlib.Data.Finset.Card
import Mathlib.Data.Int.Interval
import Mathlib.Data.Set.Finite.List
import Mathlib.Order.Interval.Set.Infinite

/-!
The visits a program has room for.

A visit is a block with the index values of the static loops around it. An index starts at a constant of the
program and stays in the range of integers, so there are finitely many visits with a bounded number of index
values.
-/
open List

namespace ChanFlow.Nest

open Ssa

theorem length_signature (n : Nest) : n.signature.length = n.loops.countP (·.isStatic) := by
  rw [signature, length_map, ← countP_eq_length_filter, countP_append, countP_reverse,
    Nat.add_comm, ← countP_append]
  rfl

theorem mem_signature {n : Nest} {i : Int} (member : i ∈ n.signature) : ∃ l ∈ n.loops, l.isStatic ∧
    l.index = i := by
  obtain ⟨l, kept, rfl⟩ := mem_map.1 member
  obtain ⟨inside, static⟩ := mem_filter.1 kept
  refine ⟨l, ?_, static, rfl⟩
  rw [loops, mem_cons]
  rcases mem_append.1 inside with outer | current
  · exact .inr (mem_reverse.1 outer)
  · exact .inl (mem_singleton.1 current)

/-- A loop is not static when it is entered, so entering a block adds no index value. -/
theorem length_signature_enter (n : Nest) (block : Nat) (role : Role) :
    (n.enter block role).1.signature.length ≤ n.signature.length := by
  have entering := n.entering_enter block role
  generalize (n.enter block role).1 = n' at entering ⊢
  rw [length_signature, length_signature]
  cases entering with
  | move state => exact Nat.le_refl (n.loops.countP (·.isStatic))
  | replace => simp [loops, countP_cons, entered, Loop.isStatic]
  | unconditional => simp [loops, countP_cons, Loop.isStatic]
  | push state => simp [loops, countP_cons, entered, Loop.isStatic]
  | pop around => simp [loops, countP_cons, around]

end ChanFlow.Nest

namespace ChanFlow.Analysis

open Ssa

variable {start step : Int}

/-- The constants among the values a phi merges. -/
def phiConstants (i : Instr) : List Int :=
  match i.action with
  | .define _ _ (.phi edges) => edges.filterMap (·.value.int?)
  | _ => []

/-- The blocks of all functions. -/
def allBlocks (p : Program) : List Block := p.functions.flatMap (·.blocks)

/-- The values the index of a loop can take: those of the range, and the constants of phis. -/
def Indices (p : Program) : Set Int :=
  { i | Word.Fits i ∨ i ∈ (allBlocks p).flatMap fun block => block.instrs.flatMap phiConstants }

theorem finite_indices (p : Program) : (Indices p).Finite :=
  (Set.finite_Icc Word.least Word.greatest).union (finite_toSet _)

/-- The visits with at most so many index values. -/
def Visits (p : Program) (bound : Nat) : Set BlockVisit :=
  { key | key.1 ∈ (allBlocks p).map (·.index) ∧ key.2.length ≤ bound ∧ ∀ i ∈ key.2, i ∈ Indices p }

theorem finite_visits (p : Program) (bound : Nat) : (Visits p bound).Finite := by
  have : Finite (Indices p) := (finite_indices p).to_subtype
  have lists := (finite_length_le (Indices p) bound).image (List.map Subtype.val)
  refine ((finite_toSet ((allBlocks p).map (·.index))).prod lists).subset ?_
  rintro ⟨block, indices⟩ ⟨known, short, ranged⟩
  exact ⟨known, indices.attachWith _ ranged, by simpa using short, attachWith_map_subtype_val ..⟩

/-- There is an end to different visits. -/
theorem exists_bound_visits (p : Program) (bound : Nat) :
    ∃ limit, ∀ keys : List BlockVisit, keys.Nodup → (∀ key ∈ keys, key ∈ Visits p bound) →
      keys.length ≤ limit := by
  refine ⟨(finite_visits p bound).toFinset.card, fun keys distinct known => ?_⟩
  rw [← toFinset_card_of_nodup distinct]
  refine Finset.card_le_card fun key member => ?_
  exact (finite_visits p bound).mem_toFinset.2 (known key (mem_toFinset.1 member))

/-! ### Indices along a walk -/

/-- A loop that counts, or may come to, counts with values a program has. -/
structure Ranged (p : Program) (l : Loop) : Prop where
  index : l.isStatic → l.index ∈ Indices p
  start : ∀ i, l.start = some i → i ∈ Indices p

section Ranged

variable {p : Program} {l : Loop}

theorem ranged_of_uncounted (bound : l.isStatic = false) (start : l.start = none) : Ranged p l :=
  ⟨fun static => by simp [bound] at static, fun i starts => by simp [start] at starts⟩

theorem Ranged.state (ranged : Ranged p l) (state : Loop.State) : Ranged p { l with state } :=
  ⟨ranged.index, ranged.start⟩

theorem Ranged.enter {n : Nest} (ranged : ∀ l ∈ n.loops, Ranged p l) (block : Nat) (role : Role) :
    ∀ l ∈ (n.enter block role).1.loops, Ranged p l :=
  Nest.forall_enter ranged (fun _ state kept => kept.state state) (fun _ => ranged_of_uncounted rfl rfl)
    (ranged_of_uncounted rfl rfl)

theorem Ranged.advance (ranged : Ranged p l) : Ranged p l.advance := by
  unfold Loop.advance
  split
  · exact ranged
  · split
    · next fits =>
      obtain ⟨inside, same⟩ := Option.ite_none_right_eq_some.1 fits
      exact ⟨fun _ => .inl (Option.some.inj same ▸ inside), ranged.start⟩
    · exact ⟨ranged.index, ranged.start⟩

theorem Ranged.noteIndex (ranged : Ranged p l) (known : start ∈ Indices p) (var : String) (step : Int) :
    Ranged p (l.noteIndex var start step) := by
  unfold Loop.noteIndex
  split
  · exact ⟨ranged.index, fun i eq => Option.some.inj eq ▸ known⟩
  · exact ranged

theorem start_of_verdict {x : Option String} {op : BinOp} {bound : Option Int} {maxUnroll : Nat} {last : Int}
    (verdict : l.verdict x op bound maxUnroll = .static start step last) : l.start = some start := by
  unfold Loop.verdict at verdict
  split at verdict
  · next range =>
    split at verdict
    · obtain ⟨rfl, -, -⟩ := Loop.Verdict.static.inj verdict
      simp only [Loop.range?, Option.bind_eq_bind, Option.bind_eq_some_iff] at range
      obtain ⟨_, -, _, -, start', known, _, -, _, -, range⟩ := range
      split at range
      · simp only [Option.bind_eq_some_iff] at range
        obtain ⟨_, -, _, -, _, -, same⟩ := range
        obtain ⟨rfl, -⟩ := Prod.mk.inj (Option.some.inj same)
        exact known
      · exact nomatch range
    · exact nomatch verdict
  · exact nomatch verdict

theorem Ranged.noteCondition (ranged : Ranged p l) (cond : String) (x : Option String) (op : BinOp)
    (bound : Option Int) (maxUnroll : Nat) : Ranged p (l.noteCondition cond x op bound maxUnroll) := by
  unfold Loop.noteCondition
  split
  · split
    · next verdict => exact ⟨fun _ => ranged.start _ (start_of_verdict verdict), ranged.start⟩
    · exact ⟨nofun, ranged.start⟩
  · exact ranged

theorem Ranged.settle (ranged : Ranged p l) : Ranged p l.settle := by
  unfold Loop.settle
  split
  · exact ⟨nofun, ranged.start⟩
  · exact ranged

end Ranged

theorem start_mem {f : Function} {phi : String} {edges : List PhiEdge}
    (found : indexCandidate? f phi edges = some (start, step)) : start ∈ edges.filterMap (·.value.int?) := by
  unfold indexCandidate? at found
  split at found
  · next entry back =>
    simp only [Option.bind_eq_bind, Option.bind_eq_some_iff] at found
    obtain ⟨start', int, _, -, _, -, _, -, same⟩ := found
    split at same
    · exact nomatch same
    · obtain ⟨rfl, -⟩ := Prod.mk.inj (Option.some.inj same)
      exact mem_filterMap.2 ⟨entry, mem_cons_self, int⟩
  · exact nomatch found

/-- Interpreting an instruction of the program keeps the current loop within its values. -/
theorem Turn.ranged {p : Program} {a : Activation} {arrival : Arrival} {block : Block} {i : Instr} {l : Loop}
    (turn : Turn a arrival i.action l) (inside : block ∈ allBlocks p) (one : i ∈ block.instrs)
    (ranged : Ranged p a.loops.current) : Ranged p l := by
  generalize action : i.action = act at turn
  cases turn with
  | stay => exact ranged
  | advance => exact ranged.advance
  | candidate _ found =>
    refine ranged.noteIndex (.inr ?_) _ _
    refine mem_flatMap.2 ⟨block, inside, mem_flatMap.2 ⟨i, one, ?_⟩⟩
    rw [phiConstants, action]
    exact start_mem found
  | comparison header maxUnroll => exact ranged.noteCondition _ _ _ _ maxUnroll
  | settle => exact ranged.settle

end ChanFlow.Analysis
