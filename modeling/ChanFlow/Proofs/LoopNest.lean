import ChanFlow.Analysis.Merges
import ChanFlow.Proofs.Linked
import ChanFlow.Proofs.Tours

/-!
Functions that are one perfect nest of counted loops.

The first block creates channels and leads to the outermost header. A header compares its index with a constant;
the body of a loop leads to the next loop inside, whose way out counts on and leads back. Only the innermost body
and the end use the channels.
-/
open List

namespace ChanFlow

open Ssa

variable {b : Nat} {role : Role} {first : List Instr} {block : Block} {l : Counter} {inner : List Counter} {i : Instr}
  {x : String}

/-- Sends to, receives from or closes one of these channels. -/
def ChanOp.Uses (chans : List String) : ChanOp → Prop
  | newChan _ _ => False
  | send chan | recv chan | close chan => chan ∈ chans

/-- The edges of the phi of the index: its start, and its value for the next round. -/
def Counter.edges (l : Counter) (entry back : Nat) : List PhiEdge :=
  [⟨entry, .const (.int l.start)⟩, ⟨back, .var l.next⟩]

namespace Analysis

/-- A block in its part: it has these instructions first, and then instructions with these actions. -/
def Lays (f : Function) (b : Nat) (role : Role) (first : List Instr) (rest : List Action) : Prop :=
  ∃ block ends, f.block? b = some block ∧ block.role = role ∧ block.instrs = first ++ ends ∧
    ends.map (·.action) = rest

/-- The phi of the index, its comparison and the branch on it. -/
def headerActions (l : Counter) (entry back : Nat) : List Action := [
  .define l.index l.indexTy (.phi (l.edges entry back)),
  .define l.cond l.condTy l.comparison,
  .perform (.branch (.var l.cond) l.body l.done)]

/-- Adds the step to the index and goes back to the header. -/
def backActions (l : Counter) : List Action := [
  .define l.next l.nextTy (.binary .add (.var l.index) (.const (.int l.step))),
  .perform (.jump l.header)]

/-- Loops inside of one another, the outermost first, which is reached from block `entry`. -/
def Nested (f : Function) (work : List Instr) : Nat → List Counter → Prop
  | _, [] => True
  | entry, [l] =>
    Lays f l.header .loopHeader [] (headerActions l entry l.body) ∧ Lays f l.body .loopBody work (backActions l)
  | entry, l :: l' :: inner =>
    Lays f l.header .loopHeader [] (headerActions l entry l'.done) ∧
      Lays f l.body .loopBody [] [.perform (.jump l'.header)] ∧ Lays f l'.done .loopDone [] (backActions l) ∧
      Nested f work l.body (l' :: inner)

/-- The names of the values defined by instructions. -/
def definedBy (is : List Instr) : List String := is.filterMap (·.name?)

structure PerfectNest (f : Function) (l : Counter) (inner : List Counter) (makes work final : List Instr) : Prop where
  linked : f.Linked
  entry : Lays f 0 .plain makes [.perform (.jump l.header)]
  nested : Nested f work 0 (l :: inner)
  leaves : ∃ results, Lays f l.done .loopDone final [.perform (.ret results)]
  /-- These are different blocks, -/
  apart : (0 :: (l :: inner).flatMap Counter.blocks).Nodup
  /-- and there are no others. -/
  only : ∀ b block, f.block? b = some block → b ∈ 0 :: (l :: inner).flatMap Counter.blocks
  names : (definedBy (f.blocks.flatMap (·.instrs))).Nodup
  creates : ∀ i ∈ makes, ∃ name capacity, i.chanOp? = some (.newChan name capacity)
  uses : ∀ i ∈ work ++ final, ∃ op, i.chanOp? = some op ∧ op.Uses (definedBy makes)
  starts : ∀ l' ∈ l :: inner, Word.Fits l'.start

variable {f : Function} {work : List Instr}

/-! ### Blocks -/

theorem Lays.succs (linked : f.Linked) (rest : List Action) {e : Effect}
    (lays : Lays f b role first (rest ++ [.perform e]))
    (found : f.block? b = some block) : block.succs = e.successors := by
  obtain ⟨block', ends, found', -, instrs, actions⟩ := lays
  obtain rfl := Option.mem_unique found found'
  obtain ⟨term, ending, succs, -⟩ := linked.terminator found
  obtain ⟨is, last, rfl, -, single⟩ := map_eq_append_iff.1 actions
  obtain ⟨i, rfl, action⟩ := map_eq_singleton_iff.1 single
  rw [BlockDraft.terminator?, instrs] at ending
  obtain ⟨last, -⟩ := Option.filter_eq_some_iff.1 ending
  obtain rfl : i = term := by simpa using last
  rw [succs, Instr.successors, action]

theorem Lays.mem_preds (linked : f.Linked) {t : Nat} (rest : List Action)
    (lays : Lays f b role first (rest ++ [.perform (.jump t)])) (found : f.block? t = some block) :
    b ∈ block.preds := by
  obtain ⟨source, ends, found', also⟩ := lays
  have succs := Lays.succs linked rest ⟨source, ends, found', also⟩ found'
  exact (linked.mem_preds found).2 ⟨source, found', by simp [succs, Effect.successors]⟩

/-! ### Names -/

theorem eq_of_name {is : List Instr} (names : (definedBy is).Nodup) {i' : Instr} (member : i ∈ is)
    (member' : i' ∈ is) (name : i.name? = some x) (name' : i'.name? = some x) : i = i' := by
  induction is with
  | nil => simp at member
  | cons first rest ih =>
    have later (i : Instr) (inside : i ∈ rest) (name : i.name? = some x) : x ∈ definedBy rest :=
      mem_filterMap.2 ⟨i, inside, name⟩
    rcases mem_cons.1 member with rfl | inside
    · rcases mem_cons.1 member' with rfl | inside'
      · rfl
      · rw [definedBy, filterMap_cons_some name, nodup_cons] at names
        exact absurd (later i' inside' name') names.1
    · rcases mem_cons.1 member' with rfl | inside'
      · rw [definedBy, filterMap_cons_some name', nodup_cons] at names
        exact absurd (later i inside name) names.1
      · refine ih ?_ inside inside'
        rw [definedBy, filterMap_cons] at names
        split at names
        · exact names
        · exact (nodup_cons.1 names).2

section

variable (names : (definedBy (f.blocks.flatMap (·.instrs))).Nodup)
include names

/-- Values of different blocks have different names. -/
theorem disjoint_names {b' : Nat} {block' : Block} (found : f.block? b = some block)
    (found' : f.block? b' = some block') (other : b ≠ b') :
    List.Disjoint (definedBy block.instrs) (definedBy block'.instrs) := by
  rw [definedBy, filterMap_flatMap, nodup_flatMap, pairwise_iff_getElem] at names
  obtain ⟨less, rfl⟩ := List.getElem?_eq_some_iff.1 found
  obtain ⟨less', rfl⟩ := List.getElem?_eq_some_iff.1 found'
  rcases Nat.lt_or_gt_of_ne other with before | after
  · exact names.2 b b' less less' before
  · exact (names.2 b' b less' less after).symm

theorem definition?_eq (found : f.block? b = some block)
    (member : i ∈ block.instrs) (name : i.name? = some x) : f.definition? x = some i := by
  have all : i ∈ f.blocks.flatMap (·.instrs) := mem_flatMap.2 ⟨block, mem_of_getElem? found, member⟩
  cases defined : f.definition? x with
  | none =>
    have absent := find?_eq_none.1 defined i (mem_reverse.2 all)
    simp [name] at absent
  | some i' =>
    have member' := mem_reverse.1 (mem_of_find?_eq_some defined)
    have name' : i'.name? = some x := by simpa using find?_some defined
    rw [eq_of_name names member' all name' name]

end

/-- The block a loop is entered from, by the loops around it. -/
def entryOf (around : Rounds) : Nat := (around.head?.map (·.1.body)).getD 0

/-- The block the way back to the header comes from. -/
def backOf (l : Counter) (inner : List Counter) : Nat := (inner.head?.map (·.done)).getD l.body

/-- All loops of a nest, seen from one of them. -/
def wholeNest (around : Rounds) (l : Counter) (inner : List Counter) : List Counter :=
  (around.map (·.1)).reverse ++ l :: inner

@[simp] theorem wholeNest_cons (around : Rounds) (l l' : Counter) (j : Nat) (inner : List Counter) :
    wholeNest ((l, j) :: around) l' inner = wholeNest around l (l' :: inner) := by simp [wholeNest]

theorem nested_at {around : Rounds} (nested : Nested f work 0 (wholeNest around l inner)) :
    Nested f work (entryOf around) (l :: inner) := by
  induction around generalizing l inner with
  | nil => exact nested
  | cons r around ih =>
    obtain ⟨l', j⟩ := r
    rw [wholeNest_cons] at nested
    exact (ih nested).2.2.2

theorem Nested.header {entry : Nat} (nested : Nested f work entry (l :: inner)) :
    Lays f l.header .loopHeader [] (headerActions l entry (backOf l inner)) := by
  cases inner with
  | nil => exact nested.1
  | cons l' inner => exact nested.1

namespace PerfectNest

variable {l : Counter} {inner : List Counter} {makes final : List Instr} (nest : PerfectNest f l inner makes work final)
  {around : Rounds} {l' : Counter} {inner' : List Counter}

theorem exists_around {ls : List Counter} (member : l' ∈ ls) :
    ∃ around inner', ls = wholeNest around l' inner' := by
  obtain ⟨before, after, rfl⟩ := append_of_mem member
  refine ⟨(before.map (·, 0)).reverse, after, ?_⟩
  simp [wholeNest, Function.comp_def]

include nest

theorem blocks_ne_zero (member : l' ∈ l :: inner) (here : b ∈ l'.blocks) : b ≠ 0 := by
  rintro rfl
  exact (nodup_cons.1 nest.apart).1 (mem_flatMap.2 ⟨l', member, here⟩)

theorem own_blocks (member : l' ∈ l :: inner) : l'.header ≠ l'.body ∧ l'.header ≠ l'.done ∧
    l'.body ≠ l'.done := by
  have own := (nodup_flatMap.1 (nodup_cons.1 nest.apart).2).1 l' member
  simpa [Counter.blocks, and_assoc] using own

theorem eq_of_mem_blocks {l'' : Counter} (member : l' ∈ l :: inner) (member' : l'' ∈ l :: inner)
    (here : b ∈ l'.blocks) (here' : b ∈ l''.blocks) : l' = l'' := by
  by_contra different
  have apart := (nodup_flatMap.1 (nodup_cons.1 nest.apart).2).2
  have symmetric : Std.Symm (Function.onFun List.Disjoint Counter.blocks) := ⟨fun _ _ disjoint => disjoint.symm⟩
  have disjoint := apart.forall member member' different
  exact disjoint here here'

/-- A header leads to its body and out of the loop; all other blocks lead to headers. -/
theorem succs_cases (found : f.block? b = some block) :
    (∃ l' ∈ l :: inner, b = l'.header ∧ block.succs = [l'.body, l'.done]) ∨
      ∀ t ∈ block.succs, ∃ l' ∈ l :: inner, t = l'.header := by
  have leads {e : Effect} {l' : Counter} (member : l' ∈ l :: inner) (jumps : e.successors = [l'.header])
      (succs : block.succs = e.successors) : ∀ t ∈ block.succs, ∃ l' ∈ l :: inner, t = l'.header := by
    intro t edge
    rw [succs, jumps] at edge
    exact ⟨l', member, mem_singleton.1 edge⟩
  rcases mem_cons.1 (nest.only b block found) with rfl | place
  · exact .inr (leads mem_cons_self rfl (Lays.succs nest.linked [] nest.entry found))
  obtain ⟨l', member, here⟩ := mem_flatMap.1 place
  obtain ⟨around, inner', whole⟩ := exists_around member
  have nested := nested_at (whole ▸ nest.nested)
  simp only [Counter.blocks, mem_cons, not_mem_nil, or_false] at here
  rcases here with rfl | rfl | rfl
  · exact .inl ⟨l', member, rfl, Lays.succs nest.linked [_, _] nested.header found⟩
  · refine .inr ?_
    cases inner' with
    | nil => exact leads member rfl (Lays.succs nest.linked [_] nested.2 found)
    | cons l'' inner' =>
      have member' : l'' ∈ l :: inner := by simp [whole, wholeNest]
      exact leads member' rfl (Lays.succs nest.linked [] nested.2.1 found)
  · refine .inr ?_
    cases around with
    | nil =>
      obtain ⟨rfl, -⟩ := List.cons.inj whole
      obtain ⟨results, lays⟩ := nest.leaves
      have succs := Lays.succs nest.linked [] lays found
      intro t edge
      simp [succs, Effect.successors] at edge
    | cons r around =>
      obtain ⟨l'', j⟩ := r
      have member' : l'' ∈ l :: inner := by simp [whole, wholeNest]
      rw [wholeNest_cons] at whole
      have nested := nested_at (whole ▸ nest.nested)
      exact leads member' rfl (Lays.succs nest.linked [_] nested.2.2.1 found)

/-- Control comes to a body, and out of a loop, from the header only. -/
theorem not_isMergePoint (member : l' ∈ l :: inner) (here : b = l'.body ∨ b = l'.done)
    (found : f.block? b = some block) : block.isMergePoint = false := by
  have inside : b ∈ l'.blocks := by rcases here with rfl | rfl <;> simp [Counter.blocks]
  have other : b ≠ l'.header := by
    obtain ⟨first, second, -⟩ := nest.own_blocks member
    rcases here with rfl | rfl
    · exact first.symm
    · exact second.symm
  have only : ∀ p ∈ block.preds, p = l'.header := by
    intro p pred
    obtain ⟨source, found', edge⟩ := (nest.linked.mem_preds found).1 pred
    rcases nest.succs_cases found' with ⟨l'', member', rfl, succs⟩ | leads
    · have inside' : b ∈ l''.blocks := by
        rw [succs] at edge
        simp only [Counter.blocks, mem_cons] at edge ⊢
        tauto
      rw [nest.eq_of_mem_blocks member member' inside inside']
    · obtain ⟨l'', member', rfl⟩ := leads b edge
      obtain rfl := nest.eq_of_mem_blocks member member' inside (by simp [Counter.blocks])
      exact absurd rfl other
  have inHeader : block.preds ⊆ [l'.header] := fun p pred => mem_singleton.2 (only p pred)
  have few : block.preds.length ≤ 1 := ((nest.linked.nodup_preds found).subperm inHeader).length_le
  have index : block.index ≠ 0 := by
    rw [nest.linked.index_eq found]
    exact nest.blocks_ne_zero member inside
  simpa [Block.isMergePoint, index] using few

omit nest in
theorem backOf_mem : backOf l' inner' ∈ (l' :: inner').flatMap Counter.blocks := by
  cases inner' <;> simp [backOf, Counter.blocks]

section

variable (whole : l :: inner = wholeNest around l' inner')
include whole

theorem backOf_ne_zero : backOf l' inner' ≠ 0 := by
  intro same
  refine (nodup_cons.1 nest.apart).1 ?_
  rw [whole, wholeNest, flatMap_append, mem_append, ← same]
  exact .inr backOf_mem

theorem entryOf_ne_backOf : entryOf around ≠ backOf l' inner' := by
  have back : backOf l' inner' ∈ (l' :: inner').flatMap Counter.blocks := backOf_mem
  have apart := nest.apart
  rw [whole] at apart
  cases around with
  | nil => exact (nest.backOf_ne_zero whole).symm
  | cons r around =>
    obtain ⟨outer, j⟩ := r
    rw [wholeNest_cons, wholeNest, flatMap_append, flatMap_cons] at apart
    have disjoint := (nodup_append.1 (nodup_append.1 (nodup_cons.1 apart).2).2.1).2.2
    exact disjoint outer.body (by simp [Counter.blocks]) _ back

theorem header_ne : ∀ r ∈ around, r.1.header ≠ l'.header := by
  intro r member
  have apart := (nodup_cons.1 nest.apart).2
  rw [whole, wholeNest, flatMap_append, nodup_append] at apart
  refine apart.2.2 r.1.header ?_ l'.header (by simp [Counter.blocks])
  refine mem_flatMap.2 ⟨r.1, mem_reverse.2 (mem_map_of_mem member), by simp [Counter.blocks]⟩

/-- A header is reached from outside and from its way back. -/
theorem isMergePoint_header (found : f.block? l'.header = some block) : block.isMergePoint = true := by
  have nested := nested_at (whole ▸ nest.nested)
  have entry : entryOf around ∈ block.preds := by
    cases around with
    | nil =>
      obtain ⟨rfl, -⟩ := List.cons.inj whole
      exact Lays.mem_preds nest.linked [] nest.entry found
    | cons r around =>
      obtain ⟨outer, j⟩ := r
      rw [wholeNest_cons] at whole
      have outside := nested_at (whole ▸ nest.nested)
      exact Lays.mem_preds nest.linked [] outside.2.1 found
  have back : backOf l' inner' ∈ block.preds := by
    cases inner' with
    | nil => exact Lays.mem_preds nest.linked [_] nested.2 found
    | cons l'' inner' => exact Lays.mem_preds nest.linked [_] nested.2.2.1 found
  have both : [entryOf around, backOf l' inner'] ⊆ block.preds := by simp [entry, back]
  have different : [entryOf around, backOf l' inner'].Nodup := by simpa using nest.entryOf_ne_backOf whole
  have several : 2 ≤ block.preds.length := (different.subperm both).length_le
  simp only [Block.isMergePoint, decide_eq_true_eq]
  omega

end

/-- No channel of the first block is defined elsewhere. -/
theorem not_mem_channels (found : f.block? b = some block) (other : b ≠ 0)
    (member : i ∈ block.instrs) (name : i.name? = some x) : x ∉ definedBy makes := by
  intro channel
  obtain ⟨first, ends, found', -, instrs, -⟩ := nest.entry
  have here : x ∈ definedBy first.instrs := by
    rw [instrs, definedBy, filterMap_append]
    exact mem_append_left _ channel
  exact disjoint_names nest.names found' found other.symm here (mem_filterMap.2 ⟨i, member, name⟩)

/-- The three instructions of a header. -/
theorem header_instrs (whole : l :: inner = wholeNest around l' inner') :
    ∃ block index cond last, f.block? l'.header = some block ∧ block.role = .loopHeader ∧
      block.instrs = [index, cond, last] ∧
      index.action = .define l'.index l'.indexTy (.phi (l'.edges (entryOf around) (backOf l' inner'))) ∧
      cond.action = .define l'.cond l'.condTy l'.comparison ∧
      last.action = .perform (.branch (.var l'.cond) l'.body l'.done) ∧
      l'.index ∉ definedBy makes ∧ l'.cond ∉ definedBy makes := by
  have member : l' ∈ l :: inner := by simp [whole, wholeNest]
  obtain ⟨block, instrs, found, role, eq, actions⟩ := (nested_at (whole ▸ nest.nested)).header
  obtain ⟨index, rest, rfl, isPhi, actions⟩ := map_eq_cons_iff.1 actions
  obtain ⟨cond, rest, rfl, compares, actions⟩ := map_eq_cons_iff.1 actions
  obtain ⟨last, rfl, branches⟩ := map_eq_singleton_iff.1 actions
  have other := nest.blocks_ne_zero member (b := l'.header) (by simp [Counter.blocks])
  refine ⟨block, index, cond, last, found, role, eq, isPhi, compares, branches, ?_, ?_⟩
  · exact nest.not_mem_channels found other (i := index) (by simp [eq]) (by rw [Instr.name?, isPhi])
  · exact nest.not_mem_channels found other (i := cond) (by simp [eq]) (by rw [Instr.name?, compares])

/-- The way back to a header adds the step of its loop. -/
theorem indexCandidate?_eq (whole : l :: inner = wholeNest around l' inner') (moves : l'.step ≠ 0)
    (entry back : Nat) :
    indexCandidate? f l'.index (l'.edges entry back) = some (l'.start, l'.step) := by
  have nested := nested_at (whole ▸ nest.nested)
  have lays : ∃ b role first, Lays f b role first (backActions l') := by
    cases inner' with
    | nil => exact ⟨_, _, _, nested.2⟩
    | cons l'' inner' => exact ⟨_, _, _, nested.2.2.1⟩
  obtain ⟨b, role, first, block, ends, found, -, instrs, actions⟩ := lays
  obtain ⟨i, rest, rfl, action, -⟩ := map_eq_cons_iff.1 actions
  have defined : f.definition? l'.next = some i :=
    definition?_eq nest.names found (by simp [instrs]) (by rw [Instr.name?, action])
  have step : i.op?.bind (stepOf? l'.index) = some l'.step := by
    rw [Instr.op?, action]
    simp [stepOf?, Operand.var?, Operand.int?, Literal.int?]
  simp [indexCandidate?, Counter.edges, Operand.int?, Literal.int?, Operand.var?, defined, step, moves]

end PerfectNest

end Analysis

end ChanFlow
