import ChanFlow.Ssa.Program

/-!
What linking guarantees: every block stands at its index and ends in a terminator, its successors are
those of the terminator and exist, and its predecessors are the blocks that have it as a successor.
-/
open List

namespace ChanFlow.Ssa

variable {i : Nat} {b : Block}

/-- A function as it is written. -/
def Function.draft (f : Function) : Draft := ⟨f.toSignature, f.blocks.map (·.toBlockDraft)⟩

def Function.Linked (f : Function) : Prop := ∃ d : Draft, d.link = .ok f

/-- The blocks that the end of a block names, in branch order. -/
def BlockDraft.targets (b : BlockDraft) : List Nat := b.terminator?.elim [] (·.successors)

/-- A draft without any of the faults that keep it from being linked. -/
structure Draft.Sound (d : Draft) : Prop where
  order : ∀ (i : Nat) b, d.blocks[i]? = some b → b.index = i
  ends : ∀ b ∈ d.blocks, b.terminator?.isSome
  inside : ∀ b ∈ d.blocks, ∀ t ∈ b.targets, t < d.blocks.length

namespace Draft

/-- A block of a draft with the edges it has in it. -/
def place (d : Draft) (b : BlockDraft) : Block where
  toBlockDraft := b
  preds := (predecessors (d.blocks.map (·.targets)))[b.index]?.getD []
  succs := b.targets

/-- The function that a draft is linked to. -/
def linked (d : Draft) : Function := ⟨d.toSignature, d.blocks.map d.place⟩

theorem getElem?_enlist (preds : List (List Nat)) (b : Nat) (ss : List Nat) (t : Nat) :
    (enlist preds b ss)[t]? = preds[t]?.map fun ps => if t ∈ ss ∧ b ∉ ps then ps ++ [b] else ps := by
  unfold enlist
  induction ss generalizing preds with
  | nil => simp
  | cons s rest ih =>
    rw [foldl_cons, ih, getElem?_modify]
    cases preds[t]? with
    | none => rfl
    | some ps =>
      by_cases here : t = s <;> by_cases listed : b ∈ ps <;> simp [here, listed, eq_comm (a := s)]

/-- A pass over the blocks from `start` on appends to the list of a block those that name it. That each comes once is
owed to the order of the pass: what the list holds before are earlier blocks. -/
theorem getElem?_enlistAll (succs : List (List Nat)) (start t : Nat) (preds : List (List Nat))
    (earlier : ∀ ps ∈ preds[t]?, ∀ b ∈ ps, b < start) :
    ((succs.zipIdx start).foldl (fun preds (ss, b) => enlist preds b ss) preds)[t]? =
      preds[t]?.map (· ++ ((succs.zipIdx start).filter (t ∈ ·.1)).map (·.2)) := by
  induction succs generalizing start preds with
  | nil => simp
  | cons ss rest ih =>
    rw [zipIdx_cons, foldl_cons, ih, getElem?_enlist, Option.map_map]
    · cases found : preds[t]? with
      | none => rfl
      | some ps =>
        have new : start ∉ ps := fun listed => Nat.lt_irrefl _ (earlier ps found _ listed)
        by_cases named : t ∈ ss <;> simp [named, new]
    · intro ps found b member
      rw [getElem?_enlist] at found
      obtain ⟨old, held, rfl⟩ := Option.map_eq_some_iff.1 found
      have before := earlier old held b
      split at member
      · rcases mem_append.1 member with old | last
        · exact Nat.lt_succ_of_lt (before old)
        · exact mem_singleton.1 last ▸ Nat.lt_succ_self _
      · exact Nat.lt_succ_of_lt (before member)

/-- The predecessors of a block are those blocks that have it as a successor, in increasing order. -/
theorem getElem?_predecessors (succs : List (List Nat)) {t : Nat} (inside : t < succs.length) :
    (predecessors succs)[t]? = some ((succs.zipIdx.filter (t ∈ ·.1)).map (·.2)) := by
  have blank : (replicate succs.length ([] : List Nat))[t]? = some [] := by simp [inside]
  rw [predecessors, getElem?_enlistAll _ _ _ _ (by simp [blank]), blank]
  rfl

theorem checkOrder_eq_ok (name : String) (start : Nat) (drafts : List BlockDraft) :
    checkOrder name start drafts = .ok () ↔ ∀ (i : Nat) b, drafts[i]? = some b → b.index = start + i := by
  induction drafts generalizing start with
  | nil => simp [checkOrder]
  | cons first rest ih =>
    unfold checkOrder
    split
    · next here =>
      rw [ih]
      refine ⟨fun later i b found => ?_, fun all i b found => ?_⟩
      · cases i with
        | zero =>
          obtain rfl : first = b := by simpa using found
          exact here
        | succ i =>
          have index := later i b (by simpa using found)
          omega
      · have index := all (i + 1) b (by simpa using found)
        omega
    · next elsewhere => exact ⟨nofun, fun all => absurd (all 0 first rfl) elsewhere⟩

theorem successors_eq_ok (name : String) (count : Nat) (b : BlockDraft) (ss : List Nat) :
    successors name count b = .ok ss ↔
      (b.terminator?.isSome ∧ ∀ t ∈ b.targets, t < count) ∧ ss = b.targets := by
  unfold successors BlockDraft.targets
  cases b.terminator? with
  | none => simp
  | some term =>
    cases missing : term.successors.find? (count ≤ ·) with
    | some t =>
      have member := mem_of_find?_eq_some missing
      have outside := find?_some missing
      simp only [decide_eq_true_eq] at outside
      simp only [missing, reduceCtorEq, false_iff, not_and]
      exact fun good => absurd (good.2 t member) (Nat.not_lt.2 outside)
    | none =>
      have inside : ∀ t ∈ term.successors, t < count := by simpa using missing
      simp only [missing, Option.isSome_some, Option.elim_some, Except.ok.injEq, true_and]
      exact ⟨fun same => ⟨inside, same.symm⟩, fun good => good.2.symm⟩

theorem mapM_eq_ok {α β ε : Type} {f : α → Except ε β} {holds : α → Prop} {g : α → β}
    (each : ∀ a b, f a = .ok b ↔ holds a ∧ b = g a) (as : List α) (bs : List β) :
    as.mapM f = .ok bs ↔ (∀ a ∈ as, holds a) ∧ bs = as.map g := by
  induction as generalizing bs with
  | nil => simp [pure, Except.pure, eq_comm]
  | cons a rest ih =>
    rw [mapM_cons]
    cases here : f a with
    | error e =>
      have fails : ¬ holds a := fun good => nomatch here.symm.trans ((each a (g a)).2 ⟨good, rfl⟩)
      simp [bind, Except.bind, fails]
    | ok b =>
      obtain ⟨good, rfl⟩ := (each a b).1 here
      cases later : rest.mapM f with
      | error e =>
        have fails : ¬ ∀ a ∈ rest, holds a := fun all => nomatch later.symm.trans ((ih _).2 ⟨all, rfl⟩)
        simp only [bind, Except.bind, reduceCtorEq, false_iff, forall_mem_cons, not_and]
        exact fun all => absurd all.2 fails
      | ok bs' =>
        obtain ⟨all, rfl⟩ := (ih bs').1 later
        simp only [bind, Except.bind, pure, Except.pure, Except.ok.injEq, forall_mem_cons, map_cons]
        exact ⟨fun same => ⟨⟨good, all⟩, same.symm⟩, fun known => known.2.symm⟩

theorem link_eq_ok {d : Draft} {f : Function} : d.link = .ok f ↔ d.Sound ∧ f = d.linked := by
  have order := checkOrder_eq_ok d.name 0 d.blocks
  have ends := mapM_eq_ok (successors_eq_ok d.name d.blocks.length) d.blocks
  simp only [Nat.zero_add] at order
  unfold link
  constructor
  · intro link
    cases ordered : checkOrder d.name 0 d.blocks with
    | error e => simp [ordered, bind, Except.bind] at link
    | ok u =>
      cases found : d.blocks.mapM (successors d.name d.blocks.length) with
      | error e => simp [ordered, found, bind, Except.bind] at link
      | ok succs =>
        obtain ⟨all, rfl⟩ := (ends succs).1 found
        refine ⟨⟨order.1 ordered, fun b member => (all b member).1, fun b member => (all b member).2⟩, ?_⟩
        simp only [ordered, found, bind, Except.bind, pure, Except.pure, Except.ok.injEq] at link
        rw [← link, zipWith_map_right, zipWith_self, linked]
        rfl
  · rintro ⟨sound, rfl⟩
    rw [order.2 sound.order, (ends _).2 ⟨fun b member => ⟨sound.ends b member, sound.inside b member⟩, rfl⟩]
    simp only [bind, Except.bind, pure, Except.pure, zipWith_map_right, zipWith_self]
    rfl

theorem block?_linked {d : Draft} (found : d.linked.block? i = some b) :
    ∃ draft, d.blocks[i]? = some draft ∧ d.place draft = b :=
  Option.map_eq_some_iff.1 ((getElem?_map ..).symm.trans found)

theorem draft_linked (d : Draft) : d.linked.draft = d := by
  simp [linked, Function.draft, place, Function.comp_def]

end Draft

namespace Function.Linked

variable {f : Function}

section

variable (linked : f.Linked)
include linked

theorem drafted : ∃ d : Draft, d.Sound ∧ f = d.linked :=
  linked.imp fun _ link => Draft.link_eq_ok.1 link

theorem index_eq (found : f.block? i = some b) : b.index = i := by
  obtain ⟨d, sound, rfl⟩ := linked.drafted
  obtain ⟨draft, here, rfl⟩ := Draft.block?_linked found
  exact sound.order i draft here

/-- A block ends in a terminator, and goes on where that says. -/
theorem terminator (found : f.block? i = some b) :
    ∃ term, b.terminator? = some term ∧ b.succs = term.successors ∧ ∀ t ∈ b.succs, t < f.blocks.length := by
  obtain ⟨d, sound, rfl⟩ := linked.drafted
  obtain ⟨draft, here, rfl⟩ := Draft.block?_linked found
  have inside := mem_of_getElem? here
  obtain ⟨term, ends⟩ := Option.isSome_iff_exists.1 (sound.ends draft inside)
  refine ⟨term, ends, by simp [Draft.place, BlockDraft.targets, ends], fun t member => ?_⟩
  simpa [Draft.linked] using sound.inside draft inside t member

theorem preds_eq (found : f.block? i = some b) :
    b.preds = ((f.blocks.map (·.succs)).zipIdx.filter (i ∈ ·.1)).map (·.2) := by
  obtain rfl := linked.index_eq found
  obtain ⟨d, sound, rfl⟩ := linked.drafted
  obtain ⟨draft, here, rfl⟩ := Draft.block?_linked found
  have inside : draft.index < (d.blocks.map (·.targets)).length := by
    rw [length_map, sound.order _ draft here]
    exact (List.getElem?_eq_some_iff.1 here).1
  simp only [Draft.place, Draft.getElem?_predecessors _ inside, Option.getD_some, Draft.linked, map_map]
  rfl

theorem mem_preds {p : Nat} (found : f.block? i = some b) :
    p ∈ b.preds ↔ ∃ q, f.block? p = some q ∧ i ∈ q.succs := by
  simp only [linked.preds_eq found, mem_map, mem_filter, mem_zipIdx_iff_getElem?, getElem?_map, decide_eq_true_eq,
    Option.map_eq_some_iff, block?, Prod.exists]
  exact ⟨fun ⟨_, _, ⟨⟨q, there, rfl⟩, named⟩, rfl⟩ => ⟨q, there, named⟩,
    fun ⟨q, there, named⟩ => ⟨_, p, ⟨⟨q, there, rfl⟩, named⟩, rfl⟩⟩

theorem sorted_preds (found : f.block? i = some b) : b.preds.Pairwise (· < ·) := by
  rw [linked.preds_eq found]
  refine Pairwise.sublist (filter_sublist.map _) ?_
  rw [zipIdx_map_snd]
  exact pairwise_lt_range'

theorem nodup_preds (found : f.block? i = some b) : b.preds.Nodup :=
  (linked.sorted_preds found).imp Nat.ne_of_lt

end

end Function.Linked

/-- The definition of a value is the last instruction that has it as its result. -/
theorem Function.definition?_eq_some {f : Function} {value : String} {i : Instr} :
    f.definition? value = some i ↔ i.name? = some value ∧ ∃ before after,
      f.blocks.flatMap (·.instrs) = before ++ i :: after ∧ ∀ j ∈ after, j.name? ≠ some value := by
  rw [definition?, find?_eq_some_iff_append, decide_eq_true_eq]
  refine and_congr_right fun _ => ⟨?_, ?_⟩
  · rintro ⟨after, before, split, last⟩
    refine ⟨before.reverse, after.reverse, by simpa using congrArg List.reverse split, fun j member => ?_⟩
    simpa using last j (mem_reverse.1 member)
  · rintro ⟨before, after, split, last⟩
    refine ⟨after.reverse, before.reverse, by simp [split], fun j member => ?_⟩
    simpa using last j (mem_reverse.1 member)

/-- The control flow of a function is what the ends of its blocks say. -/
structure Function.Graph (f : Function) : Prop where
  succs : ∀ i b, f.block? i = some b → ∃ term, b.terminator? = some term ∧ b.succs = term.successors
  sorted : ∀ i b, f.block? i = some b → b.preds.Pairwise (· < ·)
  preds : ∀ i b, f.block? i = some b → ∀ p, p ∈ b.preds ↔ ∃ q, f.block? p = some q ∧ i ∈ q.succs

namespace Program

/-- The program that is there after a function was to be added. -/
def after (p : Program) (d : Draft) : Program := (p.addFunction d).toOption.getD p

theorem addFunction_eq_ok {p q : Program} {d : Draft} : p.addFunction d = .ok q ↔
    (p.function? d.name = none ∧ d.Sound) ∧ q = { p with functions := p.functions ++ [d.linked] } := by
  unfold addFunction
  cases known : p.function? d.name with
  | some f => simp
  | none =>
    cases link : d.link with
    | error cause =>
      have fault : ¬ d.Sound := fun sound => nomatch link.symm.trans (Draft.link_eq_ok.2 ⟨sound, rfl⟩)
      simp [fault]
    | ok f =>
      obtain ⟨sound, rfl⟩ := Draft.link_eq_ok.1 link
      simp only [Option.isSome_none, Bool.false_eq_true, if_false, Except.ok.injEq, sound, true_and]
      exact eq_comm

/-- A function is added when its name is new and its draft is sound, and then its control flow is derived from its
blocks. Otherwise the program stays as it is. -/
theorem addFunction_exact (p : Program) (d : Draft) :
    ((∃ q, p.addFunction d = .ok q) ↔ p.function? d.name = none ∧ d.Sound) ∧
      (∀ q, p.addFunction d = .ok q → p.after d = q ∧ ∃ f : Function, f.draft = d ∧ f.Graph ∧
        (∀ v i, f.definition? v = some i ↔ i.name? = some v ∧ ∃ before after,
          d.blocks.flatMap (·.instrs) = before ++ i :: after ∧ ∀ j ∈ after, j.name? ≠ some v) ∧
        q.function? d.name = some f ∧ ∀ other, other ≠ d.name → q.function? other = p.function? other) ∧
      ∀ e, p.addFunction d = .error e → p.after d = p := by
  refine ⟨⟨fun ⟨q, done⟩ => (addFunction_eq_ok.1 done).1,
    fun good => ⟨_, addFunction_eq_ok.2 ⟨good, rfl⟩⟩⟩,
    fun q done => ⟨by
      rw [after, done]; rfl, d.linked, d.draft_linked, ?_, fun v i => ?_, ?_, fun other differs => ?_⟩,
    fun e failed => by rw [after, failed]; rfl⟩
  · have linked : d.linked.Linked := ⟨d, Draft.link_eq_ok.2 ⟨(addFunction_eq_ok.1 done).1.2, rfl⟩⟩
    refine ⟨fun i b found => ?_, fun i b => linked.sorted_preds, fun i b found p => linked.mem_preds found⟩
    obtain ⟨term, ends, succs, -⟩ := linked.terminator found
    exact ⟨term, ends, succs⟩
  · have same : d.linked.blocks.flatMap (·.instrs) = d.blocks.flatMap (·.instrs) := by
      simp [Draft.linked, Draft.place, flatMap_map]
    rw [Function.definition?_eq_some, same]
  · obtain ⟨⟨fresh, -⟩, rfl⟩ := addFunction_eq_ok.1 done
    unfold function? at fresh ⊢
    rw [find?_append, fresh]
    simp [Draft.linked]
  · obtain ⟨-, rfl⟩ := addFunction_eq_ok.1 done
    unfold function?
    simp [find?_append, Draft.linked, differs.symm]

end Program

end ChanFlow.Ssa
