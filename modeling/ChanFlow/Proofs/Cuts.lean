import ChanFlow.Proofs.Issue
import ChanFlow.Proofs.Lockstep
import Mathlib.Logic.Relation

/-!
Cutting off what follows a block.

A block of a function is cut if a bare return stands in its place. Where two blocks are `Separate`, that is where no
block is come to from both of them and what is defined behind the one is not used elsewhere, cutting the one leaves the
other and all that follows it as they were (`functionTwins_cut`). A walk of the cut block does next to nothing
(`Passed`).
-/
open List

namespace ChanFlow

variable {α β : Type} {value : String} {as : List α}

namespace Ssa

/-- The function with a bare return in place of a block. -/
def Function.cut (f : Function) (t : Nat) : Function :=
  { f with
    blocks := f.blocks.mapIdx fun k b =>
      { b with
        preds := b.preds.filter (· ≠ t)
        instrs := if k = t then [.perform (.ret [])] else b.instrs
        succs := if k = t then [] else b.succs } }

def Program.cut (p : Program) (name : String) (t : Nat) : Program :=
  { p with functions := p.functions.map fun f => if f.name = name then f.cut t else f }

theorem Function.block?_cut (f : Function) (t b : Nat) :
    (f.cut t).block? b = (f.block? b).map fun block =>
      { block with
        preds := block.preds.filter (· ≠ t)
        instrs := if b = t then [.perform (.ret [])] else block.instrs
        succs := if b = t then [] else block.succs } := by
  rw [block?, cut, getElem?_mapIdx]
  rfl

theorem Function.hasBody_cut (f : Function) (t : Nat) : (f.cut t).hasBody = f.hasBody := by
  have empty : (f.cut t).blocks.isEmpty = f.blocks.isEmpty := by
    rw [Bool.eq_iff_iff, List.isEmpty_iff, List.isEmpty_iff, cut]
    exact mapIdx_eq_nil_iff
  rw [hasBody, hasBody, empty]

/-- Two ways to fill a list that look the same from the end give the same last element of a kind. -/
theorem find?_reverse_flatMap {p : β → Bool} {g g' : α → List β} {as' : List α}
    (each : List.Forall₂ (fun a a' => (g a).reverse.find? p = (g' a').reverse.find? p) as as') :
    (as.flatMap g).reverse.find? p = (as'.flatMap g').reverse.find? p := by
  induction each with
  | nil => rfl
  | cons here _ ih =>
    rw [flatMap_cons, flatMap_cons, reverse_append, reverse_append, find?_append,
      find?_append, ih, here]

end Ssa

/-- Every instance and every container is itself. -/
def Twinning.same : Twinning where
  inst := Eq
  cell id id' := id' = id
  issue _ _ := True
  changed _ := False
  unique one two := one ▸ two ▸ Iff.rfl
  const literal := id_eq (Instance.const literal)
  program _ _ _ := rfl
  ty same := congrArg Instance.ty? same.symm
  level same := congrArg Instance.isProgramLevel same.symm
  name same := congrArg Instance.ownName same.symm
  cells := @eq_iff_of_same

namespace Analysis

open Ssa Protocol

/-- Control may come from the one block to the other. -/
def Reaches (f : Function) : Nat → Nat → Prop := Relation.ReflTransGen (Leaves f)

/-- The value is defined in a block that is come to from block `t`. -/
def Defines (f : Function) (t : Nat) (value : String) : Prop :=
  ∃ b i, Reaches f t b ∧ Inside f b i ∧ i.name? = some value

/-- No block is come to from both, and what is defined behind `t` is neither used nor defined elsewhere. -/
structure Separate (f : Function) (t e : Nat) : Prop where
  apart : ∀ b, Reaches f t b → ¬ Reaches f e b
  operands : ∀ b i, Inside f b i → ¬ Reaches f t b → ∀ x ∈ i.action.operands, ∀ name, x = .var name →
    ¬ Defines f t name
  defined : ∀ b i, Inside f b i → ¬ Reaches f t b → ∀ name, i.name? = some name → ¬ Defines f t name

section Functions

variable {f : Function} {t e : Nat}

theorem inside_of_definition {i : Instr} (found : f.definition? value = some i) :
    i.name? = some value ∧ ∃ b, Inside f b i := by
  have member := mem_reverse.1 (mem_of_find?_eq_some found)
  obtain ⟨block, here, inside⟩ := mem_flatMap.1 member
  obtain ⟨b, found'⟩ := mem_iff_getElem?.1 here
  exact ⟨by simpa using find?_some found, b, block, found', inside⟩

theorem forall₂_mapIdx {R : β → α → Prop} {g : Nat → α → β}
    (each : ∀ k a, as[k]? = some a → R (g k a) a) : List.Forall₂ R (as.mapIdx g) as := by
  induction as generalizing g with
  | nil => exact .nil
  | cons a rest ih =>
    rw [mapIdx_cons]
    exact .cons (each 0 a rfl) (ih fun k b found => each (k + 1) b (by simpa using found))

/-- Values that are not defined behind the block keep their definition. -/
theorem definition?_cut (other : ¬ Defines f t value) : (f.cut t).definition? value = f.definition? value := by
  refine find?_reverse_flatMap (forall₂_mapIdx fun k block found => ?_)
  dsimp only
  split
  · next here =>
    subst here
    have absent : block.instrs.reverse.find? (·.name? = some value) = none := by
      rw [find?_eq_none]
      intro i member
      rw [decide_eq_true_eq]
      exact fun named => other ⟨k, i, .refl, ⟨block, found, mem_reverse.1 member⟩, named⟩
    rw [absent]
    rfl
  · rfl

/-- What is come to from the other block is the same after the cut. -/
theorem block?_cut_of_reaches (linked : f.Linked) (apart : ∀ b, Reaches f t b → ¬ Reaches f e b) {b : Nat}
    (reaches : Reaches f e b) : (f.cut t).block? b = f.block? b := by
  have other : b ≠ t := by
    rintro rfl
    exact apart b .refl reaches
  rw [Function.block?_cut]
  cases found : f.block? b with
  | none => rfl
  | some block =>
    have foreign : ∀ p ∈ block.preds, p ≠ t := by
      rintro p member rfl
      obtain ⟨q, here, follows⟩ := (linked.mem_preds found).1 member
      obtain ⟨term, last, succs, -⟩ := linked.terminator here
      have inside : term ∈ q.instrs := mem_of_getLast? (Option.eq_some_of_filter_eq_some last)
      exact apart b (.single ⟨term, ⟨q, here, inside⟩, succs ▸ follows⟩) reaches
    have preds : block.preds.filter (· ≠ t) = block.preds :=
      filter_eq_self.2 fun p member => decide_eq_true (foreign p member)
    rw [Option.map_some, preds, if_neg other, if_neg other]

/-- What an activation sees that goes on with block `e` only. -/
def sideView (f : Function) (t e : Nat) (a : Activation) : View where
  hidden := Defines f t
  blocks := Reaches f e
  returns := False
  joins := ∃ b block, Reaches f e b ∧ f.block? b = some block ∧ block.isMergePoint
  labels key := a.labels.get? key
  visited key := key ∈ a.visited

theorem functionTwins_cut (linked : f.Linked) (separate : Separate f t e) (a : Activation) :
    FunctionTwins (sideView f t e a) (f.cut t) f where
  signature := rfl
  definition _ shown := (definition?_cut shown).symm
  tested value i x y shown found op := by
    rw [definition?_cut shown] at found
    obtain ⟨named, b, inside⟩ := inside_of_definition found
    have elsewhere : ¬ Reaches f t b := fun reaches => shown ⟨b, i, reaches, inside, named⟩
    have operands := separate.operands b i inside elsewhere
    obtain ⟨action, pos⟩ := i
    cases action with
    | perform effect => cases op
    | define name ty op' =>
      cases op
      exact ⟨⟨operands x mem_cons_self, fun _ _ => trivial⟩,
        ⟨operands y (mem_cons_of_mem _ mem_cons_self), fun _ _ => trivial⟩⟩
  block b reaches := (block?_cut_of_reaches linked separate.apart reaches).symm
  straight unmerged b block reaches found := by
    rw [block?_cut_of_reaches linked separate.apart reaches] at found
    by_contra merges
    exact unmerged ⟨b, block, reaches, found, by simpa using merges⟩
  index b block reaches found := by
    rw [block?_cut_of_reaches linked separate.apart reaches] at found
    rw [linked.index_eq found]
    exact reaches
  shown b block i reaches found member := by
    rw [block?_cut_of_reaches linked separate.apart reaches] at found
    have elsewhere : ¬ Reaches f t b := fun there => separate.apart b there reaches
    refine ⟨fun x given => ⟨separate.operands b i ⟨block, found, member⟩ elsewhere x given,
      fun _ _ => trivial⟩, fun _ _ _ _ _ => trivial, fun name ty op eq => ?_⟩
    refine separate.defined b i ⟨block, found, member⟩ elsewhere name ?_
    rw [Instr.name?, eq]
  leaves b block i reaches found member next out := by
    rw [block?_cut_of_reaches linked separate.apart reaches] at found
    exact .tail reaches ⟨i, ⟨block, found, member⟩, out⟩

/-- The programs before and after the cut differ in one function. -/
theorem envTwins_cut {T : Twinning} {name : String} (changed : T.changed name) (p : Program) (o : Options) (t : Nat) :
    EnvTwins T ⟨p.cut name t, o⟩ ⟨p, o⟩ where
  types := rfl
  globals := rfl
  options := rfl
  functions other := by
    show Option.Rel _ ((p.functions.map fun f => if f.name = name then f.cut t else f).find? (·.name = other))
      (p.functions.find? (·.name = other))
    have names (f : Function) : (if f.name = name then f.cut t else f).name = f.name := by split <;> rfl
    rw [find?_map]
    simp only [Function.comp_def, names]
    cases p.functions.find? (·.name = other) with
    | none => exact .none
    | some f =>
      refine .some ?_
      dsimp only
      split
      · next same => exact ⟨rfl, (f.hasBody_cut t).symm, fun unchanged => absurd (same ▸ changed) unchanged⟩
      · exact ⟨rfl, rfl, fun _ => rfl⟩

end Functions

/-! ### What a walk keeps -/

section Walks

variable {t : Nat} {m m₁ : Machine} {env : Env} {depth src : Nat}

/-- Blocks stand at their indices. -/
def Indexed (f : Function) : Prop := ∀ b block, f.block? b = some block → block.index = b

theorem indexed_cut {f : Function} (linked : f.Linked) (t : Nat) : Indexed (f.cut t) := by
  intro b block found
  rw [Function.block?_cut] at found
  obtain ⟨whole, here, rfl⟩ := Option.map_eq_some_iff.1 found
  exact linked.index_eq (b := whole) here

/-- What an activation sees that goes on with block `t` only. -/
def walkView (a : Activation) (t : Nat) : View where
  hidden _ := False
  blocks := Reaches a.func t
  returns := True
  joins := True
  labels key := a.labels.get? key
  visited key := key ∈ a.visited

/-- What a walk that begins with block `t` leaves as it was. -/
structure Walked (t : Nat) (m m₁ : Machine) : Prop where
  frame : m₁.act.frame = m.act.frame
  counts : ∀ func, m.context.count func ≤ m₁.context.count func
  labels : ∀ b signature, ¬ Reaches m.act.func t b →
    m₁.act.labels.get? (b, signature) = m.act.labels.get? (b, signature)
  visited : ∀ b signature, ¬ Reaches m.act.func t b →
    ((b, signature) ∈ m₁.act.visited ↔ (b, signature) ∈ m.act.visited)

theorem walked_followEdge (indexed : Indexed m.act.func)
    (ends : followEdge (walkBlock env depth) src t m = .ok () m₁) : Walked t m m₁ := by
  have func : FunctionTwins (walkView m.act t) m.act.func m.act.func :=
    { signature := rfl
      definition := fun _ _ => rfl
      tested := fun _ _ _ _ _ _ _ => ⟨⟨fun _ _ => id, fun _ _ => trivial⟩, fun _ _ => id, fun _ _ => trivial⟩
      block := fun _ _ => rfl
      straight := fun joins => absurd trivial joins
      index := fun b block reaches found => (indexed b block found).symm ▸ reaches
      shown := fun _ _ _ _ _ _ =>
        ⟨fun _ _ => ⟨fun _ _ => id, fun _ _ => trivial⟩, fun _ _ _ _ _ => trivial, fun _ _ _ _ => id⟩
      leaves := fun b block i reaches found member next out => .tail reaches ⟨i, ⟨block, found, member⟩, out⟩ }
  have twins : Twins .same (walkView m.act t) m m :=
    ⟨Context.twins_self (T := .same) (fun _ _ => rfl) (fun _ => trivial) (fun _ _ => Iff.rfl) (fun _ _ _ _ _ _ => rfl)
        fun _ _ _ _ => rfl,
      Activation.twins_self (T := .same) (fun _ _ => rfl) (fun _ => rfl) func
        (fun _ => ⟨fun _ _ => id, fun _ _ => trivial⟩) (fun _ _ _ => rfl)
        (fun _ changed => changed.elim) (fun _ _ => trivial) (fun _ _ _ => rfl) fun _ _ _ => Iff.rfl⟩
  have envs : EnvTwins .same env env := ⟨rfl, rfl, rfl, fun _ => rel_self.2 fun _ _ => ⟨rfl, rfl, fun _ => rfl⟩⟩
  have walkers := agree_walkBlock envs (fun _ _ => trivial) depth depth
  have seen : (walkView m.act t).blocks t := .refl
  obtain ⟨after, keeps, -⟩ := agree_followEdge walkers src seen m m twins () m₁ () m₁ ends ends
  exact ⟨keeps.frame, keeps.counts, after.act.unlabelled, after.act.unvisited⟩

/-- A walk that has nothing to interpret but a bare return. -/
structure Passed (m m₁ : Machine) : Prop where
  context : ∃ protocol, m₁.context = { m.context with protocol }
  act : ∃ routine loops labels visited, m₁.act = { m.act with routine, loops, labels, visited }

theorem leads_return (env : Env) (walk : Walker) (arrival : Arrival) (m : Machine) :
    Leads ([.perform (.ret [])].forM (walkInstr env walk arrival)) m
      fun _ m₁ => m₁.context = m.context ∧ m₁.act = m.act := by
  simp only [forM_eq_forM, forM_cons, forM_nil, walkInstr, leads_bind, leads_located, leads_emit, leads_spend,
    leads_pure, interpret, perform, returnValues]
  exact ⟨fun _ => trivial, fun _ _ => ⟨trivial, trivial⟩⟩

section Bare

variable {block : Block} (found : m.act.func.block? t = some block)
  (bare : block.instrs = [.perform (.ret [])])
include found bare

theorem leads_bare :
    Leads (walkBlock env depth (.along src t)) m fun _ m₁ => Passed m m₁ ∧ m₁.act.routine = m.act.routine := by
  cases depth with
  | zero => trivial
  | succ depth =>
    rw [walkBlock, enterBlock, leads_bind, leads_activation]
    simp only [Arrival.along, found]
    rw [leads_bind, leads_modifyActivation, leads_bind, leads_emit, visitBlock, leads_bind, leads_activation]
    split
    · exact ⟨⟨⟨_, rfl⟩, ⟨_, _, _, _, rfl⟩⟩, rfl⟩
    · obtain ⟨visited, noted⟩ :=
        noteVisit_eq { m.act with loops := (m.act.loops.enter block.index block.role).1 } block.index
      rw [leads_bind, leads_modifyActivation, bare]
      refine (leads_return env _ _ _).imp fun _ m₁ led => ?_
      obtain ⟨context, act⟩ := led
      dsimp only at act context
      rw [noted] at act
      exact ⟨⟨⟨_, context⟩, ⟨_, _, _, _, act⟩⟩, by rw [act]⟩

/-- Nothing is created where a block is cut. -/
theorem passed_followEdge (begins : m.act.routine.stmts = [])
    (ends : followEdge (walkBlock env depth) src t m = .ok () m₁) :
    Passed m m₁ ∧ Routine.created m₁.act.routine.stmts = [] := by
  have called (label : String) (args : List String) :
      Routine.created (m.act.routine.addStatement (.call label args)).stmts = [] := by
    rw [Routine.addStatement, begins]
    rfl
  let done (_ : Unit) (m₁ : Machine) : Prop := Passed m m₁ ∧ Routine.created m₁.act.routine.stmts = []
  suffices guided : Guided (fun _ _ _ => True) (followEdge (walkBlock env depth) src t) m done fun _ _ => True from
    guided.leads.ok ends
  refine guided_followEdge (fun _ => trivial) fun _ n _ => ?_
  refine guided_arriveAt (regular_walkBlock env depth) (fun _ => mayFail_true _) (fun _ _ _ => .of_leads ?_) ?_ ?_
  · refine (leads_bare (m := m.withBudget n) found bare).imp fun _ m₁ led => ⟨{ led.1 with }, ?_⟩
    rw [led.2]
    exact congrArg Routine.created begins
  · exact fun _ _ _ _ _ _ => ⟨⟨⟨_, rfl⟩, ⟨_, _, _, _, rfl⟩⟩, called _ _⟩
  · intro _ _ _ _ _
    refine .of_leads ((leads_bare (m := (m.withBudget n).openMerge t) found bare).imp fun _ m₁ led => ?_)
    obtain ⟨⟨⟨protocol, context⟩, routine, loops, labels, visited, act⟩, -⟩ := led
    refine ⟨⟨⟨protocol.replace m₁.act.routine, ?_⟩, ⟨((m.withBudget n).addLabel t).act.routine, loops,
      labels, visited, ?_⟩⟩, called _ _⟩
    · show ({ m₁.context with protocol := m₁.context.protocol.replace m₁.act.routine } : Context) = _
      rw [context]
      rfl
    · show m₁.act.setRoutine ((m.withBudget n).addLabel t).act.routine = _
      rw [act]
      rfl

end Bare

end Walks

end Analysis

end ChanFlow
