import ChanFlow.Proofs.Parts

/-!
The channel operations in statements.

`operations` lists what a statement does with channels at any depth. Building a routine step by step keeps every
operation in it: only `tau` statements give way, and the statements of a branch or a case stay, if the select has
the case.
-/
open List

namespace ChanFlow.Protocol

variable {ss : List Statement} {cases : List (List Statement)} {case slot : Nat}

namespace Statement

mutual

/-- The channel operations of a statement, at any depth, in the order of the text. -/
def operations : Statement → List Statement
  | newChan name capacity => [newChan name capacity]
  | send chan => [send chan]
  | recv chan => [recv chan]
  | close chan => [close chan]
  | branch t e => operationsOfAll t ++ operationsOfAll e
  | select cs => operationsOfCases cs
  | call .. | spawn .. | tau => []

def operationsOfAll : List Statement → List Statement
  | [] => []
  | s :: ss => operations s ++ operationsOfAll ss

def operationsOfCases : List (List Statement) → List Statement
  | [] => []
  | c :: cs => operationsOfAll c ++ operationsOfCases cs

end

theorem operationsOfAll_append (ss ts : List Statement) :
    operationsOfAll (ss ++ ts) = operationsOfAll ss ++ operationsOfAll ts := by
  induction ss with
  | nil => rw [nil_append, operationsOfAll, nil_append]
  | cons s rest ih => rw [cons_append, operationsOfAll, operationsOfAll, ih, append_assoc]

theorem operations_of_isTau {s : Statement} (silent : s.isTau = true) : operations s = [] := by
  cases s with
  | tau => rw [operations]
  | _ => exact nomatch silent

theorem operationsOfAll_withoutTau (ss : List Statement) : operationsOfAll (withoutTau ss) = operationsOfAll ss := by
  induction ss with
  | nil => rfl
  | cons s rest ih =>
    rw [operationsOfAll, ← ih, withoutTau, filter_cons]
    split
    · rw [operationsOfAll, withoutTau]
    · next silent =>
      rw [operations_of_isTau (by simpa using silent), nil_append, withoutTau]

theorem operationsOfAll_idle (idle : Routine.idle ss = true) : operationsOfAll ss = [] := by
  induction ss with
  | nil => rw [operationsOfAll]
  | cons s rest ih =>
    rw [Routine.idle, all_cons, Bool.and_eq_true] at idle
    rw [operationsOfAll, operations_of_isTau idle.1, ih idle.2, append_nil]

theorem operationsOfAll_dropLast (last : ss.getLast? = some .tau) :
    operationsOfAll ss.dropLast = operationsOfAll ss := by
  obtain ⟨front, rfl⟩ := getLast?_eq_some_iff.1 last
  rw [dropLast_concat, operationsOfAll_append, operationsOfAll, operationsOfAll, operations, append_nil,
    append_nil]

/-- What is added comes last, and a `tau` that gives way is no operation. -/
theorem operationsOfAll_add (ss : List Statement) (s : Statement) :
    operationsOfAll (Routine.append ss s) = operationsOfAll ss ++ operations s := by
  unfold Routine.append
  split
  · next last =>
    rw [operationsOfAll_append, operationsOfAll_dropLast last, operationsOfAll, operationsOfAll, append_nil]
  · rw [operationsOfAll_append, operationsOfAll, operationsOfAll, append_nil]

theorem operationsOfAll_addBranch (r : Routine) (t e : List Statement) :
    operationsOfAll (r.addBranch t e).stmts = operationsOfAll r.stmts ++ (operationsOfAll t ++ operationsOfAll e) := by
  rw [Routine.addBranch, Routine.addStatement, operationsOfAll_add]
  split
  · next idle =>
    rw [Bool.and_eq_true] at idle
    rw [operations, operationsOfAll_idle idle.1, operationsOfAll_idle idle.2, append_nil, append_nil,
      append_nil]
  · rw [operations]

theorem operationsOfAll_extendCase (case stmts : List Statement) :
    operationsOfAll (Routine.extendCase case stmts) = operationsOfAll case ++ operationsOfAll stmts := by
  rw [← operationsOfAll_withoutTau case, ← operationsOfAll_withoutTau stmts, ← operationsOfAll_append]
  unfold Routine.extendCase
  split
  · next none => simp only [none, operationsOfAll, operations, append_nil]
  · rfl

/-! ### How often an operation is there -/

variable (s : Statement)

/-- The statements of a body are found in the case that gets them. -/
theorem count_modify (bounded : case < cases.length) (stmts : List Statement) :
    (operationsOfCases (cases.modify case (Routine.extendCase · stmts))).count s =
      (operationsOfCases cases).count s + (operationsOfAll stmts).count s := by
  induction cases generalizing case with
  | nil => exact nomatch bounded
  | cons first rest ih =>
    cases case with
    | zero =>
      rw [modify_zero_cons, operationsOfCases, operationsOfCases, operationsOfAll_extendCase]
      simp only [count_append]
      omega
    | succ case =>
      have later := ih (Nat.lt_of_succ_lt_succ bounded)
      rw [modify_succ_cons, operationsOfCases, operationsOfCases, count_append, count_append, later]
      omega

theorem count_set {old : Statement} (here : ss[slot]? = some old) (new : Statement) :
    (operationsOfAll (ss.set slot new)).count s + old.operations.count s =
      (operationsOfAll ss).count s + new.operations.count s := by
  induction ss generalizing slot with
  | nil => exact nomatch here
  | cons first rest ih =>
    cases slot with
    | zero =>
      obtain rfl : first = old := by simpa using here
      rw [set_cons_zero, operationsOfAll, operationsOfAll]
      simp only [count_append]
      omega
    | succ slot =>
      have here : rest[slot]? = some old := by simpa using here
      have later := ih here
      rw [set_cons_succ, operationsOfAll, operationsOfAll]
      simp only [count_append]
      omega

end Statement

open Statement

variable {r r' : Routine} {before : List Statement} {rest : List (List Statement)}

namespace Routine

/-- The channel operations in all lists of a routine, those set aside included. -/
def operations (r : Routine) : List Statement := operationsOfCases (r.stmts :: r.waiting)

theorem operations_finished (finished : r.waiting = []) : r.operations = operationsOfAll r.stmts := by
  rw [operations, finished, operationsOfCases, operationsOfCases, append_nil]

variable (s : Statement) {r : Routine}

theorem count_operations (r : Routine) :
    r.operations.count s = (operationsOfAll r.stmts).count s + (operationsOfCases r.waiting).count s := by
  rw [operations, operationsOfCases, count_append]

theorem count_setAside (r : Routine) : r.setAside.operations.count s = r.operations.count s := by
  rw [setAside, count_operations, count_operations]
  simp only [operationsOfCases, operationsOfAll, count_append]
  simp

theorem count_addStatement (r : Routine) (t : Statement) :
    (r.addStatement t).operations.count s = r.operations.count s + t.operations.count s := by
  rw [count_operations, count_operations]
  simp only [addStatement, operationsOfAll_add, count_append]
  omega

/-- The two lists set aside last and the current one make a branch. -/
theorem count_addBranch {t : List Statement} (waits : r.waiting = t :: before :: rest) :
    (addBranch { r with stmts := before, waiting := rest } t r.stmts).operations.count s = r.operations.count s := by
  rw [count_operations, count_operations, operationsOfAll_addBranch, waits]
  simp only [operationsOfCases, count_append, addBranch, addStatement]
  omega

/-- The list set aside last gets the current one as a part of a case that is there. -/
theorem count_extendCaseOf (waits : r.waiting = before :: rest) (select : before[slot]? = some (.select cases))
    (bounded : case < cases.length)
    (extended : extendCaseOf { r with stmts := before, waiting := rest } slot case r.stmts = .ok r') :
    r'.operations.count s = r.operations.count s := by
  obtain ⟨cases', here, rfl⟩ := extendCaseOf_eq extended
  obtain rfl : cases = cases' := by simpa using select.symm.trans here
  have changed := count_set s select (.select (cases.modify case (extendCase · r.stmts)))
  rw [Statement.operations, Statement.operations, count_modify s bounded] at changed
  rw [count_operations, count_operations, waits]
  simp only [operationsOfCases, count_append]
  omega

end Routine

/-! ### Selects stay where they are -/

/-- The cases of the select at a place. -/
def Routine.casesAt? (r : Routine) (slot : Nat) : Option (List (List Statement)) :=
  match r.stmts[slot]? with
  | some (.select cases) => some cases
  | _ => none

theorem Routine.casesAt?_eq_some : r.casesAt? slot = some cases ↔ r.stmts[slot]? = some (.select cases) := by
  unfold casesAt?
  split
  · next cases' here => simp [here]
  · next other => exact ⟨(fun eq => nomatch eq), fun here => absurd here (other cases)⟩

/-- Every select of one list stands in the other at the same place, with as many cases. -/
def Selects (ss ts : List Statement) : Prop :=
  ∀ (slot : Nat) (cases : List (List Statement)), ss[slot]? = some (.select cases) →
    ∃ cases' : List (List Statement), ts[slot]? = some (.select cases') ∧ cases'.length = cases.length

theorem Selects.refl (ss : List Statement) : Selects ss ss := fun _ cases here => ⟨cases, here, rfl⟩

theorem Selects.trans {ts us : List Statement} (one : Selects ss ts) (two : Selects ts us) : Selects ss us := by
  intro slot cases here
  obtain ⟨cases', there, length⟩ := one slot cases here
  obtain ⟨cases'', last, length'⟩ := two slot cases' there
  exact ⟨cases'', last, length'.trans length⟩

theorem selects_append (ss : List Statement) (s : Statement) : Selects ss (Routine.append ss s) := by
  intro slot cases here
  have inside := (List.getElem?_eq_some_iff.1 here).1
  refine ⟨cases, ?_, rfl⟩
  unfold Routine.append
  split
  · next last =>
    obtain ⟨front, rfl⟩ := List.getLast?_eq_some_iff.1 last
    rw [dropLast_concat]
    by_cases before : slot < front.length
    · rw [getElem?_append_left before] at here ⊢
      exact here
    · -- A `tau` stands at the last place.
      obtain rfl : slot = front.length := by simp at inside; omega
      simp at here
  · rw [getElem?_append_left inside]
    exact here

theorem selects_appends (added ss : List Statement) : Selects ss (added.foldl Routine.append ss) := by
  induction added generalizing ss with
  | nil => exact .refl ss
  | cons s rest ih => exact (selects_append ss s).trans (ih _)

theorem selects_extendCaseOf {stmts : List Statement}
    (extended : r.extendCaseOf slot case stmts = .ok r') : Selects r.stmts r'.stmts := by
  obtain ⟨cases, here, rfl⟩ := Routine.extendCaseOf_eq extended
  intro slot' cases' there
  rw [getElem?_set]
  split
  · next same =>
    obtain rfl := same
    obtain rfl : cases = cases' := by simpa using here.symm.trans there
    exact ⟨_, if_pos (List.getElem?_eq_some_iff.1 here).1, List.length_modify ..⟩
  · exact ⟨cases', there, rfl⟩

end ChanFlow.Protocol
