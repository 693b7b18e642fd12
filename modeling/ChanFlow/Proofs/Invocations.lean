import ChanFlow.Protocol.Basic

/-!
Calls and spawns inside statements.

`Invokes` finds a call or spawn at any depth of a statement. The names a statement invokes are those that
`callees` lists, and dropping calls of routines that are not kept adds none.
-/
open List

namespace ChanFlow.Protocol

open Statement

variable {s : Statement} {ss body : List Statement} {cases : List (List Statement)} {name : String}
  {args : List String} {keep : String → Bool}

/-- A call or spawn of a routine in a statement, at any depth. -/
inductive Invokes : Statement → String → List String → Prop
  | call {name : String} {args : List String} : Invokes (.call name args) name args
  | spawn {name : String} {args : List String} : Invokes (.spawn name args) name args
  | onTrue {t e : List Statement} {s : Statement} {name : String} {args : List String} (inside : s ∈ t)
    (invokes : Invokes s name args) : Invokes (.branch t e) name args
  | onFalse {t e : List Statement} {s : Statement} {name : String} {args : List String} (inside : s ∈ e)
    (invokes : Invokes s name args) : Invokes (.branch t e) name args
  | case {cases : List (List Statement)} {body : List Statement} {s : Statement} {name : String} {args : List String}
    (one : body ∈ cases) (inside : s ∈ body) (invokes : Invokes s name args) : Invokes (.select cases) name args

theorem callees_subset (inside : s ∈ ss) : s.callees ⊆ calleesOfAll ss := by
  induction ss with
  | nil => exact nomatch inside
  | cons first rest ih =>
    rw [calleesOfAll]
    rcases mem_cons.1 inside with rfl | inside
    · exact subset_append_left _ _
    · exact List.Subset.trans (ih inside) (subset_append_right _ _)

theorem calleesOfAll_subset (one : body ∈ cases) : calleesOfAll body ⊆ calleesOfCases cases := by
  induction cases with
  | nil => exact nomatch one
  | cons first rest ih =>
    rw [calleesOfCases]
    rcases mem_cons.1 one with rfl | one
    · exact subset_append_left _ _
    · exact List.Subset.trans (ih one) (subset_append_right _ _)

theorem Invokes.mem_callees (invokes : Invokes s name args) : name ∈ s.callees := by
  induction invokes with
  | call | spawn => simp [callees]
  | onTrue inside _ ih =>
    rw [callees]
    exact mem_append_left _ (callees_subset inside ih)
  | onFalse inside _ ih =>
    rw [callees]
    exact mem_append_right _ (callees_subset inside ih)
  | case one inside _ ih =>
    rw [callees]
    exact calleesOfAll_subset one (callees_subset inside ih)

mutual

theorem exists_invokes : (s : Statement) → name ∈ s.callees → ∃ args, Invokes s name args
  | .call _ args, member => by
    rw [callees, mem_singleton] at member
    exact ⟨args, member ▸ .call⟩
  | .spawn _ args, member => by
    rw [callees, mem_singleton] at member
    exact ⟨args, member ▸ .spawn⟩
  | .branch t e, member => by
    rw [callees] at member
    rcases mem_append.1 member with member | member
    · obtain ⟨s, inside, args, invokes⟩ := exists_invokes_all t member
      exact ⟨args, .onTrue inside invokes⟩
    · obtain ⟨s, inside, args, invokes⟩ := exists_invokes_all e member
      exact ⟨args, .onFalse inside invokes⟩
  | .select cs, member => by
    rw [callees] at member
    obtain ⟨body, one, s, inside, args, invokes⟩ := exists_invokes_cases cs member
    exact ⟨args, .case one inside invokes⟩
  | .newChan .., member | .send _, member | .recv _, member | .close _, member | .tau, member => by
    simp [callees] at member

theorem exists_invokes_all :
    (ss : List Statement) → name ∈ calleesOfAll ss → ∃ s ∈ ss, ∃ args, Invokes s name args
  | [], member => by simp [calleesOfAll] at member
  | s :: ss, member => by
    rw [calleesOfAll] at member
    rcases mem_append.1 member with member | member
    · exact ⟨s, mem_cons_self, exists_invokes s member⟩
    · obtain ⟨s', inside, found⟩ := exists_invokes_all ss member
      exact ⟨s', mem_cons_of_mem s inside, found⟩

theorem exists_invokes_cases : (cs : List (List Statement)) →
    name ∈ calleesOfCases cs → ∃ body ∈ cs, ∃ s ∈ body, ∃ args, Invokes s name args
  | [], member => by simp [calleesOfCases] at member
  | body :: cs, member => by
    rw [calleesOfCases] at member
    rcases mem_append.1 member with member | member
    · exact ⟨body, mem_cons_self, exists_invokes_all body member⟩
    · obtain ⟨body', one, found⟩ := exists_invokes_cases cs member
      exact ⟨body', mem_cons_of_mem body one, found⟩

end

theorem restrictAll_eq (keep : String → Bool) (ss : List Statement) :
    restrictAll keep ss = (ss.filter (·.targets keep)).map (·.restrict keep) := by
  induction ss with
  | nil => rw [restrictAll, filter_nil, map_nil]
  | cons s rest ih =>
    rw [restrictAll, ih]
    split
    · next stays => rw [filter_cons_of_pos stays, map_cons]
    · next goes => rw [filter_cons_of_neg goes]

theorem restrictCases_eq (keep : String → Bool) (cases : List (List Statement)) :
    restrictCases keep cases = cases.map (restrictAll keep) := by
  induction cases with
  | nil => rw [restrictCases, map_nil]
  | cons body rest ih => rw [restrictCases, ih, map_cons]

theorem mem_restrictAll_iff :
    s ∈ restrictAll keep ss ↔ ∃ s' ∈ ss, s'.targets keep = true ∧ s'.restrict keep = s := by
  simp [restrictAll_eq, and_assoc]

theorem mem_restrictAll (member : s ∈ restrictAll keep ss) : ∃ s' ∈ ss, s = s'.restrict keep := by
  obtain ⟨s', inside, -, eq⟩ := mem_restrictAll_iff.1 member
  exact ⟨s', inside, eq.symm⟩

theorem mem_restrictCases (member : body ∈ restrictCases keep cases) :
    ∃ body' ∈ cases, body = restrictAll keep body' := by
  rw [restrictCases_eq] at member
  obtain ⟨body', inside, eq⟩ := mem_map.1 member
  exact ⟨body', inside, eq.symm⟩

/-- Calls and spawns that are left were there before, and are of kept routines. -/
theorem Invokes.of_restrict (invokes : Invokes (s.restrict keep) name args) (stays : s.targets keep = true) :
    keep name = true ∧ Invokes s name args := by
  generalize eq : s.restrict keep = restricted at invokes
  induction invokes generalizing s with
  | call | spawn =>
    cases s <;> simp_all only [restrict, targets, reduceCtorEq]
    obtain ⟨rfl, rfl⟩ := eq
    exact ⟨stays, by constructor⟩
  | onTrue inside _ ih =>
    cases s <;> simp only [restrict, reduceCtorEq] at eq
    obtain ⟨rfl, rfl⟩ := Statement.branch.inj eq
    obtain ⟨s', inside', stays, rfl⟩ := mem_restrictAll_iff.1 inside
    exact (ih stays rfl).imp_right (.onTrue inside')
  | onFalse inside _ ih =>
    cases s <;> simp only [restrict, reduceCtorEq] at eq
    obtain ⟨rfl, rfl⟩ := Statement.branch.inj eq
    obtain ⟨s', inside', stays, rfl⟩ := mem_restrictAll_iff.1 inside
    exact (ih stays rfl).imp_right (.onFalse inside')
  | case one inside _ ih =>
    cases s <;> simp only [restrict, reduceCtorEq] at eq
    obtain rfl := Statement.select.inj eq
    obtain ⟨body', one', rfl⟩ := mem_restrictCases one
    obtain ⟨s', inside', stays, rfl⟩ := mem_restrictAll_iff.1 inside
    exact (ih stays rfl).imp_right (.case one' inside')

end ChanFlow.Protocol
