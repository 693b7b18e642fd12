import ChanFlow.Protocol.Basic

/-!
Protocols up to `tau`.

Without the `tau` statements inside them, at any depth, equivalent statements are equal. So equivalence
is the kernel of a map, and whatever can be read off the image is the same for equivalent protocols:
which routines use a channel, which ones they name, and hence what cleaning up leaves of them.
-/
namespace ChanFlow.Protocol

namespace Statement

mutual

/-- A statement without the `tau` inside it. -/
def erased : Statement → Statement
  | branch t e => branch (erasedAll t) (erasedAll e)
  | select cs => select (erasedCases cs)
  | s => s

def erasedAll : List Statement → List Statement
  | [] => []
  | s :: ss => if isTau s then erasedAll ss else erased s :: erasedAll ss

def erasedCases : List (List Statement) → List (List Statement)
  | [] => []
  | c :: cs => erasedAll c :: erasedCases cs

end

theorem erasedAll_eq (ss : List Statement) : erasedAll ss = (withoutTau ss).map erased := by
  induction ss with
  | nil => rfl
  | cons s ss ih => cases silent : s.isTau <;> simp_all [erasedAll, withoutTau]

mutual

theorem equivalent_iff : (a b : Statement) → (equivalent a b = true ↔ erased a = erased b)
  | branch t e, b => by
    cases b with
    | branch t' e' => simp [equivalent, erased, matchesAll_iff t, matchesAll_iff e, erasedAll_eq t', erasedAll_eq e']
    | _ => simp [equivalent, erased]
  | select cs, b => by
    cases b with
    | select ds => simp [equivalent, erased, matchesCases_iff cs]
    | _ => simp [equivalent, erased]
  | newChan .., b | send _, b | recv _, b | close _, b | call .., b | spawn .., b | tau, b => by
    cases b <;> simp [equivalent, erased]

theorem matchesAll_iff : (as bs : List Statement) → (matchesAll as bs = true ↔ erasedAll as = bs.map erased)
  | [], bs => by cases bs <;> simp [matchesAll, erasedAll]
  | a :: as, bs => by
    cases silent : a.isTau with
    | true => simpa [matchesAll, erasedAll, silent] using matchesAll_iff as bs
    | false => cases bs <;> simp [matchesAll, erasedAll, silent, equivalent_iff a, matchesAll_iff as]

theorem matchesCases_iff : (cs ds : List (List Statement)) →
    (matchesCases cs ds = true ↔ erasedCases cs = erasedCases ds)
  | [], ds => by cases ds <;> simp [matchesCases, erasedCases]
  | c :: cs, ds => by
    cases ds with
    | nil => simp [matchesCases, erasedCases]
    | cons d ds => simp [matchesCases, erasedCases, matchesAll_iff c, erasedAll_eq d, matchesCases_iff cs]

end

theorem equivalentAll_iff {as bs : List Statement} : equivalentAll as bs = true ↔ erasedAll as = erasedAll bs := by
  rw [equivalentAll, matchesAll_iff, erasedAll_eq bs]

end Statement

/-- A routine without `tau`, the names its callers use and the lists set aside. -/
def Routine.erased (r : Routine) : Routine :=
  { name := r.name, params := r.params.map ({ · with caller := "" }), stmts := Statement.erasedAll r.stmts }

theorem Routine.equivalent_iff {a b : Routine} : a.equivalent b = true ↔ a.erased = b.erased := by
  have params : (a.params.map (·.callee)).map (Parameter.mk "") = (b.params.map (·.callee)).map
    (Parameter.mk "") ↔ _ :=
    List.map_inj_right fun _ _ same => (Parameter.mk.inj same).2
  simp [equivalent, erased, Statement.equivalentAll_iff, ← params, Function.comp_def, and_assoc]

def erased (p : Protocol) : Protocol := ⟨p.routines.map (·.erased)⟩

theorem equivalent_iff {p q : Protocol} : p.equivalent q = true ↔ p.erased = q.erased := by
  obtain ⟨rs⟩ := p
  obtain ⟨rs'⟩ := q
  simp only [equivalent, erased, Protocol.mk.injEq]
  induction rs generalizing rs' with
  | nil => cases rs' <;> simp [equivalentRoutines]
  | cons r rs ih => cases rs' <;> simp [equivalentRoutines, Routine.equivalent_iff, ih]

/-! ### What equivalent protocols have in common -/

namespace Statement

mutual

theorem talks_erased : (s : Statement) → s.erased.communicates = s.communicates ∧ s.erased.callees = s.callees
  | branch t e => by simp [erased, communicates, callees, talks_erasedAll t, talks_erasedAll e]
  | select cs => by simp [erased, communicates, callees, callees_erasedCases cs]
  | newChan .. | send _ | recv _ | close _ | call .. | spawn .. | tau => ⟨rfl, rfl⟩

theorem talks_erasedAll : (ss : List Statement) →
    anyCommunicates (erasedAll ss) = anyCommunicates ss ∧ calleesOfAll (erasedAll ss) = calleesOfAll ss
  | [] => ⟨rfl, rfl⟩
  | s :: ss => by
    have rest := talks_erasedAll ss
    have first := talks_erased s
    cases s <;> simp_all [erasedAll, isTau, anyCommunicates, calleesOfAll, communicates, callees]

theorem callees_erasedCases : (cs : List (List Statement)) → calleesOfCases (erasedCases cs) = calleesOfCases cs
  | [] => rfl
  | c :: cs => by simp [erasedCases, calleesOfCases, talks_erasedAll c, callees_erasedCases cs]

end

mutual

theorem restrict_erased (keep : String → Bool) : (s : Statement) → s.erased.restrict keep = (s.restrict keep).erased
  | branch t e => by simp [erased, restrict, restrictAll_erased keep t, restrictAll_erased keep e]
  | select cs => by simp [erased, restrict, restrictCases_erased keep cs]
  | newChan .. | send _ | recv _ | close _ | call .. | spawn .. | tau => rfl

theorem restrictAll_erased (keep : String → Bool) : (ss : List Statement) →
    restrictAll keep (erasedAll ss) = erasedAll (restrictAll keep ss)
  | [] => rfl
  | s :: ss => by
    have rest := restrictAll_erased keep ss
    have first := restrict_erased keep s
    cases s with
    | call routine | spawn routine =>
      cases kept : keep routine <;> simp [erasedAll, restrictAll, isTau, erased, restrict, targets, kept, rest]
    | _ => simp_all [erasedAll, restrictAll, isTau, targets, restrict, erased]

theorem restrictCases_erased (keep : String → Bool) : (cs : List (List Statement)) →
    restrictCases keep (erasedCases cs) = erasedCases (restrictCases keep cs)
  | [] => rfl
  | c :: cs => by simp [erasedCases, restrictCases, restrictAll_erased keep c, restrictCases_erased keep cs]

end

end Statement

theorem collectOnce_erased (p : Protocol) (names : List String) : p.erased.collectOnce names = p.collectOnce names := by
  simp [collectOnce, erased, List.foldr_map, Routine.communicates, Routine.callees, Routine.erased,
    Statement.talks_erasedAll]

theorem collect_erased (p : Protocol) (n : Nat) (names : List String) :
    p.erased.collect n names = p.collect n names := by
  induction n generalizing names with
  | zero => rfl
  | succ n ih => simp [collect, collectOnce_erased, ih]

theorem cleanUp_erased (p : Protocol) (entry : String) : p.erased.cleanUp entry = (p.cleanUp entry).erased := by
  have same : p.erased.communicating = p.communicating := by
    rw [communicating, collect_erased, communicating, erased, List.length_map]
  simp [cleanUp, same]
  simp [erased, List.filter_map, Function.comp_def, Routine.erased, Statement.restrictAll_erased]

/-- Equivalence is equality up to `tau` at any depth, the names callers use and the lists set aside. So
it is an equivalence relation, and cleaning up keeps it. -/
theorem equivalent_iff_erased (p q : Protocol) :
    (p.equivalent q = true ↔ p.erased = q.erased) ∧ p.equivalent p = true ∧ p.equivalent q = q.equivalent p ∧
      (∀ r : Protocol, p.equivalent q = true → q.equivalent r = true → p.equivalent r = true) ∧
      ∀ entry, p.equivalent q = true → (p.cleanUp entry).equivalent (q.cleanUp entry) = true := by
  refine ⟨equivalent_iff, equivalent_iff.2 rfl, ?_, ?_, ?_⟩
  · rw [Bool.eq_iff_iff, equivalent_iff, equivalent_iff, eq_comm]
  · intro r first second
    exact equivalent_iff.2 ((equivalent_iff.1 first).trans (equivalent_iff.1 second))
  · intro entry same
    rw [equivalent_iff, ← cleanUp_erased, ← cleanUp_erased, equivalent_iff.1 same]

end ChanFlow.Protocol
