import ChanFlow.Types.Declared
import Mathlib.Data.List.Perm.Subperm
import Mathlib.Data.Nat.Find
import Mathlib.Logic.Function.Iterate
import Mathlib.Logic.Relation

/-!
What a name stands for.

A name leads to its declaration, and declarations may go round in a circle. A lookup follows so many names that it
would come to one of them again: one that ends at all has ended by then, and one that does not ends in the circle.
-/
open List

namespace ChanFlow

/-- A walk that stays in a list and comes to an end at all comes to an end within the length of the list: until then it
is nowhere twice. -/
theorem settles_within {α : Type} {f : α → α} {P : α → Prop} {a : α} {l : List α}
    (inside : ∀ i, f^[i] a ∈ l) (settles : ∃ m, P (f^[m] a)) : ∃ k < l.length, P (f^[k] a) := by
  classical
  refine ⟨Nat.find settles, ?_, Nat.find_spec settles⟩
  have apart : ∀ i j, i < j → j ≤ Nat.find settles → f^[i] a ≠ f^[j] a := by
    intro i j less within same
    refine Nat.find_min settles (m := Nat.find settles - j + i) (by omega) ?_
    rw [Function.iterate_add_apply, same, ← Function.iterate_add_apply, Nat.sub_add_cancel within]
    exact Nat.find_spec settles
  have distinct : ((List.range (Nat.find settles + 1)).map (f^[·] a)).Nodup :=
    pairwise_map.2 (pairwise_lt_range.imp_of_mem fun _ j less =>
      apart _ _ less (Nat.lt_succ_iff.1 (mem_range.1 j)))
  have short := (distinct.subperm fun x member => by
    obtain ⟨i, -, rfl⟩ := mem_map.1 member
    exact inside i).length_le
  rwa [length_map, length_range] at short

namespace TypeTable

variable {t : TypeTable} {ty : Ty}

/-- Looks through one name. -/
def unname (t : TypeTable) : Ty → Ty
  | .named n => ((t.decls.get? n).map (·.underlying)).getD (.named n)
  | ty => ty

/-- The type is a name that stands for another type. -/
def Declared (t : TypeTable) (ty : Ty) : Prop := ∃ n decl, ty = .named n ∧ t.decls.get? n = some decl

/-- What a name is declared as. -/
inductive Declares (t : TypeTable) : Ty → Ty → Prop
  | name {n : String} {decl : TypeDecl} (declared : t.decls.get? n = some decl) : Declares t (.named n) decl.underlying

theorem unname_of_not_declared (settled : ¬ t.Declared ty) : t.unname ty = ty := by
  cases ty with
  | named n =>
    cases declared : t.decls.get? n with
    | none => simp [unname, declared]
    | some decl => exact absurd ⟨n, decl, rfl, declared⟩ settled
  | _ => rfl

theorem reaches_iterate (t : TypeTable) (ty : Ty) (k : Nat) :
    Relation.ReflTransGen t.Declares ty (t.unname^[k] ty) := by
  induction k with
  | zero => exact .refl
  | succ k ih =>
    rw [Function.iterate_succ_apply']
    by_cases declared : t.Declared (t.unname^[k] ty)
    · obtain ⟨n, decl, same, found⟩ := declared
      rw [same] at ih ⊢
      simpa [unname, found] using ih.tail (.name found)
    · rwa [unname_of_not_declared declared]

theorem exists_iterate {ty' : Ty} (reached : Relation.ReflTransGen t.Declares ty ty') :
    ∃ k, t.unname^[k] ty = ty' := by
  induction reached with
  | refl => exact ⟨0, rfl⟩
  | tail _ step ih =>
    obtain ⟨k, here⟩ := ih
    refine ⟨k + 1, ?_⟩
    rw [Function.iterate_succ_apply', here]
    cases step with
    | name declared => simp [unname, declared]

theorem follow_eq (t : TypeTable) (n : Nat) (ty : Ty) : t.follow n ty = t.unname^[n] ty := by
  induction n generalizing ty with
  | zero => cases ty <;> rfl
  | succ n ih =>
    rw [Function.iterate_succ_apply, ← ih]
    cases ty with
    | named name =>
      cases declared : t.decls.get? name with
      | some decl => simp [follow, unname, declared]
      | none => cases n <;> simp [follow, unname, declared]
    | _ => cases n <;> rfl

theorem iterate_unname_mem (t : TypeTable) (ty : Ty) (i : Nat) :
    t.unname^[i] ty ∈ ty :: t.decls.entries.map (·.2.underlying) := by
  induction i with
  | zero => exact mem_cons_self
  | succ i ih =>
    rw [Function.iterate_succ_apply']
    generalize t.unname^[i] ty = ty' at ih
    cases ty' with
    | named name =>
      cases declared : t.decls.get? name with
      | some decl => simpa [unname, declared] using .inr ⟨name, decl, Table.mem_of_find declared, rfl⟩
      | none => simpa [unname, declared] using ih
    | _ => exact ih

/-- However many names are looked through to come to a type that is not declared, that type is what they stand for. -/
theorem underlying_eq {m : Nat} (settled : ¬ t.Declared (t.unname^[m] ty)) : t.underlying ty = t.unname^[m] ty := by
  obtain ⟨k, less, here⟩ := settles_within (t.iterate_unname_mem ty) (P := fun ty => ¬ t.Declared ty)
    ⟨m, settled⟩
  have stay : ∀ i j, i ≤ j → ¬ t.Declared (t.unname^[i] ty) → t.unname^[j] ty = t.unname^[i] ty := by
    intro i j le other
    rw [← Nat.sub_add_cancel le, Function.iterate_add_apply, Function.iterate_fixed (unname_of_not_declared other)]
  rw [length_cons, length_map] at less
  rw [underlying, follow_eq, stay k (t.decls.size + 1) (Nat.le_of_lt less) here]
  rcases Nat.le_total k m with le | le
  · exact (stay k m le here).symm
  · exact stay m k le settled

/-- What a type stands for is reached by following declarations. It is the end of that chain if the chain has an end: a
declared name is left only if following declarations never comes to anything else. -/
theorem underlying_complete (t : TypeTable) (ty : Ty) :
    Relation.ReflTransGen t.Declares ty (t.underlying ty) ∧
      (∀ ty', Relation.ReflTransGen t.Declares ty ty' → ¬ t.Declared ty' → t.underlying ty = ty') ∧
      (t.Declared (t.underlying ty) ↔ ∀ ty', Relation.ReflTransGen t.Declares ty ty' → t.Declared ty') := by
  have reached : Relation.ReflTransGen t.Declares ty (t.underlying ty) := by
    rw [underlying, follow_eq]
    exact t.reaches_iterate ty _
  have ends : ∀ ty', Relation.ReflTransGen t.Declares ty ty' → ¬ t.Declared ty' → t.underlying ty = ty' := by
    intro ty' there settled
    obtain ⟨k, rfl⟩ := exists_iterate there
    exact underlying_eq settled
  refine ⟨reached, ends, fun declared ty' there => ?_, fun all => all _ reached⟩
  by_contra settled
  rw [ends ty' there settled] at declared
  exact settled declared

end TypeTable

end ChanFlow
