import ChanFlow.Proofs.Construction
import ChanFlow.Proofs.RoundTrip
import ChanFlow.Proofs.Spelling

/-!
Labels of merge points: a label tells the function, the block and the index values it was made for.
-/
namespace ChanFlow.Analysis

open Ssa

variable {i : Int} {f : Function} {key key' : BlockVisit} {name : String}

theorem toList_visitLabel (f : Function) (key : BlockVisit) :
    (visitLabel f key).toList = f.name.toList ++ '#' :: (Nat.toDigits 10 key.1 ++
      key.2.flatMap fun i => '_' :: (toString i).toList) := by
  have join : (String.join (key.2.map fun i => "_" ++ toString i)).toList =
      key.2.flatMap fun i => '_' :: (toString i).toList := by
    rw [String.toList_join, List.flatMap_map]
    simp only [String.toList_append]
    rfl
  have block : (toString key.1).toList = Nat.toDigits 10 key.1 := Nat.toList_repr
  simp only [visitLabel, String.toList_append, join, block, List.append_assoc]
  rfl

theorem toList_toString_natural (natural : 0 ≤ i) : (toString i).toList = Nat.toDigits 10 i.toNat := by
  obtain ⟨n, rfl⟩ := Int.eq_ofNat_of_zero_le natural
  exact Nat.toList_repr

theorem toList_toString_negative (negative : i < 0) : (toString i).toList = '-' :: Nat.toDigits 10 i.natAbs := by
  obtain ⟨n, rfl⟩ := Int.eq_negSucc_of_lt_zero negative
  exact Protocol.Grammar.toList_negSucc n

theorem underscore_notMem_toDigits (n : Nat) : '_' ∉ Nat.toDigits 10 n := by
  intro member
  exact absurd (Nat.isDigit_of_mem_toDigits (by decide) (by decide) member) (by decide)

theorem underscore_notMem_toString (i : Int) : '_' ∉ (toString i).toList := by
  by_cases negative : i < 0
  · rw [toList_toString_negative negative]
    simp
  · rw [toList_toString_natural (Int.not_lt.1 negative)]
    exact underscore_notMem_toDigits _

/-- What comes before the first separator. -/
theorem takeWhile_before {s : Char} {xs ys : List Char} (free : s ∉ xs) (starts : ys.head?.getD s = s) :
    (xs ++ ys).takeWhile (· ≠ s) = xs := by
  rw [List.takeWhile_append_of_pos]
  · cases ys with
    | nil => simp
    | cons y ys =>
      obtain rfl : y = s := by simpa using starts
      simp
  · intro c member
    simpa using ne_of_mem_of_not_mem member free

theorem head_signature (is : List Int) : (is.flatMap fun i => '_' :: (toString i).toList).head?.getD '_' = '_' := by
  cases is <;> simp

theorem signature_inj {is js : List Int}
    (same : (is.flatMap fun i => '_' :: (toString i).toList) = js.flatMap fun i => '_' :: (toString i).toList) :
    is = js := by
  induction is generalizing js with
  | nil =>
    cases js with
    | nil => rfl
    | cons j js => simp at same
  | cons i is ih =>
    cases js with
    | nil => simp at same
    | cons j js =>
      simp only [List.flatMap_cons, List.cons_append, List.cons.injEq, true_and] at same
      have numerals : (toString i).toList = (toString j).toList := by
        rw [← takeWhile_before (underscore_notMem_toString i) (head_signature is), same,
          takeWhile_before (underscore_notMem_toString j) (head_signature js)]
      rw [numerals] at same
      have values : i = j := by
        rw [← Protocol.Grammar.intOfNumeral_toString i, numerals, Protocol.Grammar.intOfNumeral_toString]
      rw [values, ih (List.append_cancel_left same)]

/-- Different places have different labels. -/
theorem visitLabel_inj (same : visitLabel f key = visitLabel f key') : key = key' := by
  have texts := congrArg String.toList same
  rw [toList_visitLabel, toList_visitLabel] at texts
  have texts := List.cons.inj (List.append_cancel_left texts) |>.2
  have numerals : Nat.toDigits 10 key.1 = Nat.toDigits 10 key'.1 := by
    rw [← takeWhile_before (underscore_notMem_toDigits key.1) (head_signature key.2), texts,
      takeWhile_before (underscore_notMem_toDigits key'.1) (head_signature key'.2)]
  rw [numerals] at texts
  have blocks : key.1 = key'.1 := by
    have read := congrArg (Nat.ofDigitChars 10 · 0) numerals
    simpa only [Nat.ofDigitChars_ten_toDigits] using read
  exact Prod.ext blocks (signature_inj (List.append_cancel_left texts))

/-- No label is the name of its function. -/
theorem visitLabel_ne (f : Function) (key : BlockVisit) : visitLabel f key ≠ f.name := by
  intro same
  have texts := congrArg String.toList same
  rw [toList_visitLabel] at texts
  exact nomatch List.append_right_eq_self.1 texts

theorem visitLabel_ne_plain (plain : '#' ∉ name.toList) (f : Function) (key : BlockVisit) :
    visitLabel f key ≠ name := by
  rintro rfl
  rw [toList_visitLabel] at plain
  exact plain (List.mem_append_right _ List.mem_cons_self)

/-- A label also tells the function it was made for. -/
theorem visitLabel_func {g : Function} (plain : '#' ∉ f.name.toList) (plain' : '#' ∉ g.name.toList)
    (same : visitLabel f key = visitLabel g key') : f.name = g.name ∧ key = key' := by
  have texts := congrArg (fun label => label.toList.takeWhile (· ≠ '#')) same
  simp only [toList_visitLabel] at texts
  rw [takeWhile_before plain rfl, takeWhile_before plain' rfl] at texts
  have name : f.name = g.name := String.toList_inj.1 texts
  refine ⟨name, visitLabel_inj (f := g) ?_⟩
  rw [← same, visitLabel, visitLabel, name]

theorem hash_notMem_of_isIdent (ident : isIdent name = true) : '#' ∉ name.toList := by
  unfold isIdent at ident
  intro member
  split at ident
  · exact nomatch ident
  · next start cs written =>
    rw [written] at member
    simp only [Bool.and_eq_true, List.all_eq_true] at ident
    rcases List.mem_cons.1 member with rfl | inside
    · exact absurd ident.1 (by decide)
    · exact absurd (ident.2 '#' inside) (by decide)

/-- Labels of merge points are equal only for the same function, block and index values, and no label is the name of a
function: an identifier holds digits, dots and underscores, but not the character that ends it in a label. -/
theorem label_unambiguous {f g : Function} (ident : isIdent f.name = true) (ident' : isIdent g.name = true)
    (m n : Nat) (s t : List Int) :
    (visitLabel f (m, s) = visitLabel g (n, t) ↔ f.name = g.name ∧ m = n ∧ s = t) ∧
      visitLabel f (m, s) ≠ g.name ∧
      ∀ a : Activation, a.func = f → a.signature = s → a.mergeLabel m = visitLabel f (m, s) := by
  have plain := hash_notMem_of_isIdent ident
  have plain' := hash_notMem_of_isIdent ident'
  refine ⟨⟨fun same => ?_, ?_⟩, visitLabel_ne_plain plain' f (m, s), ?_⟩
  · obtain ⟨name, key⟩ := visitLabel_func plain plain' same
    exact ⟨name, Prod.mk.inj key⟩
  · rintro ⟨name, rfl, rfl⟩
    rw [visitLabel, visitLabel, name]
  · rintro a rfl rfl
    exact mergeLabel_eq a m

/-- A name that goes on like a label, and a block number that goes on like index values. -/
theorem trailing_unambiguous :
    let named (name : String) : Function := { name, params := [], freeVars := [], results := none, blocks := [] }
    visitLabel (named "main.f_1") (2, [-1]) ≠ visitLabel (named "main.f") (12, [-1]) ∧
      visitLabel (named "main.f_1") (2, [-1]) ≠ "main.f" := by
  intro named
  obtain ⟨apart, unnamed, -⟩ :=
    label_unambiguous (f := named "main.f_1") (g := named "main.f") (by decide) (by decide) 2 12 [-1] [-1]
  exact ⟨fun same => absurd (apart.1 same).2.1 (by decide), unnamed⟩

end ChanFlow.Analysis
