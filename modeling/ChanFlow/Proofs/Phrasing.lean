import ChanFlow.Proofs.Wording

/-!
Operands of program text, read back.

The words that operations start with are reserved, so an operand is never found in their place.
-/
namespace ChanFlow.Ssa

open Text Text.Parser

variable {mark c : Char} {cs : List Char} {v n : String}

namespace Grammar

/-- A name that can be that of a local value. -/
def isLocal (n : String) : Bool := isIdent n && !reserved.any (·.toList = n.toList)

end Grammar

open Grammar

def Literal.Written : Literal → Prop
  | .int i => Word.Fits i
  | .str text => '"' ∉ text.toList
  | _ => True

/-- An operand as the grammar has it: a local value has a name that is neither reserved nor a constant. -/
def Operand.Written : Operand → Prop
  | .var n => isLocal n = true ∧ n ∉ ["true", "false", "nil"]
  | .global n | .func n => isIdent n = true
  | .const l => l.Written

namespace Grammar

/-! ### Operands -/

section Refusals

variable {k : List Char}

theorem scanMarked_none (other : ∀ c ∈ cs.head?, c ≠ mark) : scanMarked mark cs = none := by
  cases cs with
  | nil => rfl
  | cons c cs =>
    have ne : c ≠ mark := other c (by simp)
    simp [scanMarked, ne]

theorem refuses_globalRef (other : Heads (· ≠ '@') k) : Refuses globalRef k :=
  (refuses_token (scanMarked_none other)).bind

theorem refuses_funcRef (other : Heads (· ≠ '&') k) : Refuses funcRef k :=
  (refuses_token (scanMarked_none other)).bind

theorem scanRun_none {p : Char → Bool} (other : ∀ c ∈ cs.head?, p c = false) : scanRun p cs = none := by
  cases cs with
  | nil => rfl
  | cons c cs => simp [scanRun, other c (by simp)]

theorem refuses_integer (other : Heads (fun c => isDigit c = false ∧ c ≠ '-') k) : Refuses integer k := by
  apply Refuses.bind
  apply refuses_token
  cases eq : skipped k with
  | nil => rfl
  | cons c cs =>
    have head := other c (by simp [eq])
    rw [scanInteger]
    · exact scanRun_none (by simpa using head.1)
    · simpa using head.2

theorem refuses_quoted (other : Heads (· ≠ '"') k) : Refuses quoted k := by
  apply Refuses.bind
  apply refuses_token
  cases eq : skipped k with
  | nil => rfl
  | cons c cs =>
    have head := other c (by simp [eq])
    rw [scanQuoted]
    simpa using head

/-- Characters an operand may start with. -/
def startsOperand (c : Char) : Bool := startsName c || isDigit c || c = '@' || c = '&' || c = '-' || c = '"'

theorem refuses_operand (other : Heads (startsOperand · = false) k) : Refuses operand k := by
  have parts : Heads (fun c => startsName c = false ∧ isDigit c = false ∧ c ≠ '@' ∧ c ≠ '&' ∧ c ≠ '-' ∧
    c ≠ '"') k :=
    fun c first => by simpa [startsOperand, and_assoc] using other c first
  have word : Heads (startsName · = false) k := fun c first => (parts c first).1
  apply Refuses.rule
  apply refuses_firstOf
  refine ⟨?global, ?func, ?const, ?var⟩
  case global => exact (refuses_globalRef fun c first => (parts c first).2.2.1).bind
  case func => exact (refuses_funcRef fun c first => (parts c first).2.2.2.1).bind
  case const =>
    apply Refuses.bind
    apply Refuses.rule
    apply refuses_firstOf
    refine ⟨?integer, ?quoted, ?true, ?false, ?nil⟩
    case integer => exact refuses_integer fun c first => ⟨(parts c first).2.1, (parts c first).2.2.2.2.1⟩
    case quoted => exact refuses_quoted fun c first => (parts c first).2.2.2.2.2
    all_goals exact (refuses_keyword_head (by decide) word).bind
  case var =>
    apply Refuses.bind
    apply Refuses.bind
    apply refuses_token
    rw [scanLocal, scanName_none word]
    rfl

theorem refuses_operand_sign (solid : isSolid c = true) (sign : startsOperand c = false) :
    Refuses operand (c :: k) := refuses_operand (heads_sign sign solid)

theorem isDigit_of_startsName (starts : startsName c = true) : isDigit c = false := by
  simp only [startsName, isLetter, Bool.or_eq_true, Bool.and_eq_true, decide_eq_true_eq, Char.le_def] at starts
  simp only [isDigit, Bool.and_eq_false_iff, decide_eq_false_iff_not, Char.le_def]
  right
  rcases starts with (⟨low, -⟩ | ⟨low, -⟩) | rfl
  · intro high
    exact absurd (UInt32.le_trans low high) (by decide)
  · intro high
    exact absurd (UInt32.le_trans low high) (by decide)
  · decide

/-- A word that is no constant is not read as one. -/
theorem refuses_constant (ident : isIdent v = true) (stops : Stops isWordChar k)
    (plain : v ∉ ["true", "false", "nil"]) : Refuses constant (v.toList ++ k) := by
  simp only [List.mem_cons, List.not_mem_nil, or_false, not_or] at plain
  apply Refuses.rule
  apply refuses_firstOf
  refine ⟨?integer, ?quoted, ?true, ?false, ?nil⟩
  case integer =>
    exact refuses_integer fun c first =>
      ⟨isDigit_of_startsName (head_ident ident k c first), head_ne ident (by decide) c first⟩
  case quoted => exact refuses_quoted (head_ne ident (by decide))
  case true => exact (refuses_keyword (by decide) ident stops (Ne.symm plain.1)).bind
  case false => exact (refuses_keyword (by decide) ident stops (Ne.symm plain.2.1)).bind
  case nil => exact (refuses_keyword (by decide) ident stops (Ne.symm plain.2.2)).bind

/-- A reserved word is not an operand. -/
theorem refuses_reserved (ident : isIdent v = true) (stops : Stops isWordChar k)
    (member : reserved.any (·.toList = v.toList) = true) : Refuses operand (v.toList ++ k) := by
  have plain : v ∉ ["true", "false", "nil"] := by
    intro constant
    simp only [List.mem_cons, List.not_mem_nil, or_false] at constant
    rcases constant with rfl | rfl | rfl <;> exact absurd member (by decide)
  apply Refuses.rule
  apply refuses_firstOf
  refine ⟨(refuses_globalRef (head_ne ident (by decide))).bind, (refuses_funcRef (head_ne ident (by decide))).bind,
    (refuses_constant ident stops plain).bind, ?_⟩
  apply Refuses.bind
  apply Refuses.bind
  apply refuses_token
  rw [skipped_ident ident, scanLocal, scanName_ident ident stops]
  simpa using member

end Refusals

section

variable {k : List Char}

theorem takes_marked (solid : isSolid mark = true) (ident : isIdent n = true) (stops : Stops isWordChar k) :
    Takes (lexeme (token (scanMarked mark)) : Rule (List Char)) (mark :: (n.toList ++ k)) (mark :: n.toList) k := by
  apply takes_token solid
  rw [List.cons_append, scanMarked, if_pos rfl, scanName_ident ident stops]
  rfl

theorem takes_globalRef (ident : isIdent n = true) (stops : Stops isWordChar k) :
    Takes globalRef ('@' :: (n.toList ++ k)) n k := by
  have takes : Takes globalRef ('@' :: (n.toList ++ k)) (String.ofList (('@' :: n.toList).drop 1)) k :=
    (takes_marked (by decide) ident stops).bind takes_pure
  rwa [List.drop_one, List.tail_cons, String.ofList_toList] at takes

theorem takes_funcRef (ident : isIdent n = true) (stops : Stops isWordChar k) :
    Takes funcRef ('&' :: (n.toList ++ k)) n k := by
  have takes : Takes funcRef ('&' :: (n.toList ++ k)) (String.ofList (('&' :: n.toList).drop 1)) k :=
    (takes_marked (by decide) ident stops).bind takes_pure
  rwa [List.drop_one, List.tail_cons, String.ofList_toList] at takes

theorem isIdent_of_isLocal (loc : isLocal n = true) : isIdent n = true := (Bool.and_eq_true_iff.1 loc).1

theorem takes_localName (loc : isLocal n = true) (stops : Stops isWordChar k) :
    Takes localName (n.toList ++ k) n k := by
  obtain ⟨ident, free⟩ := Bool.and_eq_true_iff.1 loc
  have scanned : scanLocal (n.toList ++ k) = some (n.toList, k) := by
    rw [scanLocal, scanName_ident ident stops]
    exact Option.filter_eq_some_iff.2 ⟨rfl, free⟩
  have takes : Takes localName (n.toList ++ k) (String.ofList n.toList) k := (takes_scan ident scanned).bind takes_pure
  rwa [String.ofList_toList] at takes

theorem takes_integer {i : Int} (fits : Word.Fits i) (stops : Stops isDigit k) :
    Takes integer ((toString i).toList ++ k) (.int i) k := by
  apply (Protocol.Grammar.takes_numeral stops).bind
  simp only [Protocol.Grammar.intOfNumeral_toString, if_pos fits]
  exact takes_report.bind takes_pure

theorem takes_quoted {text : String} (plain : '"' ∉ text.toList) :
    Takes quoted ('"' :: (text.toList ++ '"' :: k)) (.str text) k := by
  have all : ∀ c ∈ text.toList, (c != '"') = true := by
    intro c member
    rw [bne_iff_ne]
    rintro rfl
    exact plain member
  have stops : Stops (· != '"') ('"' :: k) := stops_at rfl
  have scanned : scanQuoted ('"' :: (text.toList ++ '"' :: k)) = some ('"' :: (text.toList ++ ['"']), k) := by
    rw [scanQuoted, stops.dropWhile all, stops.takeWhile all]
    rfl
  have same : '"' :: (text.toList ++ '"' :: k) = '"' :: (text.toList ++ ['"']) ++ k := by simp
  rw [same] at scanned ⊢
  have takes : Takes quoted ('"' :: (text.toList ++ ['"']) ++ k)
      (.str (String.ofList (('"' :: (text.toList ++ ['"'])).drop 1).dropLast)) k :=
    (takes_token (by decide) scanned).bind takes_pure
  simpa using takes

theorem head_toString (i : Int) (k : List Char) :
    ∃ c cs, (toString i).toList ++ k = c :: cs ∧ (isDigit c = true ∨ c = '-') := by
  cases i with
  | ofNat n =>
    obtain ⟨c, cs, eq, digit⟩ := Protocol.Grammar.cons_toDigits n
    rw [show (toString (Int.ofNat n)).toList = c :: cs from Nat.toList_repr.trans eq]
    exact ⟨c, cs ++ k, rfl, .inl digit⟩
  | negSucc n =>
    refine ⟨'-', Nat.toDigits 10 (n + 1) ++ k, ?_, .inr rfl⟩
    change ("-" ++ (n + 1).repr).toList ++ k = _
    simp [Nat.toList_repr]

theorem takes_constant {l : Literal} (written : l.Written) (stops : Stops isWordChar k) :
    Takes constant (l.render.toList ++ k) l k := by
  apply Takes.rule
  have word {w : String} (ident : isIdent w = true) : Refuses integer (w.toList ++ k) ∧
    Refuses quoted (w.toList ++ k) :=
    ⟨refuses_integer fun c first => ⟨isDigit_of_startsName (head_ident ident k c first),
      head_ne ident (by decide) c first⟩, refuses_quoted (head_ne ident (by decide))⟩
  cases l with
  | int i => exact .here (takes_integer written (stops_digit stops))
  | str text =>
    have written : '"' ∉ text.toList := written
    have render : (Literal.str text).render.toList ++ k = '"' :: (text.toList ++ '"' :: k) := by simp [Literal.render]
    rw [render]
    exact .later (.here (takes_quoted written)) (refuses_integer (heads_sign (by decide)))
  | bool b =>
    cases b with
    | true =>
      have ident : isIdent "true" = true := by decide
      refine .later (.later (.here ?_) (word ident).2) (word ident).1
      exact (takes_keyword stops ident).bind takes_pure
    | false =>
      have ident : isIdent "false" = true := by decide
      refine .later (.later (.later (.here ?_) ?_) (word ident).2) (word ident).1
      · exact (takes_keyword stops ident).bind takes_pure
      · exact (refuses_keyword (by decide) ident stops (by decide)).bind
  | nil =>
    have ident : isIdent "nil" = true := by decide
    refine .later (.later (.later (.later (.here ?_) ?_) ?_) (word ident).2) (word ident).1
    · exact (takes_keyword stops ident).bind takes_pure
    · exact (refuses_keyword (by decide) ident stops (by decide)).bind
    · exact (refuses_keyword (by decide) ident stops (by decide)).bind

/-- The text of a constant starts with a letter, a digit, a minus sign or a quotation mark. -/
theorem head_literal (l : Literal) (k : List Char) {sign : Char} (word : startsName sign = false)
    (numeral : isDigit sign = false) (others : sign ≠ '-' ∧ sign ≠ '"') :
    Heads (· ≠ sign) (l.render.toList ++ k) := by
  cases l with
  | int i =>
    obtain ⟨c, cs, eq, start⟩ := head_toString i k
    have solid : isSolid c = true := by
      rcases start with digit | rfl
      · exact Protocol.Grammar.isSolid_of_isDigit digit
      · decide
    rw [show (Literal.int i).render.toList ++ k = c :: cs from eq]
    refine heads_sign ?_ solid
    rintro rfl
    rcases start with digit | minus
    · exact absurd digit (Bool.eq_false_iff.1 numeral)
    · exact others.1 minus
  | str text =>
    have render : (Literal.str text).render.toList ++ k = '"' :: (text.toList ++ '"' :: k) := by simp [Literal.render]
    rw [render]
    exact heads_sign others.2.symm
  | bool b =>
    cases b with
    | true => exact head_ne (v := "true") (by decide) word
    | false => exact head_ne (v := "false") (by decide) word
  | nil => exact head_ne (v := "nil") (by decide) word

/-- An operand is read back from its text. -/
theorem takes_operand {x : Operand} (written : x.Written) (stops : Stops isWordChar k) :
    Takes operand (x.render.toList ++ k) x k := by
  apply Takes.rule
  cases x with
  | global n =>
    have render : (Operand.global n).render.toList ++ k = '@' :: (n.toList ++ k) := by simp [Operand.render]
    rw [render]
    exact .here ((takes_globalRef written stops).bind takes_pure)
  | func n =>
    have render : (Operand.func n).render.toList ++ k = '&' :: (n.toList ++ k) := by simp [Operand.render]
    rw [render]
    exact .later (.here ((takes_funcRef written stops).bind takes_pure))
      (refuses_globalRef (heads_sign (by decide))).bind
  | const l =>
    refine .later (.later (.here ((takes_constant written stops).bind takes_pure)) ?_) ?_
    · exact (refuses_funcRef (head_literal l k (by decide) (by decide) (by decide))).bind
    · exact (refuses_globalRef (head_literal l k (by decide) (by decide) (by decide))).bind
  | var n =>
    have ident := isIdent_of_isLocal written.1
    refine .later (.later (.later (.here ?_) ?_) ?_) ?_
    · exact (takes_localName written.1 stops).bind takes_pure
    · exact (refuses_constant ident stops written.2).bind
    · exact (refuses_funcRef (head_ne ident (by decide))).bind
    · exact (refuses_globalRef (head_ne ident (by decide))).bind

theorem takes_args {xs : List Operand} (written : ∀ x ∈ xs, x.Written) :
    Takes args ('(' :: ((renderOperands xs).toList ++ (')' :: k))) xs k := by
  have text : (renderOperands xs).toList = [',', ' '].intercalate (xs.map fun x => x.render.toList) := by
    simp [renderOperands, Function.comp_def]
  rw [text]
  apply Takes.rule
  refine takes_list ?_ ?_ (Nat.le_refl _)
  · intro x member k' _ head
    exact takes_operand (written x member) (Ty.Ends.of_head (o := true) head).stops
  · exact refuses_operand_sign (by decide) (by decide)

end

end Grammar

end ChanFlow.Ssa
