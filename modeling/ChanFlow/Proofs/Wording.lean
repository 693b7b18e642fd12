import ChanFlow.Proofs.Spelling
import ChanFlow.Ssa.Render

/-!
Words, lists and types of program text, read back.

A type may end in a name that the grammar also has as a word: where nothing that could be an element
follows, `chan` is the name of a type. `Ends` says what may stand behind the text of a type for it to
be read as that type.
-/
open List

namespace ChanFlow.Ssa

open Text Text.Parser

namespace Grammar

/-! ### Words -/

theorem wordlike_of_isIdent {n : String} (ident : isIdent n = true) : Wordlike isWordChar n := by
  unfold isIdent at ident
  split at ident
  · exact absurd ident (by decide)
  · next c cs eq => exact ⟨c, cs, eq, by simpa using ident⟩

theorem isWordChar_of_startsName {c : Char} (starts : startsName c = true) : isWordChar c = true := by
  simp only [startsName, Bool.or_eq_true] at starts
  rcases starts with letter | underscore
  · simp [isWordChar, letter]
  · simp [isWordChar, underscore]

theorem all_of_isIdent {n : String} (ident : isIdent n = true) : ∀ c ∈ n.toList, isWordChar c = true :=
  (wordlike_of_isIdent ident).all fun _ => isWordChar_of_startsName

theorem skipped_ident {n : String} (ident : isIdent n = true) (k : List Char) :
    skipped (n.toList ++ k) = n.toList ++ k :=
  (wordlike_of_isIdent ident).skipped

theorem head_ident {n : String} (ident : isIdent n = true) (k : List Char) :
    Heads (startsName · = true) (n.toList ++ k) := by
  obtain ⟨c, cs, eq, starts, -⟩ := wordlike_of_isIdent ident
  rw [eq]
  exact heads_sign starts (isSolid_of_startsName starts)

theorem head_ne {v : String} {k : List Char} {d : Char} (ident : isIdent v = true) (sign : startsName d = false) :
    Heads (· ≠ d) (v.toList ++ k) := by
  rintro c first rfl
  rw [head_ident ident k c first] at sign
  exact absurd sign (by decide)

theorem scanName_ident {n : String} {k : List Char} (ident : isIdent n = true) (stops : Stops isWordChar k) :
    scanName isWordChar (n.toList ++ k) = some (n.toList, k) := (wordlike_of_isIdent ident).scanName stops

theorem takes_scan {n : String} {k : List Char} {scan : List Char → Option (List Char × List Char)}
    (ident : isIdent n = true) (scanned : scan (n.toList ++ k) = some (n.toList, k)) :
    Takes (lexeme (token scan) : Rule (List Char)) (n.toList ++ k) n.toList k :=
  (wordlike_of_isIdent ident).takes scanned

theorem takes_name {n : String} {k : List Char} (ident : isIdent n = true) (stops : Stops isWordChar k) :
    Takes name (n.toList ++ k) n k := (wordlike_of_isIdent ident).takes_name stops

theorem refuses_name {k : List Char} (other : Heads (startsName · = false) k) : Refuses name k :=
  (refuses_token (scanName_none other)).bind

theorem scanWord_ident {w v : String} {k : List Char} (word : isIdent w = true) (ident : isIdent v = true)
    (stops : Stops isWordChar k) :
    scanWord isWordChar w (v.toList ++ k) = if w = v then some (w.toList, k) else none :=
  scanWord_append (all_of_isIdent word) (all_of_isIdent ident) stops

theorem takes_keyword {w : String} {k : List Char} (stops : Stops isWordChar k)
    (word : isIdent w = true) : Takes (keyword w) (w.toList ++ k) () k :=
  (wordlike_of_isIdent word).takes_keyword (all_of_isIdent word) stops

theorem refuses_keyword {w v : String} {k : List Char} (word : isIdent w = true) (ident : isIdent v = true)
    (stops : Stops isWordChar k) (other : w ≠ v) : Refuses (keyword w) (v.toList ++ k) := by
  apply Refuses.bind
  apply refuses_token
  rw [skipped_ident ident, scanWord_ident word ident stops, if_neg other]

theorem isPrefixOf?_head {s cs : List Char} {c : Char} (written : s.head? = some c)
    (other : ∀ d ∈ cs.head?, d ≠ c) : s.isPrefixOf? cs = none := by
  cases s with
  | nil => simp at written
  | cons d s =>
    obtain rfl : d = c := by simpa using written
    cases cs with
    | nil => rfl
    | cons e cs =>
      have ne : d ≠ e := fun eq => other e (by simp) eq.symm
      simp [List.isPrefixOf?, ne]

/-- A symbol is not found where the text starts with another character. -/
theorem refuses_symbol_head {s : String} {k : List Char} {c : Char} (written : s.toList.head? = some c)
    (other : Heads (· ≠ c) k) : Refuses (symbol s : Rule Unit) k :=
  refuses_symbol (isPrefixOf?_head written other)

theorem refuses_keyword_head {w : String} {k : List Char} (word : isIdent w = true)
    (other : Heads (startsName · = false) k) : Refuses (keyword w) k := by
  obtain ⟨c, cs, eq, starts, -⟩ := wordlike_of_isIdent word
  apply Refuses.bind
  apply refuses_token
  have differs : Heads (· ≠ c) k := by
    rintro d first rfl
    rw [other d first] at starts
    exact absurd starts (by decide)
  rw [scanWord, isPrefixOf?_head (by rw [eq]; rfl) differs]

/-- Where a text has one piece up to a character that the sought one lacks, the latter is found only as
a start of the former. -/
theorem isPrefixOf?_none {p : Char → Bool} {w v k : List Char} (sought : ∀ c ∈ w, p c = true) (stops : Stops p k)
    (other : w.isPrefixOf v = false) : w.isPrefixOf? (v ++ k) = none := by
  have absurdStart (start : w <+: v) : False := by
    rw [← isPrefixOf_iff_prefix, other] at start
    exact absurd start (by decide)
  cases found : w.isPrefixOf? (v ++ k) with
  | none => rfl
  | some left =>
    have split := isPrefixOf?_eq_some_iff_append_eq.1 found
    rcases append_eq_append_iff.1 split with ⟨more, longer, -⟩ | ⟨more, shorter, after⟩
    · exact (absurdStart ⟨more, longer.symm⟩).elim
    · cases more with
      | nil => exact (absurdStart ⟨[], by rw [shorter, append_nil, append_nil]⟩).elim
      | cons c more =>
        have continued : p c = true := sought c (by simp [shorter])
        rw [after, cons_append, stops_cons, continued] at stops
        exact absurd stops (by decide)

/-- One of the words that operations and effects start with is found only where it is the start of the first word. -/
theorem refuses_start {w v : String} {k : List Char} (word : isIdent w = true) (ident : isIdent v = true)
    (stops : Stops isWordChar k) (other : w.toList.isPrefixOf v.toList = false) :
    Refuses (symbol w : Rule Unit) (v.toList ++ k) := by
  apply refuses_symbol
  rw [skipped_ident ident]
  exact isPrefixOf?_none (all_of_isIdent word) stops other

theorem takes_word {w : String} {k : List Char} (word : isIdent w = true) :
    Takes (symbol w : Rule Unit) (w.toList ++ k) () k := by
  obtain ⟨c, cs, eq, starts, -⟩ := wordlike_of_isIdent word
  exact takes_symbol eq (isSolid_of_startsName starts)

/-! ### Numerals -/

theorem toList_toString (n : Nat) : (toString n).toList = Nat.toDigits 10 n := Nat.toList_repr

theorem stops_digit {k : List Char} (stops : Stops isWordChar k) : Stops isDigit k := by
  intro c first
  have other := stops c first
  simp only [isWordChar, Bool.or_eq_false_iff] at other
  exact other.1.1.1.2

theorem takes_index {n : Nat} {k : List Char} (fits : Word.IndexFits n) (stops : Stops isDigit k) :
    Takes index ((toString n).toList ++ k) n k := by
  obtain ⟨c, cs, eq, digit⟩ := Protocol.Grammar.cons_toDigits n
  have scanned := Protocol.Grammar.scanRun_toDigits (n := n) stops
  have value : natOfDigits (Nat.toDigits 10 n) = n := Nat.ofDigitChars_toDigits (by decide) (by decide)
  apply Takes.lexeme
  intro offset
  refine ⟨offset + (Nat.toDigits 10 n).length, ?_⟩
  rw [toList_toString, show skipped (Nat.toDigits 10 n ++ k) = Nat.toDigits 10 n ++ k by
    rw [eq, cons_append, skipped_solid (Protocol.Grammar.isSolid_of_isDigit digit)]]
  simp [rawIndex, indexOf, token, scanned, value, fits, Bind.bind, Parser.bind, report, Pure.pure, Parser.pure]

theorem refuses_index {k : List Char} (other : Heads (isDigit · = false) k) : Refuses index k := by
  apply Refuses.bind
  apply Refuses.bind
  intro offset
  have absent : scanRun isDigit (skipped k) = none := by
    cases eq : skipped k with
    | nil => rfl
    | cons c cs => simp [scanRun, other c (by simp [eq])]
  simp [token, absent]

/-! ### Lists -/

/-- A sign of one character is taken. -/
theorem takes_sign {s : String} {c : Char} {k : List Char} (written : s.toList = [c] := by rfl)
    (solid : isSolid c = true := by decide) : Takes (symbol s : Rule Unit) (c :: k) () k := by
  have takes : Takes (symbol s : Rule Unit) (s.toList ++ k) () k := takes_symbol written solid
  rwa [written] at takes

section

variable {α : Type} {item : Rule α} {r : α → List Char} {opening closing sep : String} {o c s : Char}

/-- Items behind separators, up to a text where no separator stands. -/
theorem chain_items (sepWritten : sep.toList = [s]) (solid : isSolid s = true) {as : List α} {k : List Char} {m : Nat}
    (last : Refuses (symbol sep : Rule Unit) k)
    (each : ∀ a ∈ as, ∀ k', (r a ++ k').length ≤ m → k' = k ∨ k'.head? = some s →
      Takes item (r a ++ k') a k')
    (short : (as.flatMap (fun a => s :: ' ' :: r a) ++ k).length ≤ m) :
    Chain (do symbol sep; item) (as.flatMap (fun a => s :: ' ' :: r a) ++ k) as k := by
  induction as with
  | nil => exact .done last.bind
  | cons a as ih =>
    rw [flatMap_cons, append_assoc] at short ⊢
    have first : Takes item (r a ++ (as.flatMap (fun a => s :: ' ' :: r a) ++ k)) a
        (as.flatMap (fun a => s :: ' ' :: r a) ++ k) := by
      apply each a mem_cons_self
      · simp only [length_cons, length_append] at short ⊢
        omega
      · cases as with
        | nil => exact .inl rfl
        | cons b as => exact .inr rfl
    apply Chain.item (as.flatMap (fun a => s :: ' ' :: r a) ++ k)
    · exact .bind (takes_sign sepWritten solid) first.after_space
    · exact length_skipped_lt solid (' ' :: r a) _
    · apply ih
      · exact fun b later => each b (mem_cons_of_mem a later)
      · simp only [length_cons, length_append] at short ⊢
        omega

theorem takes_sepBy1 (sepWritten : sep.toList = [s]) (solid : isSolid s = true) {a : α} {as : List α} {k : List Char}
    {m : Nat} (last : Refuses (symbol sep : Rule Unit) k)
    (each : ∀ b ∈ a :: as, ∀ k', (r b ++ k').length ≤ m → k' = k ∨ k'.head? = some s →
      Takes item (r b ++ k') b k')
    (short : ([s, ' '].intercalate ((a :: as).map r) ++ k).length ≤ m) :
    Takes (sepBy1 item (symbol sep)) ([s, ' '].intercalate ((a :: as).map r) ++ k) (a :: as) k := by
  have text : [s, ' '].intercalate ((a :: as).map r) ++ k = r a ++ (as.flatMap (fun a => s :: ' ' :: r a) ++ k) := by
    rw [map_cons, Protocol.Grammar.intercalate_cons, append_assoc, flatMap_map]
    rfl
  rw [text] at short ⊢
  refine .sepBy1 (show Takes item _ a (as.flatMap (fun a => s :: ' ' :: r a) ++ k) from ?_) ?_
  · apply each a mem_cons_self
    · exact short
    · cases as with
      | nil => exact .inl rfl
      | cons b as => exact .inr rfl
  · apply chain_items sepWritten solid last (m := m)
    · exact fun b later => each b (mem_cons_of_mem a later)
    · rw [length_append] at short
      omega

/-- A list between brackets, whose items are read where a separator or the closing bracket follows. -/
theorem takes_list {as : List α} {k : List Char} {m : Nat}
    (each : ∀ a ∈ as, ∀ k', (r a ++ k').length ≤ m → k'.head? = some s ∨ k'.head? = some c →
      Takes item (r a ++ k') a k')
    (refused : Refuses item (c :: k)) (short : ([s, ' '].intercalate (as.map r) ++ c :: k).length ≤ m)
    (opens : opening.toList = [o] := by exact rfl) (openingSolid : isSolid o = true := by decide)
    (closes : closing.toList = [c] := by exact rfl) (closingSolid : isSolid c = true := by decide)
    (sepWritten : sep.toList = [s] := by exact rfl) (solid : isSolid s = true := by decide)
    (other : s ≠ c := by decide) :
    Takes (list opening closing sep item) (o :: ([s, ' '].intercalate (as.map r) ++ c :: k)) as k := by
  suffices items : Takes (sepBy item (symbol sep)) ([s, ' '].intercalate (as.map r) ++ c :: k) as (c :: k) from
    .bind (takes_sign opens openingSolid) (items.bind (.bind (takes_sign closes closingSolid) takes_pure))
  cases as with
  | nil => exact Refuses.orElse refused.bind takes_pure
  | cons a as =>
    apply Takes.orElse
    apply takes_sepBy1 (m := m) sepWritten solid
    · exact refuses_symbol_head (c := s) (by rw [sepWritten]; rfl) (heads_sign other.symm closingSolid)
    · intro b member k' short' head
      refine each b member k' short' ?_
      rcases head with rfl | head
      · exact .inr rfl
      · exact .inl head
    · exact short

theorem refuses_list {k : List Char} (opens : opening.toList.head? = some o)
    (other : Heads (· ≠ o) k) : Refuses (list opening closing sep item) k :=
  (refuses_symbol_head opens other).bind

end

/-! ### Types -/

/-- Characters a type may start with. -/
def startsTy (c : Char) : Bool := startsName c || c = '[' || c = '*' || c = '('

theorem startsTy_eq_false {c : Char} (other : startsTy c = false) :
    startsName c = false ∧ c ≠ '[' ∧ c ≠ '*' ∧ c ≠ '(' := by
  simpa [startsTy, and_assoc] using other

theorem refuses_tyWithin {k : List Char} (other : Heads (startsTy · = false) k) (n : Nat) :
    Refuses (tyWithin n) k := by
  cases n with
  | zero => exact fun _ => rfl
  | succ n =>
    have parts (c : Char) (first : c ∈ (skipped k).head?) := startsTy_eq_false (other c first)
    have name : Heads (startsName · = false) k := fun c first => (parts c first).1
    have bracket : Heads (· ≠ '[') k := fun c first => (parts c first).2.1
    have star : Heads (· ≠ '*') k := fun c first => (parts c first).2.2.1
    have paren : Heads (· ≠ '(') k := fun c first => (parts c first).2.2.2
    apply Refuses.rule
    apply refuses_firstOf
    refine ⟨?chan, ?array, ?slice, ?map, ?pointer, ?struct, ?interface, ?func, ?tuple, ?basic, ?named⟩
    case chan | map | struct | interface => exact (refuses_keyword_head (by decide) name).bind.rule
    case func => exact (refuses_keyword_head (by decide) name).bind
    case array | slice => exact (refuses_symbol_head rfl bracket).bind.rule
    case pointer => exact (refuses_symbol_head rfl star).bind.rule
    case tuple => exact (refuses_list rfl paren).bind.rule
    case basic =>
      apply Refuses.bind
      apply refuses_token
      rw [scanBasic, scanName_none name]
      rfl
    case named => exact (refuses_name name).bind

end Grammar

end ChanFlow.Ssa

namespace ChanFlow.Ty

open Ssa Ssa.Grammar Text Text.Parser

mutual

/-- A type as the grammar has it: lengths are in range, and a name is neither a basic type nor the word
of function types. -/
def Written : Ty → Prop
  | basic n => isIdent n = true ∧ isBasicName n.toList = true
  | chan t | slice t | pointer t => Written t
  | array n t => Word.IndexFits n ∧ Written t
  | map t u => Written t ∧ Written u
  | struct ts | tuple ts => WrittenAll ts
  | interface ms => ∀ m ∈ ms, isIdent m = true
  | func => True
  | named n => isIdent n = true ∧ isBasicName n.toList = false ∧ n ≠ "func"

def WrittenAll : List Ty → Prop
  | [] => True
  | t :: ts => Written t ∧ WrittenAll ts

end

/-- The text of the type ends in the name `chan`, which would take a type that follows for its element. -/
def isOpen : Ty → Bool
  | chan t | slice t | pointer t | array _ t | map _ t => isOpen t
  | named n => n = "chan"
  | _ => false

theorem writtenAll_of {ts : List Ty} (written : ∀ t ∈ ts, Written t) : WrittenAll ts := by
  induction ts with
  | nil => trivial
  | cons t ts ih =>
    rw [forall_mem_cons] at written
    exact ⟨written.1, ih written.2⟩

theorem renderAll_eq (ts : List Ty) : renderAll ts = ts.map render := by
  induction ts with
  | nil => rfl
  | cons t ts ih => rw [renderAll, ih, map_cons]

/-- What may stand behind the text of a type. -/
structure Ends (isOpen : Bool) (k : List Char) : Prop where
  stops : Stops isWordChar k
  bracket : Heads (· ≠ '[') k
  fields : ∀ n, Refuses (list "\x7b" "\x7d" ";" (tyWithin n)) k
  methods : Refuses (list "\x7b" "\x7d" ";" name) k
  elem : isOpen = true → ∀ n, Refuses (tyWithin n) k

/-- A sign that neither starts a type nor opens a list ends every type. -/
theorem ends_of_head {isOpen : Bool} {k : List Char} (stops : Stops isWordChar k)
    (other : Heads (fun c => startsTy c = false ∧ c ≠ '\x7b') k) : Ends isOpen k where
  stops := stops
  bracket c first := (startsTy_eq_false (other c first).1).2.1
  fields _ := refuses_list rfl fun c first => (other c first).2
  methods := refuses_list rfl fun c first => (other c first).2
  elem _ := refuses_tyWithin fun c first => (other c first).1

/-- A word ends every type that is not open. -/
theorem ends_of_word {k : List Char} (stops : Stops isWordChar k) (word : Heads (startsName · = true) k) :
    Ends false k := by
  have other (d : Char) (plain : startsName d = false) : Heads (· ≠ d) k := by
    rintro c first rfl
    rw [word c first] at plain
    exact absurd plain (by decide)
  exact ⟨stops, other '[' (by decide), fun _ => refuses_list rfl (other _ (by decide)),
    refuses_list rfl (other _ (by decide)), fun eq => absurd eq (by decide)⟩

/-- Signs that end every type. -/
def isEnd (c : Char) : Bool := isSolid c && !isWordChar c && !startsTy c && c != '\x7b'

theorem ends_of_sign {o : Bool} {c : Char} {k : List Char} (sign : isEnd c = true) : Ends o (c :: k) := by
  simp only [isEnd, Bool.and_eq_true, Bool.not_eq_true', bne_iff_ne] at sign
  obtain ⟨⟨⟨solid, word⟩, start⟩, brace⟩ := sign
  exact ends_of_head (stops_cons.2 word) (heads_sign ⟨start, brace⟩ solid)

theorem Ends.of_head {o : Bool} {c d : Char} {k : List Char} (head : k.head? = some c ∨ k.head? = some d)
    (first : isEnd c = true := by decide) (second : isEnd d = true := by decide) : Ends o k := by
  cases k with
  | nil => simp at head
  | cons e k =>
    rcases head with eq | eq
    · obtain rfl : e = c := by simpa using eq
      exact ends_of_sign first
    · obtain rfl : e = d := by simpa using eq
      exact ends_of_sign second

section

variable {n : Nat} {k : List Char}

theorem refuses_bracket {v : String} {f : Unit → Rule Ty} (ident : isIdent v = true) :
    Refuses (rule (symbol "[" >>= f)) (v.toList ++ k) :=
  (refuses_symbol_head rfl (head_ne ident (by decide))).bind.rule

theorem refuses_star {v : String} {f : Unit → Rule Ty} (ident : isIdent v = true) :
    Refuses (rule (symbol "*" >>= f)) (v.toList ++ k) :=
  (refuses_symbol_head rfl (head_ne ident (by decide))).bind.rule

theorem refuses_tuple {v : String} {ty : Rule Ty} {f : List Ty → Rule Ty} (ident : isIdent v = true) :
    Refuses (rule (list "(" ")" "," ty >>= f)) (v.toList ++ k) :=
  (refuses_list rfl (head_ne ident (by decide))).bind.rule

theorem refuses_otherWord {v w : String} {f : Unit → Rule Ty} (stops : Stops isWordChar k)
    (ident : isIdent v = true := by decide) (word : isIdent w = true := by decide) (other : w ≠ v := by decide) :
    Refuses (rule (keyword w >>= f)) (v.toList ++ k) :=
  (refuses_keyword word ident stops other).bind.rule

/-- A basic name is none of the words of the grammar of types. -/
theorem ne_of_isBasicName {v w : String} (basic : isBasicName v.toList = true) (other : isBasicName w.toList = false) :
    w ≠ v := by
  rintro rfl
  rw [basic] at other
  exact absurd other (by decide)

theorem takes_basic {v : String} (ident : isIdent v = true) (basic : isBasicName v.toList = true)
    (stops : Stops isWordChar k) : Takes (tyWithin (n + 1)) (v.toList ++ k) (.basic v) k := by
  apply Takes.rule
  have other (w : String) (plain : isBasicName w.toList = false) : w ≠ v := ne_of_isBasicName basic plain
  refine .later ?_ (refuses_otherWord stops ident (by decide) (other _ (by decide)))
  iterate 2 refine .later ?_ (refuses_bracket ident)
  refine .later ?_ (refuses_otherWord stops ident (by decide) (other _ (by decide)))
  refine .later ?_ (refuses_star ident)
  iterate 2 refine .later ?_ (refuses_otherWord stops ident (by decide) (other _ (by decide)))
  refine .later ?_ (refuses_keyword (by decide) ident stops (other _ (by decide))).bind
  refine .later ?_ (refuses_tuple ident)
  apply Takes.here
  have scanned : scanBasic (v.toList ++ k) = some (v.toList, k) := by
    rw [scanBasic, scanName_ident ident stops]
    simp [basic]
  have takes := (takes_scan ident scanned).bind (f := fun w => pure (Ty.basic (String.ofList w))) takes_pure
  rwa [String.ofList_toList] at takes

theorem takes_named {v : String} (ident : isIdent v = true) (plain : isBasicName v.toList = false) (func : v ≠ "func")
    (ends : Ends (v = "chan") k) : Takes (tyWithin (n + 1)) (v.toList ++ k) (.named v) k := by
  have stops := ends.stops
  apply Takes.rule
  refine .later ?_ ?chan
  iterate 2 refine .later ?_ (refuses_bracket ident)
  refine .later ?_ ?map
  refine .later ?_ (refuses_star ident)
  refine .later ?_ ?struct
  refine .later ?_ ?interface
  refine .later ?_ (refuses_keyword (by decide) ident stops func.symm).bind
  refine .later ?_ (refuses_tuple ident)
  refine .later ?_ ?basic
  · exact .here ((takes_name ident stops).bind takes_pure)
  case chan =>
    by_cases same : v = "chan"
    · subst same
      exact ((takes_keyword stops (by decide)).refuses (ends.elem (by decide) n).bind).rule
    · exact refuses_otherWord stops ident (by decide) (Ne.symm same)
  case map =>
    by_cases same : v = "map"
    · subst same
      exact ((takes_keyword stops (by decide)).refuses (refuses_symbol_head rfl ends.bracket).bind).rule
    · exact refuses_otherWord stops ident (by decide) (Ne.symm same)
  case struct =>
    by_cases same : v = "struct"
    · subst same
      exact ((takes_keyword stops (by decide)).refuses (ends.fields n).bind).rule
    · exact refuses_otherWord stops ident (by decide) (Ne.symm same)
  case interface =>
    by_cases same : v = "interface"
    · subst same
      exact ((takes_keyword stops (by decide)).refuses ends.methods.bind).rule
    · exact refuses_otherWord stops ident (by decide) (Ne.symm same)
  case basic =>
    apply Refuses.bind
    apply refuses_token
    rw [skipped_ident ident, scanBasic, scanName_ident ident stops]
    simp [plain]

theorem refuses_wordsAtSign {c : Char} {cs : List Char} {w : String} {f : Unit → Rule Ty}
    (word : isIdent w = true := by decide)
    (solid : isSolid c = true := by decide) (sign : startsName c = false := by decide) :
    Refuses (rule (keyword w >>= f)) (c :: cs) := by
  exact (refuses_keyword_head word (heads_sign sign solid)).bind.rule

theorem refuses_otherSign {c d : Char} {s : String} {cs : List Char} {f : Unit → Rule Ty}
    (written : s.toList.head? = some d)
    (solid : isSolid c = true) (other : c ≠ d) : Refuses (rule (symbol s >>= f)) (c :: cs) :=
  (refuses_symbol_head written (heads_sign other solid)).bind.rule

/-- What follows a type in a list of them: one of two signs. -/
theorem refuses_close {c : Char} (sign : isEnd c = true) (n : Nat) (k : List Char) : Refuses (tyWithin n) (c :: k) :=
  (ends_of_sign (o := true) (k := k) sign).elem rfl n

mutual

/-- A type is read back from its text. -/
theorem takes_render (t : Ty) (written : t.Written) {n : Nat} {k : List Char} (ends : Ends t.isOpen k)
    (enough : (t.render.toList ++ k).length < n) : Takes (tyWithin n) (t.render.toList ++ k) t k := by
  obtain ⟨n, rfl⟩ : ∃ m, n = m + 1 := ⟨n - 1, by omega⟩
  cases t with
  | basic v =>
    rw [Written] at written
    rw [render]
    exact takes_basic written.1 written.2 ends.stops
  | named v =>
    rw [Written] at written
    rw [render]
    exact takes_named written.1 written.2.1 written.2.2 ends
  | func =>
    have ident : isIdent "func" = true := by decide
    rw [render]
    apply Takes.rule
    refine .later ?_ (refuses_otherWord ends.stops ident)
    iterate 2 refine .later ?_ (refuses_bracket ident)
    refine .later ?_ (refuses_otherWord ends.stops ident)
    refine .later ?_ (refuses_star ident)
    iterate 2 refine .later ?_ (refuses_otherWord ends.stops ident)
    exact Takes.here ((takes_keyword ends.stops ident).bind takes_pure)
  | chan t =>
    rw [Written] at written
    rw [isOpen] at ends
    have text : (render (.chan t)).toList ++ k = "chan".toList ++ (' ' :: (t.render.toList ++ k)) := by simp [render]
    rw [text] at enough ⊢
    apply Takes.rule
    apply Takes.here
    apply Takes.rule
    apply (takes_keyword (stops_at rfl) (by decide)).bind
    refine (Takes.after_space (takes_render t written ends ?_)).bind takes_pure
    simp only [length_append, length_cons] at enough ⊢
    omega
  | slice t =>
    rw [Written] at written
    rw [isOpen] at ends
    have text : (render (.slice t)).toList ++ k = '[' :: ']' :: (t.render.toList ++ k) := by simp [render]
    rw [text] at enough ⊢
    have unnumbered : Refuses index (']' :: (t.render.toList ++ k)) := refuses_index (heads_sign (by decide))
    apply Takes.rule
    refine .later ?_ refuses_wordsAtSign
    refine .later ?_ (.rule (Takes.refuses takes_sign unnumbered.bind))
    apply Takes.here
    apply Takes.rule
    refine .bind takes_sign (.bind takes_sign ((takes_render t written ends ?_).bind takes_pure))
    simp only [length_append, length_cons] at enough ⊢
    omega
  | array l t =>
    rw [Written] at written
    rw [isOpen] at ends
    have text : (render (.array l t)).toList ++ k = '[' ::
      ((toString l).toList ++ (']' :: (t.render.toList ++ k))) := by
      simp [render]
    rw [text] at enough ⊢
    apply Takes.rule
    refine .later ?_ refuses_wordsAtSign
    apply Takes.here
    apply Takes.rule
    refine .bind takes_sign ((takes_index written.1 (stops_at rfl)).bind (.bind takes_sign ?_))
    refine (takes_render t written.2 ends ?_).bind takes_pure
    simp only [length_append, length_cons] at enough ⊢
    omega
  | map t u =>
    rw [Written] at written
    rw [isOpen] at ends
    have text : (render (.map t u)).toList ++ k =
        "map".toList ++ ('[' :: (t.render.toList ++ (']' :: (u.render.toList ++ k)))) := by simp [render]
    rw [text] at enough ⊢
    apply Takes.rule
    refine .later ?_ (refuses_otherWord (stops_at rfl))
    iterate 2 refine .later ?_ (refuses_bracket (by decide))
    apply Takes.here
    apply Takes.rule
    apply (takes_keyword (stops_at rfl) (by decide)).bind
    refine .bind takes_sign (.bind (takes_render t written.1 (ends_of_sign (by decide)) ?_) ?_)
    · simp only [length_append, length_cons] at enough ⊢
      omega
    · refine .bind takes_sign ((takes_render u written.2 ends ?_).bind takes_pure)
      simp only [length_append, length_cons] at enough ⊢
      omega
  | pointer t =>
    rw [Written] at written
    rw [isOpen] at ends
    have text : (render (.pointer t)).toList ++ k = '*' :: (t.render.toList ++ k) := by simp [render]
    rw [text] at enough ⊢
    apply Takes.rule
    refine .later ?_ refuses_wordsAtSign
    iterate 2 refine .later ?_ (refuses_otherSign rfl (by decide) (by decide))
    refine .later ?_ refuses_wordsAtSign
    apply Takes.here
    apply Takes.rule
    refine .bind takes_sign ((takes_render t written ends ?_).bind takes_pure)
    simp only [length_append, length_cons] at enough ⊢
    omega
  | struct ts =>
    rw [Written] at written
    have text : (render (.struct ts)).toList ++ k = "struct".toList ++
        ('\x7b' :: ([';', ' '].intercalate (ts.map fun t => t.render.toList) ++ ('\x7d' :: k))) := by
      simp [render, renderAll_eq, Function.comp_def]
    rw [text] at enough ⊢
    apply Takes.rule
    refine .later ?_ (refuses_otherWord (stops_at rfl))
    iterate 2 refine .later ?_ (refuses_bracket (by decide))
    refine .later ?_ (refuses_otherWord (stops_at rfl))
    refine .later ?_ (refuses_star (by decide))
    apply Takes.here
    apply Takes.rule
    apply (takes_keyword (stops_at rfl) (by decide)).bind
    refine .bind (takes_list (m := n - 1) ?_ (refuses_close (by decide) n k) ?_) takes_pure
    · intro t member k' short head
      simp only [length_append, length_cons] at enough
      exact takes_renderAll ts written t member (.of_head head) (by omega)
    · simp only [length_append, length_cons] at enough ⊢
      omega
  | interface ms =>
    rw [Written] at written
    have text : (render (.interface ms)).toList ++ k = "interface".toList ++
        ('\x7b' :: ([';', ' '].intercalate (ms.map String.toList) ++ ('\x7d' :: k))) := by
      simp [render]
    rw [text]
    apply Takes.rule
    refine .later ?_ (refuses_otherWord (stops_at rfl))
    iterate 2 refine .later ?_ (refuses_bracket (by decide))
    refine .later ?_ (refuses_otherWord (stops_at rfl))
    refine .later ?_ (refuses_star (by decide))
    refine .later ?_ (refuses_otherWord (stops_at rfl))
    apply Takes.here
    apply Takes.rule
    apply (takes_keyword (stops_at rfl) (by decide)).bind
    refine .bind (takes_list ?_ ?_ (Nat.le_refl _))
      takes_pure
    · intro m member k' _ head
      exact takes_name (written m member) (Ends.of_head (o := true) head).stops
    · exact refuses_name (heads_sign (by decide))
  | tuple ts =>
    rw [Written] at written
    have text : (render (.tuple ts)).toList ++ k =
        '(' :: ([',', ' '].intercalate (ts.map fun t => t.render.toList) ++ (')' :: k)) := by
      simp [render, renderAll_eq, Function.comp_def]
    rw [text] at enough ⊢
    apply Takes.rule
    refine .later ?_ refuses_wordsAtSign
    iterate 2 refine .later ?_ (refuses_otherSign rfl (by decide) (by decide))
    refine .later ?_ refuses_wordsAtSign
    refine .later ?_ (refuses_otherSign rfl (by decide) (by decide))
    iterate 2 refine .later ?_ refuses_wordsAtSign
    refine .later ?_ (refuses_keyword_head (by decide) (heads_sign (by decide))).bind
    apply Takes.here
    apply Takes.rule
    refine .bind (takes_list (m := n - 1) ?_ (refuses_close (by decide) n k) ?_) takes_pure
    · intro t member k' short head
      simp only [length_append, length_cons] at enough
      exact takes_renderAll ts written t member (.of_head head) (by omega)
    · simp only [length_append, length_cons] at enough ⊢
      omega
termination_by structural t

theorem takes_renderAll (ts : List Ty) (written : WrittenAll ts) (t : Ty) (member : t ∈ ts) {n : Nat} {k : List Char}
    (ends : Ends t.isOpen k) (enough : (t.render.toList ++ k).length < n) :
    Takes (tyWithin n) (t.render.toList ++ k) t k := by
  cases ts with
  | nil => exact absurd member not_mem_nil
  | cons u ts =>
    rw [WrittenAll] at written
    rcases mem_cons.1 member with eq | member
    · rw [eq] at ends enough ⊢
      exact takes_render u written.1 ends enough
    · exact takes_renderAll ts written.2 t member ends enough
termination_by structural ts

end

end

end ChanFlow.Ty
