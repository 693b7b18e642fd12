import ChanFlow.Text.Lexeme
import Mathlib.Data.List.Basic

/-!
Reading a text of a known form.

A lexeme passes over the blanks behind it, so a parser made of lexemes always starts where the next
piece of text starts. `Takes` and `Refuses` therefore speak of texts up to the blanks they start with,
and the rules for sequences, choices and repetitions pass from one piece of the text to the next.

`Finds` goes the other way: whatever the text was, what a parser finds in it is of a certain kind
(`Yields`), or stands in a relation to the places where it starts and stops. A choice is ordered, so
what a later part finds also says that the earlier ones do not match there.
-/
open List

namespace ChanFlow.Text

variable {c : Char} {continues : Char → Bool} {cs rest taken : List Char} {text : String}

/-- What is left of a text after the blanks and comments it starts with. -/
def skipped (cs : List Char) : List Char := (Cursor.skip false 0 cs).rest

/-- Neither a blank nor the start of a comment. -/
def isSolid (c : Char) : Bool := !isBlank c && c != '/'

theorem skip_rest (inComment : Bool) (offset start : Nat) (cs : List Char) :
    (Cursor.skip inComment offset cs).rest = (Cursor.skip inComment start cs).rest := by
  induction cs generalizing inComment offset start with
  | nil => rfl
  | cons c cs ih =>
    unfold Cursor.skip
    split
    · apply ih
    · split
      · apply ih
      · split
        · apply ih
        · rfl

theorem length_skip_le (inComment : Bool) (offset : Nat) (cs : List Char) :
    (Cursor.skip inComment offset cs).rest.length ≤ cs.length := by
  induction cs generalizing inComment offset with
  | nil => simp [Cursor.skip]
  | cons c cs ih =>
    unfold Cursor.skip
    split
    · exact Nat.le_succ_of_le (ih _ _)
    · split
      · exact Nat.le_succ_of_le (ih _ _)
      · split
        · exact Nat.le_succ_of_le (ih _ _)
        · simp

theorem length_skipped_le (cs : List Char) : (skipped cs).length ≤ cs.length := length_skip_le false 0 cs

theorem skipped_blank (blank : isBlank c = true) (cs : List Char) : skipped (c :: cs) = skipped cs := by
  unfold skipped
  rw [Cursor.skip, if_neg (by simp), if_pos blank, skip_rest _ _ 0]

theorem skipped_blanks {bs : List Char} (blank : ∀ b ∈ bs, isBlank b = true) (cs : List Char) :
    skipped (bs ++ cs) = skipped cs := by
  induction bs with
  | nil => rfl
  | cons b bs ih =>
    rw [cons_append, skipped_blank (blank b mem_cons_self)]
    exact ih fun b' later => blank b' (mem_cons_of_mem b later)

@[simp] theorem skipped_newline (cs : List Char) : skipped ('\n' :: cs) = skipped cs :=
  skipped_blank (by decide) cs

@[simp] theorem skipped_space (cs : List Char) : skipped (' ' :: cs) = skipped cs :=
  skipped_blank (by decide) cs

@[simp] theorem skipped_nil : skipped [] = [] := rfl

theorem skipped_solid (solid : isSolid c = true) (cs : List Char) : skipped (c :: cs) = c :: cs := by
  have parts : isBlank c = false ∧ c ≠ '/' := by simpa [isSolid] using solid
  simp [skipped, Cursor.skip, parts]

/-- Text that starts with a solid character counts in full. -/
theorem length_skipped_lt (solid : isSolid c = true) (cs rest : List Char) :
    (skipped rest).length < (skipped (c :: (cs ++ rest))).length := by
  have le := length_skipped_le rest
  rw [skipped_solid solid, length_cons, length_append]
  omega

/-- The characters of a class without blanks and slash are solid. -/
theorem isSolid_of {kind : Char → Bool} (others : [' ', '\t', '\n', '\r', '/'].any kind = false)
    (holds : kind c = true) : isSolid c = true := by
  have other (d : Char) (member : d ∈ [' ', '\t', '\n', '\r', '/']) : c ≠ d := by
    rintro rfl
    exact any_eq_false.1 others c member holds
  simpa [isSolid, isBlank, and_assoc] using other

theorem isSolid_of_startsName (starts : startsName c = true) : isSolid c = true := isSolid_of rfl starts

/-- The text does not start with a character of the class. -/
def Stops (continues : Char → Bool) (cs : List Char) : Prop := ∀ c ∈ cs.head?, continues c = false

theorem stops_cons : Stops continues (c :: cs) ↔ continues c = false := by simp [Stops]

theorem stops_at (other : continues c = false) : Stops continues (c :: cs) := stops_cons.2 other

/-- Behind its blanks the text starts with a character of the kind, if with any. -/
abbrev Heads (kind : Char → Prop) (cs : List Char) : Prop := ∀ c ∈ (skipped cs).head?, kind c

theorem heads_sign {kind : Char → Prop} (holds : kind c) (solid : isSolid c = true := by decide) :
    Heads kind (c :: cs) := by
  simpa [Heads, skipped_solid solid] using holds

theorem heads_nil {kind : Char → Prop} : Heads kind [] := by simp [Heads]

theorem Heads.after_space {kind : Char → Prop} (heads : Heads kind cs) : Heads kind (' ' :: cs) := by
  rwa [Heads, skipped_space]

section

variable (stops : Stops continues rest) (all : ∀ c ∈ taken, continues c = true)
include stops all

theorem Stops.takeWhile :
    (taken ++ rest).takeWhile continues = taken := by
  rw [takeWhile_append_of_pos all]
  cases rest with
  | nil => simp
  | cons c rest => simp [stops_cons.1 stops]

theorem Stops.dropWhile :
    (taken ++ rest).dropWhile continues = rest := by
  rw [dropWhile_append_of_pos all]
  cases rest with
  | nil => rfl
  | cons c rest => simp [stops_cons.1 stops]

end

/-- A scanner of names takes the whole of a name. -/
theorem scanName_append (starts : startsName c = true) (all : ∀ c ∈ taken, continues c = true)
    (stops : Stops continues rest) : scanName continues (c :: taken ++ rest) = some (c :: taken, rest) := by
  simp [scanName, starts, stops.takeWhile all, stops.dropWhile all]

theorem scanRun_append {p : Char → Bool} (nonempty : taken ≠ []) (all : ∀ c ∈ taken, p c = true)
    (stops : Stops p rest) : scanRun p (taken ++ rest) = .some (taken, rest) := by
  unfold scanRun
  rw [stops.takeWhile all, stops.dropWhile all]
  cases taken with
  | nil => exact absurd rfl nonempty
  | cons c taken => rfl

/-- Where a text starts with one word, the scanner of a word finds it exactly if it is that one: a word
that is the start of another is not taken for it. -/
theorem scanWord_append {w v : String} (sought : ∀ c ∈ w.toList, continues c = true)
    (all : ∀ c ∈ v.toList, continues c = true) (stops : Stops continues rest) :
    scanWord continues w (v.toList ++ rest) = if w = v then some (w.toList, rest) else none := by
  unfold scanWord
  cases found : w.toList.isPrefixOf? (v.toList ++ rest) with
  | none =>
    have other : w ≠ v := by
      rintro rfl
      simp [isPrefixOf?_eq_some_iff_append_eq.2 rfl] at found
    simp [other]
  | some left =>
    have split := isPrefixOf?_eq_some_iff_append_eq.1 found
    rcases append_eq_append_iff.1 split with ⟨more, longer, after⟩ | ⟨more, shorter, after⟩
    · -- the word found lies within `v`, and is `v` or is continued by its next character
      cases more with
      | nil =>
        obtain rfl : w = v := String.toList_inj.1 (by simpa using longer.symm)
        obtain rfl : left = rest := by simpa using after
        cases left with
        | nil => simp
        | cons c left => simp [stops_cons.1 stops]
      | cons c more =>
        have other : w ≠ v := by
          rintro rfl
          simp at longer
        have continued : continues c = true := all c (by simp [longer])
        simp [after, continued, other]
    · -- a word longer than `v` would have the character that stops `v`
      cases more with
      | nil =>
        obtain rfl : w = v := String.toList_inj.1 (by simpa using shorter)
        obtain rfl : left = rest := by simpa using after.symm
        cases left with
        | nil => simp
        | cons c left => simp [stops_cons.1 stops]
      | cons c more =>
        have continued : continues c = true := sought c (by simp [shorter])
        rw [after, cons_append, stops_cons, continued] at stops
        exact absurd stops (by decide)

namespace Parser

variable {φ ψ α β : Type}

/-! ### What is found by each combinator -/

section

variable {p q : Parser φ α} {f : α → Parser φ β} {c : Cursor}

@[simp] theorem found_pure (a : α) : ((pure a : Parser φ α) c).found = some ⟨a, none, c⟩ := rfl

@[simp] theorem found_bind : ((p >>= f) c).found = (p c).found.bind fun m =>
    (f m.value m.next).found.map fun m' => { m' with fault := m.fault <|> m'.fault } := by
  simp only [Bind.bind, Parser.bind]
  split
  · next eq => rw [eq, Option.bind_none]
  · next eq => rw [eq, Option.bind_some]

@[simp] theorem found_rule : (rule p c).found = (p c).found := by
  unfold rule
  split
  · next eq => rw [eq]
  · next eq => rw [eq]

@[simp] theorem found_orElse : ((p <|> q) c).found = (p c).found.or (q c).found := by
  simp only [HOrElse.hOrElse, OrElse.orElse, Parser.orElse]
  split
  · next eq => rw [eq, Option.some_or]
  · next eq => rw [eq, Option.none_or]

@[simp] theorem found_token (scan : List Char → Option (List Char × List Char)) :
    (token scan c : Reply φ (List Char)).found =
      (scan c.rest).map fun r => ⟨r.1, none, ⟨c.offset + r.1.length, r.2⟩⟩ := by
  unfold token
  split
  · next eq => rw [eq, Option.map_some]
  · next eq => rw [eq, Option.map_none]

@[simp] theorem found_literal (s : String) : (literal s c : Reply φ Unit).found =
    (s.toList.isPrefixOf? c.rest).map fun rest => ⟨(), none, ⟨c.offset + s.length, rest⟩⟩ := by
  unfold literal
  split
  · next eq => rw [eq, Option.map_some]
  · next eq => rw [eq, Option.map_none]

end

/-- The parser takes the text from `cs` up to `rest`, for the given value and without a fault. -/
def Takes (p : Parser φ α) (cs : List Char) (a : α) (rest : List Char) : Prop :=
  ∀ offset, ∃ stop, (p ⟨offset, skipped cs⟩).found = some ⟨a, none, ⟨stop, skipped rest⟩⟩

/-- The parser does not match at the text. -/
def Refuses (p : Parser φ α) (cs : List Char) : Prop := ∀ offset, (p ⟨offset, skipped cs⟩).found = none

section

variable {p : Parser φ α} {q : Parser φ α} {f : α → Parser φ β} {ps : List (Parser φ α)}
  {a : α} {b : β} {cs mid rest : List Char}

theorem Takes.congr (takes : Takes p cs a rest) {cs' rest' : List Char} (start : skipped cs' = skipped cs)
    (stop : skipped rest' = skipped rest) : Takes p cs' a rest' := by
  unfold Takes at takes ⊢
  rwa [start, stop]

theorem Takes.after_space (takes : Takes p cs a rest) : Takes p (' ' :: cs) a rest :=
  takes.congr (skipped_space cs) rfl

theorem Takes.after_newline (takes : Takes p cs a rest) : Takes p ('\n' :: cs) a rest :=
  takes.congr (skipped_newline cs) rfl

theorem takes_pure : Takes (pure a : Parser φ α) cs a cs := fun offset => ⟨offset, rfl⟩

theorem Takes.bind (first : Takes p cs a mid) (second : Takes (f a) mid b rest) : Takes (p >>= f) cs b rest := by
  intro offset
  obtain ⟨here, found⟩ := first offset
  obtain ⟨stop, found'⟩ := second here
  exact ⟨stop, by simp [found, found']⟩

theorem Refuses.bind (first : Refuses p cs) : Refuses (p >>= f) cs := fun offset => by simp [first offset]

/-- A sequence does not match where its second part does not match behind the first. -/
theorem Takes.refuses (first : Takes p cs a mid) (second : Refuses (f a) mid) : Refuses (p >>= f) cs := by
  intro offset
  obtain ⟨here, found⟩ := first offset
  simp [found, second here]

theorem Takes.rule (takes : Takes p cs a rest) : Takes (rule p) cs a rest := fun offset => by simpa using takes offset

theorem Refuses.rule (refuses : Refuses p cs) : Refuses (rule p) cs := fun offset => by simpa using refuses offset

theorem Takes.orElse (takes : Takes p cs a rest) : Takes (p <|> q) cs a rest := by
  intro offset
  obtain ⟨stop, found⟩ := takes offset
  exact ⟨stop, by simp [found]⟩

theorem Refuses.orElse (refuses : Refuses p cs) (takes : Takes q cs a rest) : Takes (p <|> q) cs a rest :=
  fun offset => by simpa [refuses offset] using takes offset

/-- A choice does not match where neither part does. -/
theorem Refuses.or (first : Refuses p cs) (second : Refuses q cs) : Refuses (p <|> q) cs :=
  fun offset => by simp [first offset, second offset]

theorem Refuses.congr {cs' : List Char} (refuses : Refuses p cs) (start : skipped cs' = skipped cs) :
    Refuses p cs' := by
  unfold Refuses at refuses ⊢
  rwa [start]

theorem Takes.here (takes : Takes p cs a rest) : Takes (firstOf (p :: ps)) cs a rest := takes.orElse

theorem Takes.later (takes : Takes (firstOf ps) cs a rest) (refuses : Refuses p cs) :
    Takes (firstOf (p :: ps)) cs a rest := refuses.orElse takes

/-- A property of all items of a list, as a chain of conjuncts for a list that is written out. -/
@[reducible] def Each {ι : Type} (P : ι → Prop) : List ι → Prop
  | [] => True
  | [a] => P a
  | a :: b :: rest => P a ∧ Each P (b :: rest)

theorem each_iff {ι : Type} {P : ι → Prop} {as : List ι} : Each P as ↔ ∀ a ∈ as, P a := by
  induction as with
  | nil => simp [Each]
  | cons a rest ih =>
    cases rest with
    | nil => simp [Each]
    | cons b rest => exact (and_congr_right fun _ => ih).trans forall_mem_cons.symm

theorem refuses_firstOf (refuse : Each (Refuses · cs) ps) : Refuses (firstOf ps) cs := by
  rw [each_iff] at refuse
  induction ps with
  | nil => exact fun _ => rfl
  | cons p ps ih =>
    rw [forall_mem_cons] at refuse
    exact refuse.1.or (ih refuse.2)

theorem Takes.opt (takes : Takes p cs a rest) : Takes (opt p) cs (some a) rest :=
  Takes.orElse (takes.bind takes_pure)

theorem Refuses.opt (refuses : Refuses p cs) : Takes (opt p) cs none cs :=
  refuses.bind.orElse takes_pure

/-- Items one after the other, each of which takes something, and then no further item. -/
inductive Chain (p : Parser φ α) : List Char → List α → List Char → Prop
  | done {cs : List Char} : Refuses p cs → Chain p cs [] cs
  | item {cs : List Char} (mid : List Char) {rest : List Char} {a : α} {as : List α} :
      Takes p cs a mid → (skipped mid).length < (skipped cs).length → Chain p mid as rest →
        Chain p cs (a :: as) rest

theorem Chain.length_le {as : List α} (chain : Chain p cs as rest) : as.length ≤ (skipped cs).length := by
  induction chain with
  | done => simp
  | item _ _ shorter _ ih =>
    rw [length_cons]
    omega

theorem Chain.upTo {as : List α} (chain : Chain p cs as rest) {n : Nat} (enough : as.length ≤ n) :
    Takes (upTo p n) cs as rest := by
  induction chain generalizing n with
  | done refuses =>
    cases n with
    | zero => exact takes_pure
    | succ n => exact refuses.bind.orElse takes_pure
  | item _ takes _ _ ih =>
    cases n with
    | zero => simp at enough
    | succ n => exact Takes.orElse (takes.bind (Takes.bind (ih (by simpa using enough)) takes_pure))

theorem Chain.many {as : List α} (chain : Chain p cs as rest) : Takes (many p) cs as rest := by
  intro offset
  exact chain.upTo (Nat.le_succ_of_le chain.length_le) offset

/-- Items with separators between them, where each separator and item take something. -/
theorem Takes.sepBy1 {sep : Parser φ Unit} {as : List α} (first : Takes p cs a mid)
    (others : Chain (do sep; p) mid as rest) : Takes (sepBy1 p sep) cs (a :: as) rest :=
  first.bind (others.many.bind takes_pure)

theorem Takes.checked (takes : Takes p cs a rest) : Takes (checked p : Parser ψ (Except φ α)) cs (.ok a) rest := by
  intro offset
  obtain ⟨stop, found⟩ := takes offset
  exact ⟨stop, by simp [Parser.checked, found]⟩

theorem Refuses.checked (refuses : Refuses p cs) : Refuses (checked p : Parser ψ (Except φ α)) cs := by
  intro offset
  simp [Parser.checked, refuses offset]

end

section

variable {scan : List Char → Option (List Char × List Char)} {c : Char} {taken rest : List Char} {s : String}

/-- Behind a lexeme its blanks are passed over. -/
theorem Takes.lexeme {p : Parser φ α} {a : α}
    (found : ∀ offset, ∃ stop, (p ⟨offset, skipped cs⟩).found = some ⟨a, none, ⟨stop, rest⟩⟩) :
    Takes (lexeme p) cs a rest := by
  intro offset
  obtain ⟨stop, found⟩ := found offset
  refine ⟨(Cursor.skip false stop rest).offset, ?_⟩
  have left : skipped rest = (Cursor.skip false stop rest).rest := skip_rest false 0 stop rest
  simp [Parser.lexeme, found, blanks, left]

theorem takes_token (solid : isSolid c = true) (scanned : scan (c :: taken ++ rest) = some (c :: taken, rest)) :
    Takes (lexeme (token scan) : Parser φ (List Char)) (c :: taken ++ rest) (c :: taken) rest := by
  apply Takes.lexeme
  intro offset
  refine ⟨offset + (c :: taken).length, ?_⟩
  rw [cons_append, skipped_solid solid, ← cons_append, found_token, scanned, Option.map_some]

theorem refuses_token (absent : scan (skipped cs) = none) : Refuses (lexeme (token scan) : Parser φ (List Char)) cs :=
  Refuses.bind fun offset => by simp [absent]

/-- A symbol that is not passed over is taken. -/
theorem takes_symbol_start (start : skipped (s.toList ++ rest) = s.toList ++ rest) :
    Takes (symbol s : Parser φ Unit) (s.toList ++ rest) () rest := by
  have found : s.toList.isPrefixOf? (s.toList ++ rest) = some rest := isPrefixOf?_eq_some_iff_append_eq.2 rfl
  apply Takes.lexeme
  intro offset
  exact ⟨offset + s.length, by rw [start, found_literal, found, Option.map_some]⟩

theorem takes_symbol (written : s.toList = c :: taken) (solid : isSolid c = true) :
    Takes (symbol s : Parser φ Unit) (s.toList ++ rest) () rest := by
  apply takes_symbol_start
  rw [written, cons_append, skipped_solid solid]

theorem refuses_symbol (absent : s.toList.isPrefixOf? (skipped cs) = none) : Refuses (symbol s : Parser φ Unit) cs :=
  Refuses.bind fun offset => by simp [absent]

theorem scanName_none (other : Heads (startsName · = false) cs) : scanName continues (skipped cs) = none := by
  cases eq : skipped cs with
  | nil => rfl
  | cons c cs => simp [scanName, other c (by simp [eq])]

/-- A word: one character that may start a name, and others that continue it. -/
def Wordlike (continues : Char → Bool) (n : String) : Prop :=
  ∃ c cs, n.toList = c :: cs ∧ startsName c = true ∧ ∀ c ∈ cs, continues c = true

section

variable {n : String} (wordlike : Wordlike continues n)
include wordlike

theorem Wordlike.all (goesOn : ∀ c, startsName c = true → continues c = true) :
    ∀ c ∈ n.toList, continues c = true := by
  obtain ⟨c, cs, eq, starts, all⟩ := wordlike
  simpa [eq] using And.intro (goesOn c starts) all

theorem Wordlike.skipped : skipped (n.toList ++ rest) = n.toList ++ rest := by
  obtain ⟨c, cs, eq, starts, -⟩ := wordlike
  rw [eq, cons_append, skipped_solid (isSolid_of_startsName starts)]

theorem Wordlike.scanName (stops : Stops continues rest) :
    scanName continues (n.toList ++ rest) = some (n.toList, rest) := by
  obtain ⟨c, cs, eq, starts, all⟩ := wordlike
  rw [eq]
  exact scanName_append starts all stops

theorem Wordlike.takes (scanned : scan (n.toList ++ rest) = some (n.toList, rest)) :
    Takes (lexeme (token scan) : Parser φ (List Char)) (n.toList ++ rest) n.toList rest := by
  obtain ⟨c, cs, eq, starts, -⟩ := wordlike
  rw [eq] at scanned ⊢
  exact takes_token (isSolid_of_startsName starts) scanned

theorem Wordlike.takes_name (stops : Stops continues rest) :
    Takes (do return String.ofList (← lexeme (token (Text.scanName continues))) : Parser φ String)
      (n.toList ++ rest) n rest := by
  have takes := (wordlike.takes (φ := φ) (wordlike.scanName stops)).bind (f :=
    fun w => pure (String.ofList w)) takes_pure
  rwa [String.ofList_toList] at takes

theorem Wordlike.takes_keyword (all : ∀ c ∈ n.toList, continues c = true) (stops : Stops continues rest) :
    Takes (do let _ ← lexeme (token (scanWord continues n)) : Parser φ Unit) (n.toList ++ rest) () rest := by
  have scanned := scanWord_append all all stops
  rw [if_pos rfl] at scanned
  exact (wordlike.takes scanned).bind takes_pure

end

theorem takes_report : Takes (report none : Parser φ Unit) cs () cs := fun offset => ⟨offset, rfl⟩

theorem takes_eoi : Takes (eoi : Parser φ Unit) [] () [] := fun offset => ⟨offset, rfl⟩

/-- A whole text is read where it is taken up to its end. -/
theorem Takes.run {p : Parser φ α} {a : α} (takes : Takes p text.toList a rest) :
    ∃ m, Parser.run (Parser.rule (do blanks; p)) text = .ok m ∧ m.value = a := by
  obtain ⟨stop, found⟩ := takes (Cursor.skip false 0 text.toList).offset
  have whole : ((do blanks; p) (Cursor.start text)).found = some ⟨a, none, ⟨stop, skipped rest⟩⟩ := by
    simpa [blanks, Bind.bind, Parser.bind, Cursor.start, skipped] using found
  refine ⟨⟨a, none, ⟨stop, skipped rest⟩⟩, ?_, rfl⟩
  unfold Parser.run Parser.rule
  revert whole
  generalize (do blanks; p) (Cursor.start text) = reply
  rintro whole
  obtain ⟨reach, found⟩ := reply
  obtain rfl : found = _ := whole
  rfl

end

/-! ### What is found -/

section

variable {c : Cursor} {p q : Parser φ α} {f : α → Parser φ β} {ps : List (Parser φ α)}
  {Q Q' : Cursor → α → Cursor → Prop}
  {R : Cursor → β → Cursor → Prop} {P : α → Prop} {S : β → Prop} {strict : Prop}

/-- A sequence that does not match where its first part does is stopped by the second part. -/
theorem refused_bind {m : Match φ α} (found : (p c).found = some m) (refused : ((p >>= f) c).found = none) :
    (f m.value m.next).found = none := by
  simpa [found] using refused

/-- A sequence whose second part always matches is stopped by the first part. -/
theorem refused_first (goes : ∀ a c, (f a c).found ≠ none) (refused : ((p >>= f) c).found = none) :
    (p c).found = none := by
  cases found : (p c).found with
  | none => rfl
  | some m => exact absurd (refused_bind found refused) (goes _ _)

/-- What the parser finds stands in a relation to the places before and after it. If this is meant strictly, it is said
only of what is found without a fault. -/
structure Finds (p : Parser φ α) (Q : Cursor → α → Cursor → Prop) (strict : Prop := True) : Prop where
  value : ∀ c m, (p c).found = some m → (strict → m.fault = none) → Q c m.value m.next

/-- Whatever the parser finds is of a kind. -/
abbrev Yields (p : Parser φ α) (P : α → Prop) (strict : Prop := True) : Prop := Finds p (fun _ a _ => P a) strict

theorem Finds.mono (finds : Finds p Q strict) (weaker : ∀ c a c', Q c a c' → Q' c a c') : Finds p Q' strict :=
  ⟨fun c m found sound => weaker _ _ _ (finds.value c m found sound)⟩

theorem Finds.and (first : Finds p Q strict) (second : Finds p Q' strict) :
    Finds p (fun c a c' => Q c a c' ∧ Q' c a c') strict :=
  ⟨fun c m found sound => ⟨first.value c m found sound, second.value c m found sound⟩⟩

theorem finds_any : Finds p (fun _ _ _ => True) strict := ⟨fun _ _ _ _ => trivial⟩

theorem finds_pure {a : α} (holds : ∀ c, Q c a c) : Finds (pure a : Parser φ α) Q strict := by
  refine ⟨fun c m found _ => ?_⟩
  obtain rfl : _ = m := Option.some.inj found
  exact holds c

theorem Finds.bind (first : Finds p Q strict)
    (next : ∀ a, Finds (f a) (fun mid b c' => ∀ c, Q c a mid → R c b c') strict) :
    Finds (p >>= f) R strict := by
  refine ⟨fun c m found sound => ?_⟩
  rw [found_bind, Option.bind_eq_some_iff] at found
  obtain ⟨m₁, found₁, found⟩ := found
  obtain ⟨m₂, found₂, rfl⟩ := Option.map_eq_some_iff.1 found
  have both (isStrict : strict) : m₁.fault = none ∧ m₂.fault = none := by
    simpa using sound isStrict
  exact (next m₁.value).value m₁.next m₂ found₂ (fun isStrict => (both isStrict).2) c
    (first.value c m₁ found₁ fun isStrict => (both isStrict).1)

theorem Finds.rule (finds : Finds p Q strict) : Finds (rule p) Q strict :=
  ⟨fun c m found => finds.value c m (found_rule ▸ found)⟩

/-- The second part of a choice is tried where the first does not match. -/
theorem Finds.orElse (first : Finds p Q strict)
    (second : Finds q (fun c a c' => (p c).found = none → Q c a c') strict) : Finds (p <|> q) Q strict := by
  refine ⟨fun c m found sound => ?_⟩
  rw [found_orElse, Option.or_eq_some_iff] at found
  rcases found with found | ⟨refused, found⟩
  · exact first.value c m found sound
  · exact second.value c m found sound refused

theorem finds_firstOf (each : Each (Finds · Q strict) ps) : Finds (firstOf ps) Q strict := by
  rw [each_iff] at each
  induction ps with
  | nil => exact ⟨fun _ _ found => nomatch found⟩
  | cons p ps ih =>
    rw [forall_mem_cons] at each
    exact each.1.orElse ((ih each.2).mono fun _ _ _ holds _ => holds)

/-- Items found one after the other. -/
inductive Trail (Q : Cursor → α → Cursor → Prop) : Cursor → List α → Cursor → Prop
  | nil {c : Cursor} : Trail Q c [] c
  | cons {c mid c' : Cursor} {a : α} {as : List α} (item : Q c a mid) (rest : Trail Q mid as c') :
    Trail Q c (a :: as) c'

theorem Trail.all {c c' : Cursor} {as : List α} (trail : Trail (fun _ a _ => P a) c as c') : ∀ a ∈ as, P a := by
  induction trail with
  | nil => simp
  | cons item _ ih => exact forall_mem_cons.2 ⟨item, ih⟩

theorem Finds.many (finds : Finds p Q strict) : Finds (many p) (Trail Q) strict := by
  have upTo (n : Nat) : Finds (upTo p n) (Trail Q) strict := by
    induction n with
    | zero => exact finds_pure fun _ => .nil
    | succ n ih =>
      refine .orElse (finds.bind fun a => ih.bind fun as => ?_) (finds_pure fun _ _ => .nil)
      exact finds_pure fun _ _ trail _ item => .cons item trail
  exact ⟨fun c => (upTo _).value c⟩

theorem Finds.opt (finds : Finds p Q strict) :
    Finds (opt p) (fun c o c' => (∀ a ∈ o, Q c a c') ∧ (o = none → c' = c ∧ (p c).found = none)) strict := by
  refine .orElse (finds.bind fun a => finds_pure fun _ _ holds => ?_) (finds_pure fun c refused => ?_)
  · simpa using holds
  · exact ⟨by simp, fun _ => ⟨rfl, refused_first (fun _ _ => Option.some_ne_none _) refused⟩⟩

/-- Faults are handed over as values. -/
theorem Finds.checked (finds : Finds p Q) :
    Finds (checked p : Parser ψ (Except φ α)) (fun c r c' => ∀ a, r = .ok a → Q c a c') strict := by
  refine ⟨fun c m found _ a value => ?_⟩
  obtain ⟨m₁, here, rfl⟩ := Option.map_eq_some_iff.1 found
  cases fault : m₁.fault with
  | some e => simp [fault] at value
  | none =>
    obtain rfl : m₁.value = a := by simpa [fault] using value
    exact finds.value c m₁ here fun _ => fault

theorem yields_any : Yields p (fun _ => True) strict := finds_any

theorem yields_pure {a : α} (holds : P a) : Yields (pure a : Parser φ α) P strict := finds_pure fun _ => holds

theorem Yields.bind (first : Yields p P strict) (next : ∀ a, P a → Yields (f a) S strict) :
    Yields (p >>= f) S strict :=
  Finds.bind first fun a => ⟨fun c m found sound _ holds => (next a holds).value c m found sound⟩

theorem yields_after (next : ∀ a, Yields (f a) S strict) : Yields (p >>= f) S strict :=
  yields_any.bind fun a _ => next a

theorem Yields.rule (yields : Yields p P strict) : Yields (rule p) P strict := Finds.rule yields

theorem Yields.orElse (first : Yields p P strict) (second : Yields q P strict) : Yields (p <|> q) P strict :=
  Finds.orElse first (Finds.mono second fun _ _ _ holds _ => holds)

theorem yields_firstOf (each : Each (Yields · P) ps) : Yields (firstOf ps) P := finds_firstOf each

theorem Yields.opt (yields : Yields p P) : Yields (opt p) fun found => ∀ a ∈ found, P a :=
  (Finds.opt yields).mono fun _ _ _ found => found.1

theorem Yields.many (yields : Yields p P strict) : Yields (many p) (fun as => ∀ a ∈ as, P a) strict :=
  (Finds.many yields).mono fun _ _ _ trail => trail.all

theorem Yields.checked (yields : Yields p P) :
    Yields (checked p : Parser ψ (Except φ α)) (fun found => ∀ a, found = .ok a → P a) strict :=
  Finds.checked yields

theorem Yields.sepBy1 {sep : Parser φ Unit} (yields : Yields p P) :
    Yields (sepBy1 p sep) fun as => ∀ a ∈ as, P a :=
  yields.bind fun _ holds => (Yields.many (yields_after fun _ => yields)).bind fun _ all =>
    yields_pure (forall_mem_cons.2 ⟨holds, all⟩)

theorem Yields.sepBy {sep : Parser φ Unit} (yields : Yields p P) : Yields (sepBy p sep) fun as => ∀ a ∈ as, P a :=
  Finds.orElse yields.sepBy1 (finds_pure (by simp))

theorem Yields.lexeme (yields : Yields p P) : Yields (lexeme p) P :=
  yields.bind fun _ holds => yields_after fun _ => yields_pure holds

theorem yields_token {scan : List Char → Option (List Char × List Char)} {P : List Char → Prop}
    (scans : ∀ cs taken rest, scan cs = some (taken, rest) → P taken) :
    Yields (token scan : Parser φ (List Char)) P := by
  refine ⟨fun c m found _ => ?_⟩
  rw [found_token] at found
  obtain ⟨r, scanned, rfl⟩ := Option.map_eq_some_iff.1 found
  exact scans _ r.1 r.2 scanned

theorem yields_report {fault : Option φ} : Yields (report fault : Parser φ Unit) fun _ => fault = none := by
  refine ⟨fun c m found sound => ?_⟩
  obtain rfl := Option.some.inj found
  exact sound trivial

/-- What is read at the start of a text, whether there are faults or not. -/
theorem Yields.run {m : Match φ α} (yields : Yields p P False) (found : p.run text = .ok m) : P m.value := by
  unfold Parser.run at found
  split at found
  · next eq =>
    obtain rfl := Except.ok.inj found
    exact yields.value _ _ (congrArg Reply.found eq) False.elim
  · exact nomatch found

end

section

variable {p : Parser φ α} {f : α → Parser φ β} {ps : List (Parser φ α)} {c : Cursor} {s : String}
  {scan : List Char → Option (List Char × List Char)}

/-! ### Places where a parser does not match -/

theorem refused_firstOf (refused : (firstOf ps c).found = none) : Each (fun p => (p c).found = none) ps := by
  rw [each_iff]
  induction ps with
  | nil => simp
  | cons p ps ih =>
    rw [firstOf, found_orElse, Option.or_eq_none_iff] at refused
    exact forall_mem_cons.2 ⟨refused.1, ih refused.2⟩

theorem refused_rule (refused : (rule p c).found = none) : (p c).found = none := found_rule ▸ refused

/-- A parser whose result is only used for a value matches wherever the whole does. -/
theorem refused_map {g : α → β} (refused : ((do return g (← p) : Parser φ β) c).found = none) :
    (p c).found = none :=
  refused_first (fun _ _ => Option.some_ne_none _) refused

theorem refused_token (refused : (token scan c : Reply φ (List Char)).found = none) : scan c.rest = none := by
  simpa using refused

theorem refused_literal (refused : (literal s c : Reply φ Unit).found = none) :
    s.toList.isPrefixOf? c.rest = none := by
  simpa using refused

theorem refused_lexeme (refused : (lexeme p c).found = none) : (p c).found = none :=
  refused_first (fun _ _ => Option.some_ne_none _) refused

/-! ### Tokens -/

theorem finds_blanks : Finds (blanks : Parser φ Unit) fun c _ c' => c'.rest = skipped c.rest := by
  refine ⟨fun c m found _ => ?_⟩
  obtain rfl := Option.some.inj found
  exact skip_rest false c.offset 0 c.rest

theorem finds_token :
    Finds (lexeme (token scan) : Parser φ (List Char)) fun c taken c' => ∃ rest, scan c.rest = some (taken, rest) ∧
      c'.rest = skipped rest := by
  have raw : Finds (token scan : Parser φ (List Char)) fun c taken c' => scan c.rest = some (taken, c'.rest) := by
    refine ⟨fun c m found _ => ?_⟩
    rw [found_token] at found
    obtain ⟨r, scanned, rfl⟩ := Option.map_eq_some_iff.1 found
    exact scanned
  exact raw.bind fun taken => .bind finds_blanks fun _ =>
    finds_pure fun c' c blank c₀ scanned => ⟨c.rest, scanned, blank⟩

theorem finds_symbol : Finds (symbol s : Parser φ Unit) fun c _ c' => ∃ rest, c.rest = s.toList ++ rest ∧
    c'.rest = skipped rest := by
  have raw : Finds (literal s : Parser φ Unit) fun c _ c' => c.rest = s.toList ++ c'.rest := by
    refine ⟨fun c m found _ => ?_⟩
    rw [found_literal] at found
    obtain ⟨rest, eq, rfl⟩ := Option.map_eq_some_iff.1 found
    exact (isPrefixOf?_eq_some_iff_append_eq.1 eq).symm
  exact raw.bind fun _ => .bind finds_blanks fun _ => finds_pure fun c' c blank c₀ text => ⟨c.rest, text, blank⟩

/-- What is left behind a parser is no longer than what it started at. -/
def Shrinks (p : Parser φ α) : Prop := Finds p fun c _ c' => c'.rest.length ≤ c.rest.length

theorem shrinks_pure (a : α) : Shrinks (pure a : Parser φ α) := finds_pure fun _ => Nat.le_refl _

theorem Shrinks.bind (first : Shrinks p) (next : ∀ a, Shrinks (f a)) : Shrinks (p >>= f) :=
  Finds.bind first fun a => (next a).mono fun _ _ _ second _ first => Nat.le_trans second first

theorem Shrinks.rule (shrinks : Shrinks p) : Shrinks (rule p) := Finds.rule shrinks

theorem shrinks_firstOf (each : Each Shrinks ps) : Shrinks (firstOf ps) := finds_firstOf each

theorem Shrinks.many (shrinks : Shrinks p) : Shrinks (many p) := by
  refine (Finds.many shrinks).mono fun c as c' trail => ?_
  induction trail with
  | nil => exact Nat.le_refl _
  | cons item _ ih => exact Nat.le_trans ih item

theorem symbol_advances (pos : 0 < s.toList.length) :
    Finds (symbol s : Parser φ Unit) fun c _ c' => c'.rest.length < c.rest.length := by
  refine Finds.mono finds_symbol fun c _ c' found => ?_
  obtain ⟨rest, text, left⟩ := found
  have le := length_skipped_le rest
  rw [text, left, length_append]
  omega

theorem shrinks_symbol (pos : 0 < s.toList.length) : Shrinks (symbol s : Parser φ Unit) :=
  (symbol_advances pos).mono fun _ _ _ => Nat.le_of_lt

theorem shrinks_token (scans : ∀ cs taken rest, scan cs = some (taken, rest) → rest.length ≤ cs.length) :
    Shrinks (lexeme (token scan) : Parser φ (List Char)) := by
  refine .mono finds_token fun c _ c' found => ?_
  obtain ⟨rest, scanned, left⟩ := found
  rw [left]
  exact Nat.le_trans (length_skipped_le rest) (scans _ _ _ scanned)

theorem Shrinks.sepBy {sep : Parser φ Unit} (item : Shrinks p) (between : Shrinks sep) : Shrinks (sepBy p sep) := by
  refine Finds.orElse (item.bind fun a => (Shrinks.many (between.bind fun _ => item)).bind fun as => shrinks_pure _) ?_
  exact finds_pure fun _ _ => Nat.le_refl _

end

end Parser

end ChanFlow.Text
