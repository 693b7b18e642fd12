import ChanFlow.Proofs.Erasure
import ChanFlow.Proofs.Reading
import ChanFlow.Protocol.Reader

/-!
Protocol text read back.

Text says less than a protocol holds: a body that does nothing shows as `tau`, and a parameter has one
name. `Protocol.printed` is what a protocol's text says. Where every name is a name of the grammar, the
text of a protocol is read back as exactly that: the words of the grammar separate it into the pieces it
was put together from, at any depth of branches and selects.
-/
open List

namespace ChanFlow.Protocol

open Statement Text Text.Parser

variable {k cs : List Char} {w : String} {n : Nat}

/-- A name of the grammar. -/
def isName (s : String) : Bool :=
  match s.toList with
  | [] => false
  | c :: cs => startsName c && cs.all Grammar.isNameChar

namespace Statement

mutual

/-- The names of channels and routines in a statement, at any depth, in the order of the text. -/
def names : Statement → List String
  | newChan name _ => [name]
  | send chan | recv chan | close chan => [chan]
  | call routine args | spawn routine args => routine :: args
  | branch t e => namesOfAll t ++ namesOfAll e
  | select cs => namesOfCases cs
  | tau => []

def namesOfAll : List Statement → List String
  | [] => []
  | s :: ss => names s ++ namesOfAll ss

def namesOfCases : List (List Statement) → List String
  | [] => []
  | c :: cs => namesOfAll c ++ namesOfCases cs

end

mutual

/-- The capacities in a statement, at any depth. -/
def capacities : Statement → List Int
  | newChan _ capacity => [capacity]
  | branch t e => capacitiesOfAll t ++ capacitiesOfAll e
  | select cs => capacitiesOfCases cs
  | _ => []

def capacitiesOfAll : List Statement → List Int
  | [] => []
  | s :: ss => capacities s ++ capacitiesOfAll ss

def capacitiesOfCases : List (List Statement) → List Int
  | [] => []
  | c :: cs => capacitiesOfAll c ++ capacitiesOfCases cs

end

theorem namesOfAll_eq (ss : List Statement) : namesOfAll ss = ss.flatMap names := by
  induction ss with
  | nil => rfl
  | cons s ss ih => rw [namesOfAll, ih, flatMap_cons]

theorem namesOfCases_eq (cs : List (List Statement)) : namesOfCases cs = cs.flatMap namesOfAll := by
  induction cs with
  | nil => rfl
  | cons c cs ih => rw [namesOfCases, ih, flatMap_cons]

theorem capacitiesOfAll_eq (ss : List Statement) : capacitiesOfAll ss = ss.flatMap capacities := by
  induction ss with
  | nil => rfl
  | cons s ss ih => rw [capacitiesOfAll, ih, flatMap_cons]

theorem capacitiesOfCases_eq (cs : List (List Statement)) : capacitiesOfCases cs = cs.flatMap capacitiesOfAll := by
  induction cs with
  | nil => rfl
  | cons c cs ih => rw [capacitiesOfCases, ih, flatMap_cons]

/-- Every name in the statement is of a kind, and every capacity is in range. -/
def Spells (P : String → Prop) (s : Statement) : Prop :=
  (∀ n ∈ s.names, P n) ∧ ∀ c ∈ s.capacities, Word.Fits c

section

variable {P : String → Prop}

attribute [local simp] Spells names capacities

@[simp] theorem spells_newChan {name : String} {capacity : Int} :
    Spells P (newChan name capacity) ↔ P name ∧ Word.Fits capacity := by simp

@[simp] theorem spells_send {chan : String} : Spells P (send chan) ↔ P chan := by simp

@[simp] theorem spells_recv {chan : String} : Spells P (recv chan) ↔ P chan := by simp

@[simp] theorem spells_close {chan : String} : Spells P (close chan) ↔ P chan := by simp

@[simp] theorem spells_call {routine : String} {args : List String} :
    Spells P (call routine args) ↔ P routine ∧ ∀ a ∈ args, P a := by simp

@[simp] theorem spells_spawn {routine : String} {args : List String} :
    Spells P (spawn routine args) ↔ P routine ∧ ∀ a ∈ args, P a := by simp

@[simp] theorem spells_tau : Spells P tau := by simp

theorem spells_of_all {ss : List Statement} :
    ((∀ n ∈ namesOfAll ss, P n) ∧ ∀ c ∈ capacitiesOfAll ss, Word.Fits c) ↔ ∀ s ∈ ss, Spells P s := by
  simp only [namesOfAll_eq, capacitiesOfAll_eq, mem_flatMap, Spells]
  grind

@[simp] theorem spells_branch {t e : List Statement} :
    Spells P (branch t e) ↔ (∀ s ∈ t, Spells P s) ∧ ∀ s ∈ e, Spells P s := by
  rw [← spells_of_all, ← spells_of_all, Spells, names, capacities]
  simp only [mem_append]
  grind

@[simp] theorem spells_select {cs : List (List Statement)} :
    Spells P (select cs) ↔ ∀ c ∈ cs, ∀ s ∈ c, Spells P s := by
  simp only [Spells, names, capacities, namesOfCases_eq, capacitiesOfCases_eq, namesOfAll_eq, capacitiesOfAll_eq,
    mem_flatMap]
  grind

end

/-- Every name is a name of the grammar. -/
def Legible (s : Statement) : Prop := s.Spells (isName · = true)

/-- No lists of statements inside. -/
def isPlain : Statement → Bool
  | branch .. | select _ => false
  | _ => true

mutual

/-- The statement with `tau` in each branch and case that is empty. -/
def filled : Statement → Statement
  | branch t e => branch (filledBody t) (filledBody e)
  | select cs => select (filledCases cs)
  | s => s

def filledBody : List Statement → List Statement
  | [] => [tau]
  | s :: ss => filled s :: filledAll ss

def filledAll : List Statement → List Statement
  | [] => []
  | s :: ss => filled s :: filledAll ss

def filledCases : List (List Statement) → List (List Statement)
  | [] => []
  | c :: cs => filledBody c :: filledCases cs

end

end Statement

/-- What the text of a routine says. -/
def Routine.printed (r : Routine) : Routine where
  name := r.name
  params := r.params.map fun q => .same q.callee
  stmts := filledBody r.stmts

/-- The names the text of a routine shows. -/
def Routine.names (r : Routine) : List String := r.name :: r.params.map (·.callee) ++ namesOfAll r.stmts

/-- What the text of a protocol says. -/
def printed (p : Protocol) : Protocol := ⟨p.routines.map (·.printed)⟩

/-- The names the text of a protocol shows. -/
def names (p : Protocol) : List String := p.routines.flatMap (·.names)

def capacities (p : Protocol) : List Int := p.routines.flatMap fun r => capacitiesOfAll r.stmts

/-- No two routines have the same name, and no two parameters of a routine. -/
structure Distinct (p : Protocol) : Prop where
  routines : (p.routines.map (·.name)).Nodup
  params : ∀ r ∈ p.routines, Routine.Distinct r.params

/-- A protocol whose text can be read: routines and parameters are told apart by their names, and names
and capacities follow the grammar. -/
structure Legible (p : Protocol) : Prop extends Distinct p where
  names : ∀ n ∈ p.names, isName n = true
  capacities : ∀ c ∈ p.capacities, Word.Fits c

theorem Legible.stmts {p : Protocol} (legible : p.Legible) {r : Routine} (member : r ∈ p.routines) :
    ∀ s ∈ r.stmts, s.Legible := by
  refine spells_of_all.1 ⟨fun n shown => legible.names n ?_, fun c shown => legible.capacities c ?_⟩
  · exact mem_flatMap.2 ⟨r, member, mem_append_right _ shown⟩
  · exact mem_flatMap.2 ⟨r, member, shown⟩

/-! ### The printed protocol -/

namespace Statement

/-- A body that does nothing prints as `tau` does. -/
theorem renderBody_nil (depth : Nat) : renderBody depth [] = render depth tau := by
  simp [renderBody, render, phrase, String.append_assoc]

mutual

theorem render_filled (depth : Nat) : (s : Statement) → render depth (filled s) = render depth s
  | newChan .. | send _ | recv _ | close _ | call .. | spawn .. | tau => by rw [filled] <;> simp
  | branch t e => by rw [filled, render, render, renderBody_filled (depth + 1) t, renderBody_filled (depth + 1) e]
  | select cs => by rw [filled, render, render, renderCases_filled depth cs]

theorem renderBody_filled (depth : Nat) : (ss : List Statement) → renderBody depth (filledBody ss) =
    renderBody depth ss
  | [] => by rw [filledBody, renderBody_nil, renderBody, renderAll, String.append_empty]
  | s :: ss => by rw [filledBody, renderBody, renderBody, render_filled depth s, renderAll_filled depth ss]

theorem renderAll_filled (depth : Nat) : (ss : List Statement) → renderAll depth (filledAll ss) = renderAll depth ss
  | [] => by simp [filledAll]
  | s :: ss => by rw [filledAll, renderAll, renderAll, render_filled depth s, renderAll_filled depth ss]

theorem renderCases_filled (depth : Nat) :
    (cs : List (List Statement)) → renderCases depth (filledCases cs) = renderCases depth cs
  | [] => by simp [filledCases]
  | c :: cs => by
    rw [filledCases, renderCases, renderCases, renderBody_filled (depth + 2) c, renderCases_filled depth cs]

end

theorem isTau_filled (s : Statement) : (filled s).isTau = s.isTau := by
  cases s <;> rfl

mutual

theorem erased_filled : (s : Statement) → erased (filled s) = erased s
  | newChan .. | send _ | recv _ | close _ | call .. | spawn .. | tau => rfl
  | branch t e => by rw [filled, erased, erased, erasedAll_filledBody t, erasedAll_filledBody e]
  | select cs => by rw [filled, erased, erased, erasedCases_filled cs]

theorem erasedAll_filledBody : (ss : List Statement) → erasedAll (filledBody ss) = erasedAll ss
  | [] => rfl
  | s :: ss => by rw [filledBody, erasedAll, erasedAll, isTau_filled, erased_filled s, erasedAll_filled ss]

theorem erasedAll_filled : (ss : List Statement) → erasedAll (filledAll ss) = erasedAll ss
  | [] => rfl
  | s :: ss => by rw [filledAll, erasedAll, erasedAll, isTau_filled, erased_filled s, erasedAll_filled ss]

theorem erasedCases_filled : (cs : List (List Statement)) → erasedCases (filledCases cs) = erasedCases cs
  | [] => rfl
  | c :: cs => by rw [filledCases, erasedCases, erasedCases, erasedAll_filledBody c, erasedCases_filled cs]

end

end Statement

theorem Routine.render_printed (r : Routine) : r.printed.render = r.render := by
  simp [render, printed, renderBody_filled, Parameter.same, Function.comp_def]

theorem render_printed (p : Protocol) : p.printed.render = p.render := by
  simp [render, printed, Function.comp_def, Routine.render_printed]

theorem equivalent_printed (p : Protocol) : p.equivalent p.printed = true := by
  rw [equivalent_iff]
  simp [erased, printed, Function.comp_def, Routine.erased, Routine.printed, Parameter.same, erasedAll_filledBody]

/-! ### Words and lexemes -/

namespace Grammar

/-- The word a text starts with. -/
def firstWord (cs : List Char) : String := String.ofList ((skipped cs).takeWhile isNameChar)

theorem wordlike_of_isName {n : String} (ok : isName n = true) : Wordlike isNameChar n := by
  unfold isName at ok
  split at ok
  · exact nomatch ok
  · next c cs eq => exact ⟨c, cs, eq, by simpa using ok⟩

theorem isNameChar_of_startsName {c : Char} (starts : startsName c = true) : isNameChar c = true := by
  simp only [startsName, Bool.or_eq_true] at starts
  rcases starts with letter | underscore
  · simp [isNameChar, letter]
  · simp [isNameChar, underscore]

theorem all_of_isName {n : String} (ok : isName n = true) : ∀ c ∈ n.toList, isNameChar c = true :=
  (wordlike_of_isName ok).all fun _ => isNameChar_of_startsName

theorem takes_name {n : String} (ok : isName n = true) (stops : Stops isNameChar k) :
    Takes name (n.toList ++ k) n k := (wordlike_of_isName ok).takes_name stops

theorem refuses_name (other : Heads (startsName · = false) k) : Refuses name k :=
  (refuses_token (scanName_none other)).bind

theorem takes_keyword (stops : Stops isNameChar k) (word : isName w = true) :
    Takes (keyword w) (w.toList ++ k) () k :=
  (wordlike_of_isName word).takes_keyword (all_of_isName word) stops

theorem firstWord_append (word : isName w = true) (stops : Stops isNameChar k) :
    firstWord (w.toList ++ k) = w := by
  rw [firstWord, (wordlike_of_isName word).skipped, stops.takeWhile (all_of_isName word), String.ofList_toList]

theorem firstWord_space (word : isName w = true) :
    firstWord (w.toList ++ ' ' :: k) = w := firstWord_append word (stops_at rfl)

theorem refuses_keyword (word : isName w = true) (other : firstWord k ≠ w) :
    Refuses (keyword w) k := by
  have whole : ∀ c ∈ (firstWord k).toList, isNameChar c = true := by
    rw [firstWord, String.toList_ofList]
    exact all_eq_true.1 all_takeWhile
  have stops : Stops isNameChar ((skipped k).dropWhile isNameChar) := by
    intro c first
    have head := head?_dropWhile_not isNameChar (skipped k)
    rw [Option.mem_def.1 first] at head
    simpa using head
  have scanned := scanWord_append (all_of_isName word) whole stops
  rw [if_neg other.symm] at scanned
  apply Refuses.bind
  apply refuses_token
  simpa [firstWord] using scanned

theorem isDigit_of_mem_toDigits {c : Char} (member : c ∈ Nat.toDigits 10 n) : isDigit c = true := by
  have digit := Nat.isDigit_of_mem_toDigits (by decide) (by decide) member
  simpa [isDigit, Char.isDigit, Char.le_def] using digit

/-- The digits of a number are read as the number. -/
theorem scanRun_toDigits (stops : Stops isDigit k) :
    scanRun isDigit (Nat.toDigits 10 n ++ k) = some (Nat.toDigits 10 n, k) :=
  scanRun_append Nat.toDigits_ne_nil (fun _ => isDigit_of_mem_toDigits) stops

theorem cons_toDigits (n : Nat) : ∃ c cs, Nat.toDigits 10 n = c :: cs ∧ isDigit c = true := by
  cases eq : Nat.toDigits 10 n with
  | nil => exact absurd eq Nat.toDigits_ne_nil
  | cons c cs => exact ⟨c, cs, rfl, isDigit_of_mem_toDigits (n := n) (by simp [eq])⟩

theorem isSolid_of_isDigit {c : Char} (digit : isDigit c = true) : isSolid c = true := isSolid_of rfl digit

theorem stops_digit (stops : Stops isNameChar k) : Stops isDigit k := by
  intro c first
  have other := stops c first
  simp only [isNameChar, Bool.or_eq_false_iff] at other
  exact other.1.1.1.1.2

theorem toList_negSucc (n : Nat) : (toString (Int.negSucc n)).toList = '-' :: Nat.toDigits 10 (n + 1) := by
  change ("-" ++ (n + 1).repr).toList = _
  simp [Nat.toList_repr]

theorem takes_numeral {φ : Type} {i : Int} (stops : Stops isDigit k) :
    Takes (lexeme (token scanInteger) : Parser φ (List Char)) ((toString i).toList ++ k) (toString i).toList k := by
  cases i with
  | ofNat n =>
    obtain ⟨c, cs, eq, digit⟩ := cons_toDigits n
    have sign : c ≠ '-' := by
      rintro rfl
      exact absurd digit (by decide)
    have scanned := scanRun_toDigits (n := n) stops
    rw [show (toString (Int.ofNat n)).toList = c :: cs from Nat.toList_repr.trans eq]
    rw [eq] at scanned
    apply takes_token (isSolid_of_isDigit digit)
    rw [scanInteger, scanned]
    simpa using sign
  | negSucc n =>
    rw [toList_negSucc]
    apply takes_token (by decide)
    simp [scanInteger, scanRun_toDigits stops]

theorem intOfNumeral_toString (i : Int) : intOfNumeral (toString i).toList = i := by
  cases i with
  | ofNat n =>
    obtain ⟨c, cs, eq, digit⟩ := cons_toDigits n
    have sign : c ≠ '-' := by
      rintro rfl
      exact absurd digit (by decide)
    have value : natOfDigits (c :: cs) = n := by
      rw [← eq]
      exact Nat.ofDigitChars_toDigits (by decide) (by decide)
    rw [show (toString (Int.ofNat n)).toList = c :: cs from Nat.toList_repr.trans eq, intOfNumeral]
    · exact congrArg Int.ofNat value
    · simpa using sign
  | negSucc n =>
    have value : natOfDigits (Nat.toDigits 10 (n + 1)) = n + 1 :=
      Nat.ofDigitChars_toDigits (by decide) (by decide)
    rw [toList_negSucc, intOfNumeral, value]
    rfl

theorem takes_capacity {i : Int} (fits : Word.Fits i) (stops : Stops isDigit k) :
    Takes capacity ((toString i).toList ++ k) i k := by
  apply (takes_numeral stops).bind
  simp only [intOfNumeral_toString, if_pos fits]
  exact takes_report.bind takes_pure

/-! ### Argument lists -/

theorem intercalate_cons (sep : List Char) (a : List Char) (as : List (List Char)) :
    sep.intercalate (a :: as) = a ++ as.flatMap (sep ++ ·) := by
  induction as generalizing a with
  | nil => simp [List.intercalate]
  | cons b as ih =>
    have rest := ih b
    simp only [List.intercalate, List.intersperse, flatten_cons, flatMap_cons] at rest ⊢
    simp [rest]

/-- The text of the names behind the first one. -/
def moreNames (as : List String) : List Char := (as.map String.toList).flatMap (", ".toList ++ ·)

theorem stops_moreNames (as : List String) (k : List Char) : Stops isNameChar (moreNames as ++ ')' :: k) := by
  cases as with
  | nil => exact stops_at rfl
  | cons b as => exact stops_at rfl

theorem chain_names {as : List String} (ok : as.all isName = true) :
    Chain (do symbol ","; name) (moreNames as ++ ')' :: k) as (')' :: k) := by
  induction as with
  | nil =>
    apply Chain.done
    apply Refuses.bind
    apply refuses_symbol
    rw [moreNames, map_nil, flatMap_nil, nil_append, skipped_solid (by decide)]
    rfl
  | cons a as ih =>
    simp only [all_cons, Bool.and_eq_true] at ok
    have text : moreNames (a :: as) ++ ')' :: k = ",".toList ++ (' ' :: (a.toList ++ (moreNames as ++ ')' :: k))) := by
      simp [moreNames]
    rw [text]
    apply Chain.item (moreNames as ++ ')' :: k)
    · apply (takes_symbol rfl rfl).bind
      exact (takes_name ok.1 (stops_moreNames as k)).after_space
    · exact length_skipped_lt (c := ',') (by decide) (' ' :: a.toList) _
    · exact ih ok.2

theorem takes_names {as : List String} (ok : as.all isName = true) :
    Takes names ("(".toList ++ ((", ".intercalate as).toList ++ ")".toList ++ k)) as k := by
  apply (takes_symbol rfl rfl).bind
  have close : Takes (symbol ")" : Rule Unit) (')' :: k) () k := takes_symbol (s := ")") rfl rfl
  cases as with
  | nil =>
    have refused : Refuses name (')' :: k) := refuses_name (heads_sign (by decide))
    exact Takes.bind (Refuses.opt (Refuses.rule refused.bind)) (close.bind takes_pure)
  | cons a as =>
    simp only [all_cons, Bool.and_eq_true] at ok
    rw [String.toList_intercalate, map_cons, intercalate_cons, append_assoc, append_assoc]
    apply Takes.bind (.opt (.rule ((takes_name ok.1 (stops_moreNames as k)).sepBy1 (chain_names ok.2))))
    exact close.bind takes_pure

/-! ### Statements -/

theorem skipped_indent (depth : Nat) (cs : List Char) :
    skipped ((indent depth).toList ++ cs) = skipped cs := by
  rw [indent, String.toList_ofList]
  apply skipped_blanks
  intro b member
  rw [eq_of_mem_replicate member]
  rfl

theorem takes_indent {α : Type} {p : Rule α} {rest : List Char} {a : α} (takes : Takes p cs a rest) (depth : Nat) :
    Takes p ((indent depth).toList ++ cs) a rest :=
  takes.congr (skipped_indent depth cs) rfl

/-- The words statements start with. -/
def statementWords : List String :=
  ["newchan", "send", "recv", "close", "call", "spawn", "if", "select", "tau"]

/-- An alternative led by another word than the text does not match. -/
theorem refuses_led {α : Type} {v : String} {f : Unit → Rule α} (word : isName w = true)
    (first : firstWord cs = v) (other : v ≠ w) : Refuses (rule (keyword w >>= f)) cs :=
  (refuses_keyword word (first ▸ other)).bind.rule

theorem refuses_statement {body : Rule (List Statement)} (other : firstWord cs ∉ statementWords) :
    Refuses (statement body) cs := by
  have ne : ∀ w ∈ statementWords, firstWord cs ≠ w := fun w member eq => other (eq ▸ member)
  apply refuses_firstOf
  refine ⟨?_, ?_, ?_, ?_, ?_, ?_, ?_, ?_, ?_⟩
  all_goals exact refuses_led (by decide) rfl (ne _ (by decide))

section

variable {body : Rule (List Statement)} {n : String} {as : List String} {k rest : List Char}

theorem takes_onName {make : String → Statement} (word : isName w = true) (ok : isName n = true)
    (stops : Stops isNameChar k) : Takes (onName w make) (w.toList ++ (' ' :: (n.toList ++ k))) (make n) k := by
  apply Takes.rule
  apply (takes_keyword (stops_at rfl) word).bind
  apply Takes.after_space
  exact (takes_name ok stops).bind takes_pure

theorem takes_onRoutine {make : String → List String → Statement} (word : isName w = true)
    (ok : isName n = true) (oks : as.all isName = true) :
    Takes (onRoutine w make)
      (w.toList ++
        (' ' :: (n.toList ++ ("(".toList ++ ((", ".intercalate as).toList ++ ")".toList ++ k)))))
        (make n as) k := by
  apply Takes.rule
  apply (takes_keyword (stops_at rfl) word).bind
  apply Takes.after_space
  apply (takes_name ok (stops_at rfl)).bind
  exact (takes_names oks).bind takes_pure

/-- The words of a statement without branches or cases are read as the statement. -/
theorem takes_phrase {s : Statement} (legible : s.Legible) (plain : s.isPlain = true)
    (stops : Stops isNameChar k) : Takes (statement body) (s.phrase.toList ++ k) s k := by
  cases s with
  | newChan name capacity =>
    obtain ⟨named, fits⟩ := spells_newChan.1 legible
    have text : (Statement.newChan name capacity).phrase.toList ++ k = "newchan".toList ++
        (' ' :: (name.toList ++ (",".toList ++ (' ' :: ((toString capacity).toList ++ k))))) := by
      simp [phrase]
    rw [text]
    apply Takes.here
    apply Takes.rule
    apply (takes_keyword (stops_at rfl) (by decide)).bind
    apply Takes.after_space
    apply (takes_name named (stops_at rfl)).bind
    apply (takes_symbol rfl rfl).bind
    apply Takes.after_space
    exact (takes_capacity fits (stops_digit stops)).bind takes_pure
  | send chan =>
    have text : (Statement.send chan).phrase.toList ++ k = "send".toList ++ (' ' :: (chan.toList ++ k)) := by
      simp [phrase]
    rw [text]
    iterate 1 refine .later ?_ (refuses_led (by decide) (firstWord_space (by decide)) (by decide))
    exact .here (takes_onName (by decide) (spells_send.1 legible) stops)
  | recv chan =>
    have text : (Statement.recv chan).phrase.toList ++ k = "recv".toList ++ (' ' :: (chan.toList ++ k)) := by
      simp [phrase]
    rw [text]
    iterate 2 refine .later ?_ (refuses_led (by decide) (firstWord_space (by decide)) (by decide))
    exact .here (takes_onName (by decide) (spells_recv.1 legible) stops)
  | close chan =>
    have text : (Statement.close chan).phrase.toList ++ k = "close".toList ++ (' ' :: (chan.toList ++ k)) := by
      simp [phrase]
    rw [text]
    iterate 3 refine .later ?_ (refuses_led (by decide) (firstWord_space (by decide)) (by decide))
    exact .here (takes_onName (by decide) (spells_close.1 legible) stops)
  | call routine args =>
    obtain ⟨named, args_named⟩ := spells_call.1 legible
    have text : (Statement.call routine args).phrase.toList ++ k = "call".toList ++
        (' ' :: (routine.toList ++ ("(".toList ++ ((", ".intercalate args).toList ++ ")".toList ++ k)))) := by
      simp [phrase]
    rw [text]
    iterate 4 refine .later ?_ (refuses_led (by decide) (firstWord_space (by decide)) (by decide))
    exact .here (takes_onRoutine (by decide) named (all_eq_true.2 args_named))
  | spawn routine args =>
    obtain ⟨named, args_named⟩ := spells_spawn.1 legible
    have text : (Statement.spawn routine args).phrase.toList ++ k = "spawn".toList ++
        (' ' :: (routine.toList ++ ("(".toList ++ ((", ".intercalate args).toList ++ ")".toList ++ k)))) := by
      simp [phrase]
    rw [text]
    iterate 5 refine .later ?_ (refuses_led (by decide) (firstWord_space (by decide)) (by decide))
    exact .here (takes_onRoutine (by decide) named (all_eq_true.2 args_named))
  | tau =>
    have first := firstWord_append (w := "tau") (by decide) stops
    iterate 8 refine .later ?_ (refuses_led (by decide) first (by decide))
    exact .here (.rule ((takes_keyword stops (by decide)).bind takes_pure))
  | branch | select => cases plain

end

/-- A statement with the semicolon behind it. -/
def line (n : Nat) : Rule Statement := do
  let s ← statement (bodyWithin n)
  symbol ";"
  return s

theorem firstWord_indent (depth : Nat) (cs : List Char) :
    firstWord ((indent depth).toList ++ cs) = firstWord cs := by
  rw [firstWord, skipped_indent, firstWord]

theorem firstWord_newline (word : isName w = true) :
    firstWord (w.toList ++ '\n' :: k) = w := firstWord_append word (stops_at rfl)

/-- The text of a statement is more than blanks. -/
theorem length_skipped_render (depth : Nat) (s : Statement) (k : List Char) :
    (skipped k).length < (skipped ((s.render depth).toList ++ k)).length := by
  have text : ∃ c cs, isSolid c = true ∧ (s.render depth).toList = (indent depth).toList ++ (c :: cs) := by
    cases s <;> simp only [Statement.render, Statement.phrase, String.toList_append, append_assoc] <;>
      exact ⟨_, _, (by decide), rfl⟩
  obtain ⟨c, cs, solid, eq⟩ := text
  rw [eq, append_assoc, skipped_indent]
  exact length_skipped_lt solid cs k

theorem takes_line {depth : Nat} {s : Statement}
    (takes : Takes (statement (bodyWithin n)) ((s.render depth).toList ++ k) s.filled (';' :: '\n' :: k)) :
    Takes (line n) ((s.render depth).toList ++ k) s.filled k := by
  apply takes.bind
  apply Takes.bind (takes_symbol (s := ";") rfl rfl)
  exact takes_pure.congr rfl (skipped_newline k).symm

theorem takes_render_plain (depth : Nat) {body : Rule (List Statement)} {s : Statement} (legible : s.Legible)
    (plain : s.isPlain = true) (k : List Char) :
    Takes (statement body) ((s.render depth).toList ++ k) s.filled (';' :: '\n' :: k) := by
  have text : (s.render depth).toList ++ k = (indent depth).toList ++ (s.phrase.toList ++ ';' :: '\n' :: k) := by
    cases s with
    | branch | select => exact nomatch plain
    | _ => simp [Statement.render]
  have whole : s.filled = s := by
    cases s with
    | branch | select => exact nomatch plain
    | _ => rfl
  rw [text, whole]
  exact takes_indent (takes_phrase legible plain (stops_at rfl)) depth

section

variable {body : Rule (List Statement)} {depth : Nat} {k : List Char}

theorem takes_branch {trueText falseText : List Char} {t e : List Statement}
    (onTrue : Takes body trueText t ((indent depth).toList ++ ("else".toList ++ '\n' :: falseText)))
    (onFalse : Takes body falseText e ((indent depth).toList ++ ("endif".toList ++ ';' :: k))) :
    Takes (statement body) ((indent depth).toList ++ ("if".toList ++ '\n' :: trueText)) (.branch t e)
      (';' :: k) := by
  apply takes_indent
  iterate 6 refine .later ?_ (refuses_led (by decide) (firstWord_newline (by decide)) (by decide))
  apply Takes.here
  apply Takes.rule
  apply (takes_keyword (stops_at rfl) (by decide)).bind
  apply Takes.bind onTrue.after_newline
  apply Takes.bind (takes_indent (takes_keyword (stops_at rfl) (by decide)) depth)
  apply Takes.bind onFalse.after_newline
  exact .bind (takes_indent (takes_keyword (stops_at rfl) (by decide)) depth) takes_pure

theorem takes_select {casesText : List Char} {cs : List (List Statement)}
    (cases : Chain (rule do keyword "case"; body) casesText cs
      ((indent depth).toList ++ ("endselect".toList ++ ';' :: k))) :
    Takes (statement body) ((indent depth).toList ++ ("select".toList ++ '\n' :: casesText)) (.select cs)
      (';' :: k) := by
  apply takes_indent
  iterate 7 refine .later ?_ (refuses_led (by decide) (firstWord_newline (by decide)) (by decide))
  apply Takes.here
  apply Takes.rule
  apply (takes_keyword (stops_at rfl) (by decide)).bind
  apply Takes.bind cases.many.after_newline
  exact .bind (takes_indent (takes_keyword (stops_at rfl) (by decide)) depth) takes_pure

end

section

variable (depth : Nat)
include depth

theorem closes_else (k : List Char) :
    firstWord ((indent depth).toList ++ ("else".toList ++ '\n' :: k)) ∉ statementWords := by
  rw [firstWord_indent, firstWord_newline (by decide)]
  decide

theorem closes_endif (k : List Char) :
    firstWord ((indent depth).toList ++ ("endif".toList ++ ';' :: k)) ∉ statementWords := by
  rw [firstWord_indent, firstWord_append (by decide) (stops_at rfl)]
  decide

theorem firstWord_endselect (k : List Char) :
    firstWord ((indent depth).toList ++ ("endselect".toList ++ ';' :: k)) = "endselect" := by
  rw [firstWord_indent, firstWord_append (by decide) (stops_at rfl)]

theorem closes_case (cs : List (List Statement)) (closed : firstWord k = "endselect") :
    firstWord ((renderCases depth cs).toList ++ k) ∉ statementWords := by
  cases cs with
  | nil =>
    rw [renderCases, String.toList_empty, nil_append, closed]
    decide
  | cons c cs =>
    have text : (renderCases depth (c :: cs)).toList ++ k =
        (indent (depth + 1)).toList ++ ("case".toList ++ '\n' :: ((renderBody (depth + 2) c).toList ++
          ((renderCases depth cs).toList ++ k))) := by
      simp [renderCases]
    rw [text, firstWord_indent, firstWord_newline (by decide)]
    decide

theorem length_renderAll_le (ss : List Statement) :
    (renderAll depth ss).toList.length ≤ (renderBody depth ss).toList.length := by
  cases ss <;> simp [renderAll, renderBody]

theorem length_skipped_renderAll_le (ss : List Statement) (k : List Char) :
    (skipped ((renderAll depth ss).toList ++ k)).length ≤
      (renderBody depth ss).toList.length + k.length := by
  have skipped_le := length_skipped_le ((renderAll depth ss).toList ++ k)
  have shorter := length_renderAll_le depth ss
  rw [length_append] at skipped_le
  omega

end

/-- Each level of nesting has a word of its own, so the text behind the word is shorter than the whole. -/
theorem levels_of_word (word : isName w = true)
    (enough : (skipped (w.toList ++ '\n' :: cs)).length ≤ n) : ∃ m, n = m + 1 ∧ cs.length ≤ m := by
  obtain ⟨c, taken, eq, starts, _⟩ := wordlike_of_isName word
  rw [eq, cons_append, skipped_solid (isSolid_of_startsName starts)] at enough
  simp only [length_cons, length_append] at enough
  exact ⟨n - 1, by omega, by omega⟩

/-- A body is read back where its statements are; an empty one as the `tau` that stands for it. -/
theorem takes_renderBody {depth : Nat} {ss : List Statement} (closed : firstWord k ∉ statementWords)
    (lines : Chain (line n) ((renderAll depth ss).toList ++ k) (filledAll ss) k) :
    Takes (bodyWithin (n + 1)) ((renderBody depth ss).toList ++ k) (filledBody ss) k := by
  apply Takes.rule
  apply Chain.many
  cases ss with
  | nil =>
    rw [renderBody_nil]
    exact .item _ (takes_line (takes_render_plain depth spells_tau rfl k)) (length_skipped_render depth .tau k)
      (.done (refuses_statement closed).bind)
  | cons s ss => exact lines

mutual

/-- A statement is read back, whatever follows its line. -/
theorem takes_render (depth n : Nat) (k : List Char) (s : Statement) (legible : s.Legible)
    (enough : (skipped ((s.render depth).toList ++ k)).length ≤ n) :
    Takes (statement (bodyWithin n)) ((s.render depth).toList ++ k) s.filled (';' :: '\n' :: k) := by
  cases s with
  | branch t e =>
    obtain ⟨onTrue, onFalse⟩ := spells_branch.1 legible
    have text : ((Statement.branch t e).render depth).toList ++ k =
        (indent depth).toList ++ ("if".toList ++ '\n' :: ((renderBody (depth + 1) t).toList ++
          ((Statement.indent depth).toList ++ ("else".toList ++ '\n' :: ((Statement.renderBody (depth + 1) e).toList ++
            ((Statement.indent depth).toList ++ ("endif".toList ++ ';' :: '\n' :: k))))))) := by
      simp [Statement.render]
    rw [text, skipped_indent] at enough
    rw [text, filled]
    obtain ⟨m, rfl, within⟩ := levels_of_word (by decide) enough
    simp only [length_append, length_cons] at within
    apply takes_branch
    · apply takes_renderBody (closes_else depth _)
      apply chain_renderAll (depth + 1) m _ (closes_else depth _) t onTrue
      apply Nat.le_trans (length_skipped_renderAll_le (depth + 1) t _)
      simp only [length_append, length_cons]
      omega
    · apply takes_renderBody (closes_endif depth _)
      apply chain_renderAll (depth + 1) m _ (closes_endif depth _) e onFalse
      apply Nat.le_trans (length_skipped_renderAll_le (depth + 1) e _)
      simp only [length_append, length_cons]
      omega
  | select cs =>
    have text : ((Statement.select cs).render depth).toList ++ k =
        (Statement.indent depth).toList ++ ("select".toList ++ '\n' :: ((Statement.renderCases depth cs).toList ++
          ((Statement.indent depth).toList ++ ("endselect".toList ++ ';' :: '\n' :: k)))) := by
      simp [Statement.render]
    rw [text, skipped_indent] at enough
    rw [text, filled]
    obtain ⟨m, rfl, within⟩ := levels_of_word (by decide) enough
    apply takes_select
    apply chain_renderCases depth (m + 1) _ (firstWord_endselect depth _) cs (spells_select.1 legible)
    exact Nat.le_trans (length_skipped_le _) (by omega)
  | newChan | send | recv | close | call | spawn | tau => exact takes_render_plain depth legible rfl k
termination_by structural s

theorem chain_renderAll (depth n : Nat) (k : List Char) (closed : firstWord k ∉ statementWords) (ss : List Statement)
    (legible : ∀ s ∈ ss, s.Legible)
    (enough : (skipped ((renderAll depth ss).toList ++ k)).length ≤ n) :
    Chain (line n) ((renderAll depth ss).toList ++ k) (filledAll ss) k := by
  cases ss with
  | nil =>
    rw [renderAll, filledAll]
    exact .done (refuses_statement closed).bind
  | cons s ss =>
    rw [forall_mem_cons] at legible
    rw [renderAll, String.toList_append, append_assoc] at enough ⊢
    have shorter := length_skipped_render depth s ((renderAll depth ss).toList ++ k)
    rw [filledAll]
    apply Chain.item _ (takes_line (takes_render depth n _ s legible.1 enough)) shorter
    exact chain_renderAll depth n k closed ss legible.2 (by omega)
termination_by structural ss

theorem chain_renderCases (depth n : Nat) (k : List Char) (closed : firstWord k = "endselect")
    (cs : List (List Statement)) (legible : ∀ c ∈ cs, ∀ s ∈ c, s.Legible)
    (enough : (skipped ((renderCases depth cs).toList ++ k)).length ≤ n) :
    Chain (rule do keyword "case"; bodyWithin n) ((renderCases depth cs).toList ++ k)
      (filledCases cs) k := by
  cases cs with
  | nil =>
    rw [renderCases, filledCases]
    exact .done (refuses_led (by decide) closed (by decide))
  | cons c cs =>
    rw [forall_mem_cons] at legible
    have text : (renderCases depth (c :: cs)).toList ++ k =
        (indent (depth + 1)).toList ++ ("case".toList ++ '\n' :: ((renderBody (depth + 2) c).toList ++
          ((renderCases depth cs).toList ++ k))) := by
      simp [renderCases]
    rw [text, skipped_indent] at enough
    obtain ⟨m, rfl, within⟩ := levels_of_word (by decide) enough
    rw [length_append] at within
    have closes := closes_case depth cs closed
    rw [text, filledCases]
    apply Chain.item ((renderCases depth cs).toList ++ k)
    · apply takes_indent
      apply Takes.rule
      apply (takes_keyword (stops_at rfl) (by decide)).bind
      apply Takes.after_newline
      apply takes_renderBody closes
      apply chain_renderAll (depth + 2) m _ closes c legible.1
      exact Nat.le_trans (length_skipped_renderAll_le (depth + 2) c _) within
    · rw [skipped_indent]
      exact length_skipped_lt (c := 'c') (by decide) ("ase\n".toList ++ (renderBody (depth + 2) c).toList) _
    · apply chain_renderCases depth (m + 1) k closed cs legible.2
      exact Nat.le_trans (length_skipped_le _) (by omega)
termination_by structural cs

end

/-! ### Routines and protocols -/

theorem takes_body {depth : Nat} {ss : List Statement} (legible : ∀ s ∈ ss, s.Legible)
    (closed : firstWord k ∉ statementWords) :
    Takes body ((renderBody depth ss).toList ++ k) (filledBody ss) k := by
  intro offset
  apply takes_renderBody closed
  apply chain_renderAll depth _ k closed ss legible
  cases ss with
  | nil =>
    rw [renderBody_nil]
    exact Nat.le_of_lt (length_skipped_render depth .tau k)
  | cons s ss => exact Nat.le_refl _

/-- A text of routines starts with `def`, or is at its end. -/
theorem closes_routines (rs : List Routine) :
    firstWord (rs.flatMap (·.render.toList)) ∉ statementWords := by
  cases rs with
  | nil => decide
  | cons r rs =>
    have text : (r :: rs).flatMap (·.render.toList) = "def".toList ++ ' ' :: ((r.name ++ "(" ++
        ", ".intercalate (r.params.map (·.callee)) ++ "):\n" ++ renderBody 1 r.stmts).toList ++
          rs.flatMap (·.render.toList)) := by
      simp [Routine.render]
    rw [text, firstWord_space (by decide)]
    decide

theorem takes_routine {r : Routine} (names : ∀ n ∈ r.names, isName n = true)
    (stmts : ∀ s ∈ r.stmts, s.Legible) (distinct : Routine.Distinct r.params)
    (closed : firstWord k ∉ statementWords) : Takes routine (r.render.toList ++ k) r.printed k := by
  have text : r.render.toList ++ k = "def".toList ++ ' ' :: (r.name.toList ++ ("(".toList ++
      ((", ".intercalate (r.params.map (·.callee))).toList ++ ")".toList ++
        (":".toList ++ '\n' :: ((renderBody 1 r.stmts).toList ++ k))))) := by
    simp [Routine.render]
  have own : isName r.name = true := names r.name (by simp [Routine.names])
  have callees : (r.params.map (·.callee)).all isName = true := by
    rw [all_eq_true]
    intro n member
    exact names n (mem_append_left _ (mem_cons_of_mem _ member))
  have params : Routine.addParams { name := r.name } ((r.params.map (·.callee)).map .same) =
      { name := r.name, params := r.printed.params } := by
    rw [Routine.addParams, Routine.foldl_addParam]
    · simp [Routine.printed, Function.comp_def]
    · rw [Routine.Distinct] at distinct
      simpa [Routine.Distinct, Function.comp_def, Parameter.same] using distinct
  rw [text]
  apply Takes.rule
  apply (takes_symbol rfl rfl).bind
  apply Takes.after_space
  apply (takes_name own (stops_at rfl)).bind
  apply (takes_names callees).bind
  apply (takes_symbol rfl rfl).bind
  apply Takes.after_newline
  apply (takes_body stmts closed).bind
  rw [params]
  exact takes_pure

theorem chain_routines {rs : List Routine} (names : ∀ r ∈ rs, ∀ n ∈ r.names, isName n = true)
    (stmts : ∀ r ∈ rs, ∀ s ∈ r.stmts, s.Legible) (distinct : ∀ r ∈ rs, Routine.Distinct r.params) :
    Chain (checked routine : Rule (Except String Routine)) (rs.flatMap (·.render.toList))
      (rs.map fun r => .ok r.printed) [] := by
  induction rs with
  | nil =>
    apply Chain.done
    apply Refuses.checked
    apply Refuses.rule
    exact (refuses_symbol rfl).bind
  | cons r rs ih =>
    rw [forall_mem_cons] at names stmts distinct
    rw [flatMap_cons, map_cons]
    apply Chain.item (rs.flatMap (·.render.toList))
    · exact (takes_routine names.1 stmts.1 distinct.1 (closes_routines rs)).checked
    · have text : r.render.toList = 'd' :: ("ef " ++ r.name ++ "(" ++ ", ".intercalate (r.params.map (·.callee)) ++
          "):\n" ++ renderBody 1 r.stmts).toList := by
        simp [Routine.render]
      rw [text, cons_append]
      exact length_skipped_lt (by decide) _ _
    · exact ih names.2 stmts.2 distinct.2

end Grammar

/-- Routines of different names are all taken over. -/
theorem addAll_ok (p : Protocol) (rs : List Routine) (names : ((p.routines ++ rs).map (·.name)).Nodup) :
    p.addAll (rs.map .ok) = .ok ⟨p.routines ++ rs⟩ := by
  induction rs generalizing p with
  | nil => simp [addAll]
  | cons r rs ih =>
    have free : p.add? r = some ⟨p.routines ++ [r]⟩ := by
      have fresh : p.routine? r.name = none := by
        rw [routine?, find?_eq_none]
        intro q member same
        rw [map_append, nodup_append] at names
        exact names.2.2 q.name (mem_map_of_mem member) r.name (by simp) (by simpa using same)
      simp [add?, fresh]
    rw [map_cons, addAll, free]
    simp only
    rw [ih _ (by simpa using names)]
    simp

/-- The text of a legible protocol is read as what it says. -/
theorem read_render {p : Protocol} (legible : p.Legible) : read p.render = .ok p.printed := by
  have text : p.routines.flatMap (·.render.toList) = p.render.toList := by
    rw [render, String.toList_join, flatMap_map]
  have shown : ∀ r ∈ p.routines, ∀ n ∈ r.names, isName n = true := fun r member n shown =>
    legible.names n (mem_flatMap.2 ⟨r, member, shown⟩)
  have chain := Grammar.chain_routines shown (fun r member => legible.stmts member) legible.params
  rw [text] at chain
  have takes : Takes (do
      let routines ← many (checked Grammar.routine)
      eoi
      return routines : Grammar.Rule _) p.render.toList (p.routines.map fun r => .ok r.printed) [] :=
    chain.many.bind (takes_eoi.bind takes_pure)
  obtain ⟨m, found, value⟩ := takes.run
  have names : ((Protocol.routines {} ++ p.routines.map (·.printed)).map (·.name)).Nodup := by
    simpa [Function.comp_def, Routine.printed] using legible.routines
  have added := addAll_ok {} (p.routines.map (·.printed)) names
  rw [map_map, nil_append] at added
  unfold read Grammar.protocol
  rw [found]
  change addAll {} m.value = _
  rw [value]
  exact added

/-- A legible protocol is read back from its text up to what text does not show: the protocol read is
equivalent to it and has the same text. -/
theorem round_trip (p : Protocol) (legible : p.Legible) :
    read p.render = .ok p.printed ∧ p.equivalent p.printed = true ∧ p.printed.render = p.render :=
  ⟨read_render legible, equivalent_printed p, render_printed p⟩

/-- Words of the grammar as the start of names, an empty body, branch, case and select, the least capacity,
and a parameter with two names. -/
def nested : Protocol := ⟨[
  { name := "main.main"
    stmts := [.newChan "sendx" Word.least, .spawn "tau.work" ["sendx", "if_"],
      .select [[.recv "sendx", .branch [.select []] []], []], .call "def#1_0" []] },
  { name := "tau.work"
    params := [⟨"sendx", "endif.c"⟩, ⟨"if_", "case$1"⟩]
    stmts := [.close "endif.c", .tau] },
  { name := "def#1_0" }]⟩

theorem nested_round_trip : nested.Legible ∧ read nested.render = .ok nested.printed ∧
    nested.equivalent nested.printed = true ∧ nested.printed.render = nested.render := by
  have legible : nested.Legible := ⟨⟨by decide, by simp only [Routine.Distinct]; decide⟩, by decide, by decide⟩
  exact ⟨legible, round_trip nested legible⟩

end ChanFlow.Protocol
