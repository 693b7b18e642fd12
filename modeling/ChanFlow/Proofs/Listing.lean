import ChanFlow.Proofs.Clauses

/-!
Instructions and blocks of program text, read back.

Nothing separates one instruction or declaration from the next but the word that the next one starts
with. So what is read depends on that word where the end of an instruction or declaration is left open.
-/
open List

namespace ChanFlow.Text.Parser

variable {φ α β : Type} {p : Parser φ α} {f : α → Parser φ β} {a : α} {b : β} {cs mid rest : List Char}

/-- The parser takes the text from `cs` up to `rest` as it is, with its blanks. -/
def Reads (p : Parser φ α) (cs : List Char) (a : α) (rest : List Char) : Prop :=
  ∀ offset, ∃ stop, (p ⟨offset, cs⟩).found = some ⟨a, none, ⟨stop, rest⟩⟩

theorem Reads.bind (first : Reads p cs a mid) (second : Reads (f a) mid b rest) : Reads (p >>= f) cs b rest := by
  intro offset
  obtain ⟨here, found⟩ := first offset
  obtain ⟨stop, found'⟩ := second here
  exact ⟨stop, by simp [found, found']⟩

theorem reads_pure : Reads (pure a : Parser φ α) cs a cs := fun offset => ⟨offset, rfl⟩

theorem reads_literal (s : String) : Reads (literal s : Parser φ Unit) (s.toList ++ rest) () rest := by
  intro offset
  refine ⟨offset + s.length, ?_⟩
  rw [found_literal, isPrefixOf?_eq_some_iff_append_eq.2 rfl, Option.map_some]

theorem reads_skipWhile {skips : Char → Bool} {t : List Char} (all : ∀ c ∈ t, skips c = true)
    (stops : Stops skips rest) : Reads (skipWhile skips : Parser φ Unit) (t ++ rest) () rest := by
  intro offset
  refine ⟨offset + t.length, ?_⟩
  rw [skipWhile, stops.takeWhile all, stops.dropWhile all]

theorem reads_token {scan : List Char → Option (List Char × List Char)} {taken : List Char}
    (scanned : scan cs = some (taken, rest)) : Reads (token scan : Parser φ (List Char)) cs taken rest := by
  intro offset
  refine ⟨offset + taken.length, ?_⟩
  rw [found_token, scanned, Option.map_some]

end ChanFlow.Text.Parser

namespace ChanFlow

open Ssa Text Text.Parser Grammar

variable {t : Ty} {d : Char} {i : Instr} {P : String → Prop} {is : List Instr}

/-! ### Types -/

/-- The text of a type starts with a sign or a word. -/
theorem Ty.skipped_render (written : t.Written) (k : List Char) :
    skipped (t.render.toList ++ k) = t.render.toList ++ k := by
  cases t with
  | basic n =>
    rw [Ty.Written] at written
    rw [Ty.render]
    exact skipped_ident written.1 k
  | named n =>
    rw [Ty.Written] at written
    rw [Ty.render]
    exact skipped_ident written.1 k
  | _ =>
    simp only [Ty.render, String.toList_append, append_assoc]
    exact skipped_solid (by decide) _

theorem Ssa.Grammar.takes_ty {k : List Char} (written : t.Written) (ends : Ty.Ends t.isOpen k) :
    Takes ty (t.render.toList ++ k) t k := by
  intro offset
  have start := Ty.skipped_render written k
  exact Ty.takes_render t written ends (by rw [start]; exact Nat.lt_succ_self _) offset

namespace Ssa

/-! ### Instructions -/

structure Position.Written (p : Position) : Prop where
  file : p.file.toList ≠ []
  chars : ∀ c ∈ p.file.toList, isFileChar c = true
  trimmed : trim p.file.toList = p.file.toList
  line : p.line < 4294967296
  column : p.column < 4294967296

def Action.Written : Action → Prop
  | .define n ty op => isIdent n = true ∧ ty.Written ∧ op.Written
  | .perform effect => effect.Written

structure Instr.Written (i : Instr) : Prop where
  action : i.action.Written
  pos : ∀ p ∈ i.pos, p.Written

/-- A position whose file has neither a colon nor white space in it. -/
structure Position.Plain (p : Position) : Prop where
  file : p.file.toList ≠ []
  chars : ∀ c ∈ p.file.toList, c ≠ ':' ∧ isWhiteSpace c = false
  line : p.line < 4294967296
  column : p.column < 4294967296

theorem Position.Plain.written {p : Position} (plain : p.Plain) : p.Written where
  file := plain.file
  chars c member := by
    obtain ⟨colon, solid⟩ := plain.chars c member
    have blank : isBlank c = false := by
      rw [Bool.eq_false_iff]
      intro blank
      simp only [isBlank, Bool.or_eq_true, decide_eq_true_eq] at blank
      obtain ((rfl | rfl) | rfl) | rfl := blank <;> exact absurd solid (by decide)
    simp [isFileChar, colon, blank]
  trimmed := by
    have drop (cs : List Char) (solid : ∀ c ∈ cs, isWhiteSpace c = false) : cs.dropWhile isWhiteSpace = cs := by
      cases cs with
      | nil => rfl
      | cons c cs => rw [dropWhile_cons_of_neg (by simp [solid c])]
    have solid (c : Char) (member : c ∈ p.file.toList) := (plain.chars c member).2
    rw [trim, drop _ solid, drop _ fun c member => solid c (mem_reverse.1 member), reverse_reverse]
  line := plain.line
  column := plain.column

/-- An instruction made of parts that the grammar has, at a plain position if at any. -/
structure Instr.Plain (i : Instr) : Prop where
  action : i.action.Written
  pos : ∀ p ∈ i.pos, p.Plain

/-- The word that the text of an effect starts with. -/
def Effect.word : Effect → String
  | .jump _ => "jump"
  | .branch .. => "if"
  | .ret _ => "return"
  | .send .. => "send"
  | .store .. => "store"
  | .mapUpdate .. => "mapupdate"
  | .go _ => "go"
  | .defer _ => "defer"
  | .call _ => "call"
  | .runDefers => "rundefers"
  | .panic _ => "panic"
  | .unmodelled .. => "opaque"

theorem Effect.word_mem (effect : Effect) : effect.word ∈ effectWords := by
  cases effect <;> simp [Effect.word, effectWords]

theorem Effect.isIdent_word (effect : Effect) : isIdent effect.word = true := by
  have all : ∀ w ∈ effectWords, isIdent w = true := by decide
  exact all effect.word effect.word_mem

namespace Instr

/-- The word that the text of an instruction starts with. -/
def word (i : Instr) : String :=
  match i.action with
  | .define n _ _ => n
  | .perform effect => effect.word

/-- A return without results and position takes an operand that follows. -/
def takesOperand (i : Instr) : Bool := i.pos.isNone && i.action = .perform (.ret [])

/-- An operation without its flag and without position takes the word for it. -/
def takesFlag (i : Instr) : Bool := i.pos.isNone && (i.op?.map (·.lacksOk)).getD false

/-- The instruction is not continued by a text that starts with the word. -/
structure EndsBefore (i : Instr) (w : String) : Prop where
  operand : i.takesOperand = true → reserved.any (·.toList = w.toList) = true
  flag : i.takesFlag = true → "commaok".toList.isPrefixOf w.toList = false

end Instr

namespace Grammar

section

variable {k : List Char}

theorem takes_position {p : Position} (written : p.Written) (stops : Stops isDigit k) :
    Takes position (';' :: ' ' :: (p.render.toList ++ k)) p k := by
  have text : p.render.toList ++ k =
      p.file.toList ++ ':' :: ((toString p.line).toList ++ ':' :: ((toString p.column).toList ++ k)) := by
    simp [Position.render]
  have numeral (n : Nat) {k : List Char} (small : n < 4294967296) (stops : Stops isDigit k) :
      Reads rawIndex ((toString n).toList ++ k) n k := by
    have fits : Word.IndexFits n := Nat.lt_of_lt_of_le small (by decide)
    have value : natOfDigits (Nat.toDigits 10 n) = n := Nat.ofDigitChars_toDigits (by decide) (by decide)
    rw [toList_toString]
    apply (reads_token (Protocol.Grammar.scanRun_toDigits stops)).bind
    rw [indexOf, value]
    simp only [if_pos fits]
    exact .bind (fun offset => ⟨offset, rfl⟩) reads_pure
  have last : Reads index ((toString p.column).toList ++ k) p.column (skipped k) := by
    intro offset
    have takes := takes_index (k := k) (n := p.column) (Nat.lt_of_lt_of_le written.column (by decide)) stops offset
    obtain ⟨c, cs, eq, digit⟩ := Protocol.Grammar.cons_toDigits p.column
    rwa [toList_toString, eq, cons_append, skipped_solid (Protocol.Grammar.isSolid_of_isDigit digit),
      ← cons_append, ← eq, ← toList_toString] at takes
  have blank : Stops (fun c => decide (c = ' ') || decide (c = '\t')) (p.render.toList ++ k) := by
    rw [text]
    intro c first
    cases eq : p.file.toList with
    | nil => exact absurd eq written.file
    | cons d cs =>
      rw [eq] at first
      obtain rfl : d = c := by simpa using first
      have solid := written.chars d (by rw [eq]; exact mem_cons_self)
      simp only [isFileChar, isBlank, Bool.and_eq_true, Bool.not_eq_true', Bool.or_eq_false_iff] at solid
      simp only [solid.2.1.1.1, solid.2.1.1.2, Bool.or_self]
  have value :
    (⟨String.ofList (trim p.file.toList), p.line % 4294967296, p.column % 4294967296⟩ : Position) = p := by
    rw [written.trimmed, String.ofList_toList, Nat.mod_eq_of_lt written.line, Nat.mod_eq_of_lt written.column]
  have colon (cs : List Char) : Reads (literal ":" : Rule Unit) (':' :: cs) () cs := reads_literal ":"
  apply Takes.rule
  intro offset
  rw [skipped_solid (by decide)]
  refine (Reads.bind (reads_literal ";")
    (Reads.bind (reads_skipWhile (forall_mem_singleton.2 (by decide)) blank) ?_)) offset
  rw [text]
  have stop : Stops isFileChar (':' :: ((toString p.line).toList ++ ':' :: ((toString p.column).toList ++ k))) :=
    stops_at rfl
  refine Reads.bind (reads_token (scanRun_append written.file written.chars stop)) ?_
  refine (colon _).bind (.bind (numeral p.line written.line (stops_at rfl)) ?_)
  refine (colon _).bind (.bind last ?_)
  rw [value]
  exact reads_pure

theorem refuses_position (other : Heads (· ≠ ';') k) : Refuses position k := by
  refine .rule (.bind fun offset => ?_)
  rw [found_literal, isPrefixOf?_head (c := ';') rfl other, Option.map_none]

/-- The text of a written operand starts with none of the signs that end one. -/
theorem head_operand {x : Operand} (written : x.Written) (k : List Char) :
    Heads (· ≠ ':') (x.render.toList ++ k) := by
  cases x with
  | var n => exact head_ne (isIdent_of_isLocal written.1) (by decide)
  | global n =>
    have text : (Operand.global n).render.toList ++ k = '@' :: (n.toList ++ k) := by simp [Operand.render]
    rw [text]
    exact heads_sign (by decide)
  | func n =>
    have text : (Operand.func n).render.toList ++ k = '&' :: (n.toList ++ k) := by simp [Operand.render]
    rw [text]
    exact heads_sign (by decide)
  | const l => exact head_literal l k (by decide) (by decide) (by decide)

theorem head_call {c : Call} (written : c.Written) (k : List Char) :
    Heads (· ≠ ':') (c.render.toList ++ k) := by
  have text : c.render.toList ++ k = c.callee.render.toList ++ '(' :: ((renderOperands c.args).toList ++ ')' :: k) := by
    simp [Call.render]
  have callee := written.callee
  rw [text]
  cases eq : c.callee with
  | static n =>
    have render (k : List Char) : (Callee.static n).render.toList ++ k = '&' :: (n.toList ++ k) := by
      simp [Callee.render]
    rw [render]
    exact heads_sign (by decide)
  | value x =>
    rw [eq] at callee
    obtain ⟨n, rfl, loc⟩ := callee
    exact head_ne (v := n) (isIdent_of_isLocal loc) (by decide)
  | builtin n =>
    have render (k : List Char) : (Callee.builtin n).render.toList ++ k = "builtin".toList ++
      (' ' :: (n.toList ++ k)) := by
      simp [Callee.render]
    rw [render]
    exact head_ne (by decide) (by decide)
  | invoke x n =>
    have render (k : List Char) : (Callee.invoke x n).render.toList ++ k =
        "invoke".toList ++ (' ' :: (x.render.toList ++ ' ' :: (n.toList ++ k))) := by simp [Callee.render]
    rw [render]
    exact head_ne (by decide) (by decide)

/-- The text of an effect is its word and something that is not the colon behind the name of a value. -/
theorem render_effect {effect : Effect} (written : effect.Written) (stops : Stops isWordChar k) :
    isIdent effect.word = true ∧ ∃ rest, effect.render.toList ++ k = effect.word.toList ++ rest ∧
      Stops isWordChar rest ∧ (Heads (· ≠ ':') k → Heads (· ≠ ':') rest) := by
  have numeral (n : Nat) (k : List Char) : Heads (· ≠ ':') ((toString n).toList ++ k) := by
    obtain ⟨d, cs, eq, digit⟩ := Protocol.Grammar.cons_toDigits n
    rw [toList_toString, eq, cons_append]
    refine heads_sign ?_ (Protocol.Grammar.isSolid_of_isDigit digit)
    rintro rfl
    exact absurd digit (by decide)
  refine ⟨effect.isIdent_word, ?_⟩
  have led (more : List Char) (text : effect.render.toList ++ k = effect.word.toList ++ ' ' :: more)
      (head : Heads (· ≠ ':') more) : ∃ rest, effect.render.toList ++ k = effect.word.toList ++ rest ∧
        Stops isWordChar rest ∧ (Heads (· ≠ ':') k → Heads (· ≠ ':') rest) :=
    ⟨' ' :: more, text, stops_at rfl, fun _ => head.after_space⟩
  cases effect with
  | jump n => exact led ((toString n).toList ++ k) (by simp [Effect.render, Effect.word]) (numeral n k)
  | branch x n l =>
    exact led (x.render.toList ++ ' ' :: ("then".toList ++ ' ' :: ((toString n).toList ++ ' ' :: ("else".toList ++
      ' ' :: ((toString l).toList ++ k))))) (by simp [Effect.render, Effect.word]) (head_operand written.1 _)
  | ret xs =>
    cases xs with
    | nil => exact ⟨k, by simp [Effect.render, Effect.word], stops, id⟩
    | cons x xs =>
      refine led (x.render.toList ++ ((xs.map fun x => x.render.toList).flatMap (", ".toList ++ ·) ++ k)) ?_
        (head_operand (written x mem_cons_self) _)
      have text : (", ".intercalate ((x :: xs).map fun x => x.render)).toList =
          x.render.toList ++ (xs.map fun x => x.render.toList).flatMap (", ".toList ++ ·) := by
        rw [String.toList_intercalate, map_map, map_cons, Protocol.Grammar.intercalate_cons]
        rfl
      rw [Effect.render, renderOperands, String.toList_append, text]
      · simp [Effect.word]
      · simp
  | send x y | store x y =>
    exact led (x.render.toList ++ ',' :: ' ' :: (y.render.toList ++ k)) (by simp [Effect.render, Effect.word])
      (head_operand written.1 _)
  | mapUpdate x y z =>
    exact led (x.render.toList ++ ',' :: ' ' :: (y.render.toList ++ ',' :: ' ' :: (z.render.toList ++ k)))
      (by simp [Effect.render, Effect.word]) (head_operand written.1 _)
  | go c | defer c | call c =>
    exact led (c.render.toList ++ k) (by simp [Effect.render, Effect.word]) (head_call written k)
  | runDefers => exact ⟨k, by simp [Effect.render, Effect.word], stops, id⟩
  | panic x => exact led (x.render.toList ++ k) (by simp [Effect.render, Effect.word]) (head_operand written k)
  | unmodelled n xs =>
    exact led (n.toList ++ '(' :: ((renderOperands xs).toList ++ ')' :: k))
      (by simp [Effect.render, renderUnmodelled, Effect.word]) (head_ne written.1 (by decide))

/-- What may stand behind the text of an instruction. -/
structure Behind (i : Instr) (k : List Char) : Prop where
  stops : Stops isWordChar k
  signs : Heads (fun c => c ≠ ',' ∧ c ≠ ':' ∧ c ≠ ';') k
  operand : i.takesOperand = true → Refuses operand k
  flag : i.takesFlag = true → Refuses (symbol "commaok" : Rule Unit) k

theorem takes_action {a : Action} (written : a.Written) (stops : Stops isWordChar k)
    (signs : Heads (fun c => c ≠ ',' ∧ c ≠ ':') k) (operand : a = .perform (.ret []) → Refuses operand k)
    (flag : ∀ n t op, a = .define n t op → op.lacksOk = true → Refuses (symbol "commaok" : Rule Unit) k) :
    Takes (valueInstr <|> (do return .perform (← effect)) : Rule Action) (a.render.toList ++ k) a k := by
  cases a with
  | define n t op =>
    obtain ⟨ident, ty, written⟩ := written
    have text : (Action.define n t op).render.toList ++ k = n.toList ++ ':' :: ' ' :: (t.render.toList ++
        ' ' :: '=' :: ' ' :: (op.render.toList ++ k)) := by simp [Action.render]
    have ends : Ty.Ends t.isOpen (' ' :: '=' :: ' ' :: (op.render.toList ++ k)) :=
      Ty.ends_of_head (stops_at rfl) (Heads.after_space (heads_sign (by decide)))
    rw [text]
    refine .orElse (.rule ?_)
    refine (takes_name ident (stops_at rfl)).bind (.bind takes_sign ?_)
    refine (takes_ty ty ends).after_space.bind (.bind (.after_space takes_sign) ?_)
    exact (takes_valueOp written stops (flag n t op rfl)).after_space.bind takes_pure
  | perform effect =>
    obtain ⟨ident, rest, text, stops', colon⟩ := render_effect written stops
    have comma : Refuses (symbol "," : Rule Unit) k := refuses_symbol_head (c := ',') rfl
      fun c first => (signs c first).1
    refine Refuses.orElse ?_ ((takes_effect written stops comma fun eq => operand (by rw [eq])).bind takes_pure)
    show Refuses valueInstr (effect.render.toList ++ k)
    rw [text]
    refine .rule ((takes_name ident stops').refuses (.bind ?_))
    exact refuses_symbol_head (c := ':') rfl (colon fun c first => (signs c first).2)

/-- An instruction is read back from its text. -/
theorem takes_instr (written : i.Written) (behind : Behind i k) : Takes instr (i.render.toList ++ k) i k := by
  obtain ⟨action, pos⟩ := i
  apply Takes.rule
  cases pos with
  | none =>
    have text : (Instr.render ⟨action, none⟩).toList ++ k = action.render.toList ++ k := by simp [Instr.render]
    rw [text]
    refine .bind (takes_action written.action behind.stops ?_ ?_ ?_) ?_
    · exact fun c first => ⟨(behind.signs c first).1, (behind.signs c first).2.1⟩
    · intro eq
      exact behind.operand (by simpa [Instr.takesOperand] using eq)
    · intro n t op eq lacks
      exact behind.flag (by simpa [Instr.takesFlag, Instr.op?, eq] using lacks)
    · exact (Refuses.opt (refuses_position fun c first => (behind.signs c first).2.2)).bind takes_pure
  | some p =>
    have text : (Instr.render ⟨action, some p⟩).toList ++ k =
        action.render.toList ++ ' ' :: ';' :: ' ' :: (p.render.toList ++ k) := by simp [Instr.render]
    have semicolon {kind : Char → Prop} (holds : kind ';') :
      Heads kind (' ' :: ';' :: ' ' :: (p.render.toList ++ k)) :=
      Heads.after_space (heads_sign holds)
    rw [text]
    refine Takes.bind (takes_action written.action (stops_at rfl) (semicolon (by decide)) ?_ ?_) ?_
    · exact fun _ => refuses_operand (semicolon (by decide))
    · exact fun _ _ _ _ _ => refuses_symbol_head (c := 'c') rfl (semicolon (by decide))
    · refine (Takes.after_space (Takes.opt ?_)).bind takes_pure
      exact takes_position (written.pos p rfl) (stops_digit behind.stops)

/-- The text of an instruction starts with its word. -/
theorem render_instr (written : i.Written) (stops : Stops isWordChar k) :
    isIdent i.word = true ∧ ∃ rest, i.render.toList ++ k = i.word.toList ++ rest ∧ Stops isWordChar rest := by
  obtain ⟨action, pos⟩ := i
  cases action with
  | define n t op =>
    refine ⟨written.action.1, ?_⟩
    simp only [Instr.render, Action.render, String.toList_append, append_assoc]
    exact ⟨_, rfl, (stops_at rfl)⟩
  | perform effect =>
    cases pos with
    | none =>
      obtain ⟨ident, rest, text, stops', -⟩ := render_effect written.action stops
      exact ⟨ident, rest, by simpa [Instr.render, Action.render, Instr.word] using text, stops'⟩
    | some p =>
      obtain ⟨ident, rest, text, stops', -⟩ := render_effect (k := ' ' :: ';' :: ' ' :: (p.render.toList ++ k))
        written.action (stops_at rfl)
      exact ⟨ident, rest, by simpa [Instr.render, Action.render, Instr.word] using text, stops'⟩

/-- An instruction made of parts of the grammar is read back from its text, and all of the text is taken. -/
theorem instr_round_trip {i : Instr} (plain : i.Plain) :
    ∃ stop, (instr (.start i.render)).found = some ⟨i, none, ⟨stop, []⟩⟩ := by
  have written : i.Written := ⟨plain.action, fun p here => (plain.pos p here).written⟩
  have behind : Behind i [] := by
    refine ⟨by simp [Stops], heads_nil, fun _ => refuses_operand heads_nil, fun _ => ?_⟩
    exact refuses_symbol_head (c := 'c') rfl heads_nil
  obtain ⟨ident, rest, text, -⟩ := render_instr written behind.stops
  have start : skipped (i.render.toList ++ []) = i.render.toList := by
    rw [text, skipped_ident ident, ← text, append_nil]
  obtain ⟨stop, found⟩ := takes_instr written behind 0
  rw [start] at found
  exact ⟨stop, found⟩

/-- The value of a merge point that brings a channel of channels, or nothing. -/
def merging : Instr where
  action := .define "t0" (.chan (.array 2 (.named "chan"))) (.phi [⟨0, .var "ch"⟩, ⟨1, .const .nil⟩])
  pos := some ⟨"main.go", 3, 14⟩

theorem merging_read_back :
    ∃ stop, (instr (.start "t0: chan [2]chan = phi [0: ch, 1: nil] ; main.go:3:14")).found =
      some ⟨merging, none, ⟨stop, []⟩⟩ := by
  refine instr_round_trip (i := merging) ⟨⟨by decide, ?_, by simp, fun e member => ?_⟩, fun p here => ?_⟩
  · simp only [Ty.Written]
    decide
  · obtain rfl | rfl := mem_pair.1 member
    · exact ⟨by decide, by decide, by decide⟩
    · exact ⟨by decide, trivial⟩
  · obtain rfl := Option.some.inj here
    exact ⟨by decide, forall_iff_forall_mem.1 (by decide), by decide, by decide⟩

/-- Nothing is left, or a text that starts with a word of a kind. -/
def Opens (P : String → Prop) (k : List Char) : Prop :=
  skipped k = [] ∨ ∃ w rest, isIdent w = true ∧ P w ∧ skipped k = w.toList ++ rest ∧ Stops isWordChar rest

section

variable (opens : Opens P k)
include opens

theorem Opens.imp {Q : String → Prop} (weaker : ∀ w, P w → Q w) : Opens Q k := by
  rcases opens with nothing | ⟨w, rest, ident, holds, start, stops⟩
  · exact .inl nothing
  · exact .inr ⟨w, rest, ident, weaker w holds, start, stops⟩

theorem Opens.refuses {α : Type} {p : Rule α} (atEnd : Refuses p [])
    (atWord : ∀ w rest, isIdent w = true → P w → Stops isWordChar rest →
      Refuses p (w.toList ++ rest)) : Refuses p k := by
  rcases opens with nothing | ⟨w, rest, ident, holds, start, stops⟩
  · exact .congr atEnd nothing
  · exact .congr (atWord w rest ident holds stops) (start.trans (skipped_ident ident rest).symm)

theorem Opens.newline : Opens P ('\n' :: k) := by
  unfold Opens
  rwa [skipped_newline]

theorem Opens.head : Heads (startsName · = true) k := by
  rcases opens with nothing | ⟨w, rest, ident, -, start, -⟩
  · simp [Heads, nothing]
  · rw [Heads, start, ← skipped_ident ident]
    exact head_ident ident rest

theorem Opens.ne (sign : startsName d = false) : Heads (· ≠ d) k := by
  rintro c first rfl
  rw [opens.head c first] at sign
  exact absurd sign (by decide)

end

theorem behind_of_opens (opens : Opens i.EndsBefore k) : Behind i ('\n' :: k) := by
  have line := opens.newline
  refine ⟨(stops_at rfl), fun c first => ?_, fun takes => ?_, fun takes => ?_⟩
  · exact ⟨line.ne (by decide) c first, line.ne (by decide) c first, line.ne (by decide) c first⟩
  · exact line.refuses (refuses_operand heads_nil) fun w rest ident ends stops =>
      refuses_reserved ident stops (ends.operand takes)
  · exact line.refuses (refuses_symbol_head (c := 'c') rfl heads_nil) fun w rest ident ends stops =>
      refuses_start (by decide) ident stops (ends.flag takes)

/-! ### Blocks -/

/-- The text of the instructions of a block. -/
def lines (is : List Instr) : List Char := is.flatMap fun i => ' ' :: ' ' :: (i.render.toList ++ ['\n'])

/-- What stands behind a block, function or declaration: nothing, or one of the words that others start with. -/
def Boundary (words : List String) (k : List Char) : Prop :=
  skipped k = [] ∨ ∃ w rest, w ∈ words ∧ isIdent w = true ∧ skipped k = w.toList ++ rest ∧
    Stops isWordChar rest ∧ Heads (· ≠ ':') rest

theorem Boundary.opens {words : List String} (boundary : Boundary words k) : Opens (· ∈ words) k := by
  rcases boundary with nothing | ⟨w, rest, member, ident, start, stops, -⟩
  · exact .inl nothing
  · exact .inr ⟨w, rest, ident, member, start, stops⟩

/-- The words that end the instructions of a block. -/
def blockEnds : List String := ["block", "func", "type", "global"]

/-- The words that declarations start with. -/
def declStarts : List String := ["func", "type", "global"]

theorem Boundary.ofDecl (boundary : Boundary declStarts k) : Boundary blockEnds k := by
  rcases boundary with nothing | ⟨w, rest, member, others⟩
  · exact .inl nothing
  · exact .inr ⟨w, rest, mem_cons_of_mem _ member, others⟩

theorem refuses_effect {v : String} (stops : Stops isWordChar k)
    (other : (isIdent v && effectWords.all (differs · v)) = true) : Refuses effect (v.toList ++ k) := by
  rw [Bool.and_eq_true, all_eq_true] at other
  have led {w : String} {f : Unit → Rule Effect} (member : w ∈ effectWords) :
      Refuses (rule (symbol w >>= f)) (v.toList ++ k) := spurns_word v k other.1 (other.2 w member) stops
  apply refuses_firstOf
  refine ⟨?_, ?_, ?_, ?_, ?_, ?_, ?_, ?_, ?_, ?_, ?_, ?_⟩
  all_goals exact led (by decide)

theorem refuses_effect_end : Refuses effect [] := by
  apply refuses_firstOf
  refine ⟨?_, ?_, ?_, ?_, ?_, ?_, ?_, ?_, ?_, ?_, ?_, ?_⟩
  all_goals exact .rule (.bind (refuses_symbol rfl))

theorem Boundary.refuses_instr (boundary : Boundary blockEnds k) : Refuses instr k := by
  refine .rule (.bind (.or ?value (.bind ?effect)))
  case value =>
    rcases boundary with nothing | ⟨w, rest, -, ident, start, stops, colon⟩
    · have refused : Refuses valueInstr [] := Refuses.rule (refuses_name heads_nil).bind
      exact refused.congr nothing
    · have refuses : Refuses valueInstr (w.toList ++ rest) := by
        refine .rule ((takes_name ident stops).refuses (.bind ?_))
        exact refuses_symbol_head (c := ':') rfl colon
      exact refuses.congr (start.trans (skipped_ident ident rest).symm)
  case effect =>
    refine boundary.opens.refuses refuses_effect_end fun w rest ident member stops => ?_
    simp only [blockEnds, mem_cons, not_mem_nil, or_false] at member
    rcases member with rfl | rfl | rfl | rfl <;> exact refuses_effect stops (by decide)

theorem endsBefore_boundary {w : String} (member : w ∈ blockEnds) : i.EndsBefore w := by
  simp only [blockEnds, mem_cons, not_mem_nil, or_false] at member
  rcases member with rfl | rfl | rfl | rfl <;> exact ⟨fun _ => by decide, fun _ => by decide⟩

/-- Instructions of a block each of which ends before the word of the next. -/
def Flowing : List Instr → Prop
  | [] => True
  | i :: is => i.Written ∧ (∀ j ∈ is.head?, i.EndsBefore j.word) ∧ Flowing is

theorem opens_lines (flowing : Flowing is) (ends : ∀ j ∈ is.head?, i.EndsBefore j.word)
    (boundary : Boundary blockEnds k) : Opens i.EndsBefore (lines is ++ k) := by
  cases is with
  | nil => exact boundary.opens.imp fun w member => endsBefore_boundary member
  | cons j is =>
    have text : lines (j :: is) ++ k = ' ' :: ' ' :: (j.render.toList ++ ('\n' :: (lines is ++ k))) := by simp [lines]
    obtain ⟨ident, rest, eq, stops⟩ := render_instr (k := '\n' :: (lines is ++ k)) flowing.1 (stops_at rfl)
    refine .inr ⟨j.word, rest, ident, ends j rfl, ?_, stops⟩
    rw [text, skipped_space, skipped_space, eq, skipped_ident ident]

/-- The instructions of a block are read back up to what bounds it. -/
theorem chain_lines (flowing : Flowing is) (boundary : Boundary blockEnds k) : Chain instr (lines is ++ k) is k := by
  induction is with
  | nil => exact .done boundary.refuses_instr
  | cons i is ih =>
    have text : lines (i :: is) ++ k = ' ' :: ' ' :: (i.render.toList ++ ('\n' :: (lines is ++ k))) := by simp [lines]
    obtain ⟨written, ends, flowing⟩ := flowing
    have opens : Opens i.EndsBefore (lines is ++ k) := opens_lines flowing ends boundary
    obtain ⟨ident, rest, eq, -⟩ := render_instr (k := '\n' :: (lines is ++ k)) written (stops_at rfl)
    rw [text]
    refine .item (lines is ++ k) ?_ ?_ (ih flowing)
    · refine ((takes_instr written (behind_of_opens opens)).congr ?_ (skipped_newline _).symm)
      rw [skipped_space, skipped_space]
    · have le := length_skipped_le (lines is ++ k)
      obtain ⟨c, cs, eq', starts, -⟩ := wordlike_of_isIdent ident
      rw [skipped_space, skipped_space, eq, skipped_ident ident, ← eq, length_append, length_cons]
      omega

/-- A tag may have any characters of words. -/
def isTag (t : String) : Bool := !t.toList.isEmpty && t.toList.all isWordChar

structure WrittenBlock (b : BlockDraft) : Prop where
  index : Word.IndexFits b.index
  tag : ∀ t ∈ b.tag, isTag t = true
  instrs : Flowing b.instrs

theorem isSolid_of_isWordChar {c : Char} (word : isWordChar c = true) : isSolid c = true := isSolid_of rfl word

theorem takes_tag {t : String} (tag : isTag t = true) (stops : Stops isWordChar k) :
    Takes (lexeme (token (scanRun isWordChar)) : Rule (List Char)) (t.toList ++ k) t.toList k := by
  rw [isTag, Bool.and_eq_true, all_eq_true] at tag
  cases eq : t.toList with
  | nil => simp [eq] at tag
  | cons c cs =>
    rw [eq] at tag
    exact takes_token (isSolid_of_isWordChar (tag.2 c mem_cons_self))
      (scanRun_append (cons_ne_nil c cs) tag.2 stops)

/-- A block is read back from its text. -/
theorem takes_block {b : BlockDraft} (written : WrittenBlock b) (boundary : Boundary blockEnds k) :
    Takes block (b.render.toList ++ k) b k := by
  obtain ⟨n, tag, is⟩ := b
  have instrs : (String.join (is.map fun i => "  " ++ i.render ++ "\n")).toList = lines is := by
    simp [lines, flatMap_map]
  have last : Takes (do symbol ":"; return BlockDraft.mk n tag (← many instr) : Rule BlockDraft)
      (':' :: '\n' :: (lines is ++ k)) ⟨n, tag, is⟩ k :=
    .bind takes_sign ((Takes.after_newline (chain_lines written.instrs boundary).many).bind takes_pure)
  apply Takes.rule
  cases tag with
  | none =>
    have text : (BlockDraft.render ⟨n, none, is⟩).toList ++ k =
        "block".toList ++ ' ' :: ((toString n).toList ++ (':' :: '\n' :: (lines is ++ k))) := by
      simp [BlockDraft.render, instrs]
    have untagged : Refuses (lexeme (token (scanRun isWordChar)) : Rule (List Char))
      (':' :: '\n' :: (lines is ++ k)) := by
      apply refuses_token
      rw [skipped_solid (by decide)]
      exact scanRun_none (by simp [isWordChar, isLetter, isDigit])
    rw [text]
    refine (takes_word (by decide)).bind ((takes_index written.index (stops_at rfl)).after_space.bind ?_)
    exact (Refuses.opt untagged).bind last
  | some t =>
    have text : (BlockDraft.render ⟨n, some t, is⟩).toList ++ k =
        "block".toList ++ ' ' :: ((toString n).toList ++ ' ' :: (t.toList ++ (':' :: '\n' :: (lines is ++ k)))) := by
      simp [BlockDraft.render, instrs]
    rw [text]
    refine (takes_word (by decide)).bind ((takes_index written.index (stops_at rfl)).after_space.bind ?_)
    refine (Takes.after_space (Takes.opt (takes_tag (written.tag t rfl) (stops_at rfl)))).bind ?_
    simpa using last

end

end Grammar

end Ssa

end ChanFlow
