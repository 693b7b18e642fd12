import ChanFlow.Proofs.Reading
import ChanFlow.Proofs.Listing

/-!
The pieces that are found in a program text.

They are written as the rules of the grammar say, and where the end of an instruction is left open, the
text that follows does not go on with what could be taken for a part of it.
-/
open List

namespace ChanFlow.Ssa

open Text Text.Parser

variable {α : Type} {cs rest : List Char} {w : String} {c : Cursor}

namespace Grammar

/-! ### Words -/

theorem stops_dropWhile (p : Char → Bool) (cs : List Char) : Stops p (cs.dropWhile p) := by
  intro c first
  have head := head?_dropWhile_not p cs
  rw [Option.mem_def.1 first] at head
  simpa using head

theorem scanName_some {w : List Char} (scanned : scanName isWordChar cs = some (w, rest)) :
    cs = w ++ rest ∧ isIdent (String.ofList w) = true ∧ Stops isWordChar rest := by
  refine ⟨?_, yields_scanName scanned, ?_⟩
  all_goals
    unfold scanName at scanned
    split at scanned
    · exact absurd scanned (by simp)
    · next c cs =>
      split at scanned
      · obtain ⟨rfl, rfl⟩ := Prod.mk.inj (Option.some.inj scanned)
        first
        | exact stops_dropWhile isWordChar cs
        | simp [takeWhile_append_dropWhile]
      · exact absurd scanned (by simp)

/-- A text starts with a word, and goes on with something that does not continue it. -/
def Begins (w : String) (cs : List Char) : Prop := isIdent w = true ∧ ∃ rest, cs = w.toList ++ rest ∧
    Stops isWordChar rest

theorem begins_of_scan {w : List Char} (scanned : scanName isWordChar cs = some (w, rest)) :
    Begins (String.ofList w) cs := by
  obtain ⟨split, ident, stops⟩ := scanName_some scanned
  exact ⟨ident, rest, by rw [String.toList_ofList, split], stops⟩

theorem finds_nameBefore : Finds name fun c n c' => isIdent n = true ∧ ∃ rest, c.rest = n.toList ++ rest ∧
    Stops isWordChar rest ∧ c'.rest = skipped rest := by
  refine .bind finds_token fun w => finds_pure fun c' c found => ?_
  obtain ⟨rest, scanned, left⟩ := found
  obtain ⟨text, ident, stops⟩ := scanName_some scanned
  exact ⟨ident, rest, by rw [String.toList_ofList, text], stops, left⟩

theorem finds_name : Finds name fun c n _ => Begins n c.rest :=
  finds_nameBefore.mono fun _ _ _ ⟨ident, rest, text, stops, _⟩ => ⟨ident, rest, text, stops⟩

theorem Begins.ne {v : String} (begins : Begins v cs) (word : isIdent w = true)
    (other : scanWord isWordChar w cs = none) : v ≠ w := by
  obtain ⟨ident, rest, rfl, stops⟩ := begins
  rintro rfl
  rw [scanWord_ident word ident stops, if_pos rfl] at other
  exact absurd other (by simp)

theorem refused_keyword (refused : (keyword w c).found = none) :
    scanWord isWordChar w c.rest = none := refused_token (refused_lexeme (refused_map (g := fun _ => ()) refused))

theorem yields_index : Yields index Word.IndexFits := by
  have numeral (digits : List Char) : Yields (indexOf digits) Word.IndexFits := by
    refine yields_report.bind fun _ sound => yields_pure ?_
    by_cases fits : Word.IndexFits (natOfDigits digits)
    · exact fits
    · simp [fits] at sound
  exact (yields_after fun digits => numeral digits).lexeme

/-! ### Types -/

theorem written_words {tuple : Rule Ty} (tuples : Yields tuple Ty.Written) :
    Yields (firstOf [do keyword "func"; return .func,
      tuple, do return .basic (String.ofList (← lexeme (token scanBasic))),
      do return .named (← name)]) Ty.Written := by
  refine Finds.orElse (.bind finds_any fun _ => finds_pure fun _ _ _ => trivial) ?_
  refine .orElse (tuples.mono fun _ _ _ written _ => written) ?_
  refine .orElse (.bind finds_token fun w => finds_pure fun c' c found _ _ => ?basic) ?_
  case basic =>
    obtain ⟨rest, scanned, -⟩ := found
    obtain ⟨scanned, basic⟩ := Option.filter_eq_some_iff.1 scanned
    exact ⟨yields_scanName scanned, by rw [String.toList_ofList]; exact basic⟩
  refine .orElse (.bind finds_name fun n => finds_pure fun c' c begins notBasic _ notFunc => ?named) ?_
  case named =>
    have unscanned : scanBasic c.rest = none := refused_token (refused_lexeme (refused_map notBasic))
    have scanned : scanWord isWordChar "func" c.rest = none :=
      refused_keyword (refused_map (g := fun _ => Ty.func) notFunc)
    refine ⟨begins.1, ?_, begins.ne (by decide) scanned⟩
    obtain ⟨ident, rest, eq, stops⟩ := begins
    rw [scanBasic, eq, scanName_ident ident stops] at unscanned
    simpa using unscanned
  exact ⟨fun _ _ found => absurd found (by simp [firstOf, fail])⟩

theorem written_tyWithin (n : Nat) : Yields (tyWithin n) Ty.Written := by
  induction n with
  | zero => exact ⟨fun _ _ found => absurd found (by simp [tyWithin, fail])⟩
  | succ n ih =>
    apply Yields.rule
    refine .orElse (.rule (yields_after fun _ => ih.bind fun t written => yields_pure written)) ?_
    refine .orElse (.rule (yields_after fun _ => .bind yields_index fun l fits => yields_after fun _ =>
      ih.bind fun t written => yields_pure ⟨fits, written⟩)) ?_
    refine .orElse (.rule (yields_after fun _ => yields_after fun _ => ih.bind fun t written =>
      yields_pure written)) ?_
    refine .orElse (.rule (yields_after fun _ => yields_after fun _ => ih.bind fun t first =>
      yields_after fun _ => ih.bind fun u second => yields_pure ⟨first, second⟩)) ?_
    refine .orElse (.rule (yields_after fun _ => ih.bind fun t written => yields_pure written)) ?_
    refine .orElse (.rule (yields_after fun _ => (yields_list ih _ _ _).bind fun ts all =>
      yields_pure (Ty.writtenAll_of all))) ?_
    refine .orElse (.rule (yields_after fun _ => (yields_list yields_name _ _ _).bind fun ms all =>
      yields_pure all)) ?_
    exact written_words (.rule ((yields_list ih _ _ _).bind fun ts all => yields_pure (Ty.writtenAll_of all)))

theorem written_ty : Yields ty Ty.Written := ⟨fun c => (written_tyWithin _).value c⟩

/-! ### Operands -/

theorem finds_localName : Finds localName fun c n _ => isLocal n = true ∧ Begins n c.rest := by
  refine .bind finds_token fun w => finds_pure fun c' c found => ?_
  obtain ⟨rest, scanned, -⟩ := found
  obtain ⟨scanned, free⟩ := Option.filter_eq_some_iff.1 scanned
  have begins := begins_of_scan scanned
  refine ⟨?_, begins⟩
  rw [isLocal, begins.1, Bool.true_and, String.toList_ofList]
  exact free

theorem written_quoted : Yields quoted Literal.Written := by
  have scans : Yields (token scanQuoted : Rule (List Char)) fun taken => '"' ∉ (taken.drop 1).dropLast := by
    apply yields_token
    intro cs taken rest scanned
    unfold scanQuoted at scanned
    split at scanned
    · next cs =>
      split at scanned
      · exact absurd scanned (by simp)
      · obtain ⟨rfl, -⟩ := Prod.mk.inj (Option.some.inj scanned)
        rw [cons_append, drop_one, tail_cons, dropLast_concat]
        intro member
        exact absurd (all_eq_true.1 all_takeWhile _ member) (by decide)
    · exact absurd scanned (by simp)
  refine scans.lexeme.bind fun taken plain => yields_pure ?_
  show '"' ∉ (String.ofList _).toList
  rw [String.toList_ofList]
  exact plain

theorem written_constant : Yields constant Literal.Written := by
  refine .rule (yields_firstOf ?_)
  refine ⟨?_, written_quoted, ?_, ?_, ?_⟩
  · refine yields_after fun numeral => yields_report.bind fun _ sound => yields_pure ?_
    by_cases fits : Word.Fits (intOfNumeral numeral)
    · exact fits
    · simp [fits] at sound
  all_goals exact yields_after fun _ => yields_pure trivial

theorem written_operand : Yields operand Operand.Written := by
  refine .rule ?_
  refine Finds.orElse (Finds.bind yields_globalRef fun n => finds_pure fun _ _ ident => ident) ?_
  refine .orElse (Finds.bind yields_funcRef fun n => finds_pure fun _ _ ident _ => ident) ?_
  refine .orElse (Finds.bind written_constant fun l => finds_pure fun _ _ written _ _ => written) ?_
  refine .orElse (.bind finds_localName fun n => finds_pure fun _ c found notConst _ _ => ?_) ?_
  · have alternatives := refused_firstOf (refused_rule (refused_map notConst))
    obtain ⟨-, -, notTrue, notFalse, notNil⟩ := alternatives
    refine ⟨found.1, ?_⟩
    simp only [mem_cons, not_mem_nil, or_false, not_or]
    exact ⟨found.2.ne (by decide) (refused_keyword (refused_map (g := fun _ => Literal.bool true) notTrue)),
      found.2.ne (by decide) (refused_keyword (refused_map (g := fun _ => Literal.bool false) notFalse)),
      found.2.ne (by decide) (refused_keyword (refused_map (g := fun _ => Literal.nil) notNil))⟩
  · exact ⟨fun _ _ found => absurd found (by simp [firstOf, fail])⟩

theorem written_args : Yields args fun xs => ∀ x ∈ xs, x.Written := (yields_list written_operand _ _ _).rule

/-! ### Operations -/

section

variable {β : Type} {P : β → Prop}

theorem written_onOperand {make : Operand → β} (holds : ∀ x, x.Written → P (make x)) :
    Yields (onOperand w make) P :=
  Yields.rule (yields_after fun _ => .bind written_operand fun x written => yields_pure (holds x written))

theorem written_onPair {make : Operand → Operand → β} (holds : ∀ x y, x.Written → y.Written → P (make x y)) :
    Yields (onPair w make) P :=
  Yields.rule (yields_after fun _ => .bind written_operand fun x first => yields_after fun _ =>
    Yields.bind written_operand fun y second => yields_pure (holds x y first second))

theorem written_onIndexed {make : Operand → Nat → β}
    (holds : ∀ x n, x.Written → Word.IndexFits n → P (make x n)) : Yields (onIndexed w make) P :=
  Yields.rule (yields_after fun _ => .bind written_operand fun x written => yields_after fun _ =>
    Yields.bind yields_index fun n fits => yields_pure (holds x n written fits))

theorem written_onUnmodelled {make : String → List Operand → β}
    (holds : ∀ op xs, isIdent op = true → (∀ x ∈ xs, x.Written) → P (make op xs)) :
    Yields (onUnmodelled make) P :=
  Yields.rule (yields_after fun _ => yields_name.bind fun op ident => .bind written_args fun xs all =>
    yields_pure (holds op xs ident all))

theorem written_callee : Yields callee Callee.Written := by
  apply yields_firstOf
  refine ⟨?_, ?_, ?_, ?_⟩
  · exact .rule (yields_after fun _ => yields_name.bind fun _ ident => yields_pure ident)
  · exact .rule (yields_after fun _ => .bind written_operand fun _ written => yields_name.bind fun _ ident =>
      yields_pure ⟨written, ident⟩)
  · exact yields_funcRef.bind fun _ ident => yields_pure ident
  · exact .bind (Finds.mono finds_localName fun _ _ _ found => found.1) fun n loc => yields_pure ⟨n, rfl, loc⟩

theorem written_call : Yields call Call.Written :=
  Yields.rule (.bind written_callee fun _ callee => .bind written_args fun _ args => yields_pure ⟨callee, args⟩)

theorem written_onCall {make : Call → β} (holds : ∀ c, c.Written → P (make c)) : Yields (onCall w make) P :=
  Yields.rule (yields_after fun _ => .bind written_call fun c written => yields_pure (holds c written))

end

theorem written_phiEdge : Yields phiEdge PhiEdge.Written :=
  Yields.rule (.bind yields_index fun _ fits => yields_after fun _ => .bind written_operand fun _ written =>
    yields_pure ⟨fits, written⟩)

theorem written_selectCase : Yields selectCase SelectCase.Written := by
  apply yields_firstOf
  refine ⟨?_, written_onOperand fun _ written => written⟩
  exact .rule (yields_after fun _ => .bind written_operand fun _ first => yields_after fun _ =>
    Yields.bind written_operand fun _ second => yields_pure ⟨first, second⟩)

theorem sepBy1_ne_nil {p : Rule α} {sep : Rule Unit} : Yields (sepBy1 p sep) fun as => as ≠ [] :=
  yields_after fun a => yields_after fun as => yields_pure (cons_ne_nil a as)

theorem written_valueOp : Yields valueOp ValueOp.Written := by
  apply yields_firstOf
  refine ⟨?binary, ?alloc, ?recv, ?deref, ?not, ?neg, ?compl, ?call, ?convert, ?extract, ?fieldAddr,
    ?field, ?indexAddr,
    ?index, ?lookup, ?makeChan, ?makeClosure, ?makeMap, ?makeSlice, ?next, ?range, ?phi, ?select, ?slice, ?typeAssert,
    ?unmodelled⟩
  case binary =>
    exact .rule (.bind written_operand fun _ first => yields_after fun _ => .bind written_operand fun _ second =>
      yields_pure ⟨first, second⟩)
  case alloc => exact .rule (yields_after fun _ => yields_after fun _ => yields_pure trivial)
  case recv | typeAssert =>
    exact .rule (yields_after fun _ => .bind written_operand fun _ written => yields_after fun _ =>
      yields_pure written)
  case call => exact written_onCall fun _ written => written
  case convert =>
    exact .rule (yields_after fun _ => .bind written_operand fun _ written => yields_pure written)
  case extract | fieldAddr | field => exact written_onIndexed fun _ _ written fits => ⟨written, fits⟩
  case indexAddr | index => exact written_onPair fun _ _ first second => ⟨first, second⟩
  case lookup =>
    exact .rule (yields_after fun _ => .bind written_operand fun _ first => yields_after fun _ =>
      Yields.bind written_operand fun _ second => yields_after fun _ => yields_pure ⟨first, second⟩)
  case makeClosure =>
    exact .rule (yields_after fun _ => yields_funcRef.bind fun _ ident => .bind written_args fun _ all =>
      yields_pure ⟨ident, all⟩)
  case makeMap => exact .rule (yields_after fun _ => yields_pure trivial)
  case phi =>
    have edges : Yields (sepBy1 phiEdge (symbol ",")) fun es => es ≠ [] ∧ ∀ e ∈ es, e.Written :=
      (sepBy1_ne_nil.and written_phiEdge.sepBy1)
    exact .rule (yields_after fun _ => yields_after fun _ => edges.bind fun _ all =>
      yields_after fun _ => yields_pure all)
  case select =>
    exact .rule (yields_after fun _ => yields_after fun _ =>
      (yields_list written_selectCase _ _ _).bind fun _ all => yields_pure all)
  case unmodelled => exact written_onUnmodelled fun _ _ ident all => ⟨ident, all⟩
  all_goals exact written_onOperand fun _ written => written

theorem written_effect : Yields effect Effect.Written := by
  apply yields_firstOf
  refine ⟨?jump, ?branch, ?ret, ?send, ?store, ?mapUpdate, ?go, ?defer, ?call, ?runDefers, ?panic, ?unmodelled⟩
  case jump => exact .rule (yields_after fun _ => .bind yields_index fun _ fits => yields_pure fits)
  case branch =>
    refine .rule (yields_after fun _ => .bind written_operand fun _ written => yields_after fun _ => ?_)
    exact .bind yields_index fun _ first => yields_after fun _ => .bind yields_index fun _ second =>
      yields_pure ⟨written, first, second⟩
  case ret => exact .rule (yields_after fun _ => written_operand.sepBy.bind fun _ all => yields_pure all)
  case send | store => exact written_onPair fun _ _ first second => ⟨first, second⟩
  case mapUpdate =>
    refine .rule (yields_after fun _ => .bind written_operand fun _ first => yields_after fun _ => ?_)
    exact .bind written_operand fun _ second => yields_after fun _ => .bind written_operand fun _ third =>
      yields_pure ⟨first, second, third⟩
  case go | defer | call => exact written_onCall fun _ written => written
  case runDefers => exact .rule (yields_after fun _ => yields_pure trivial)
  case panic => exact written_onOperand fun _ written => written
  case unmodelled => exact written_onUnmodelled fun _ _ ident all => ⟨ident, all⟩

/-! ### Spelling -/

end Grammar

theorem Operand.Written.spelled {x : Operand} (written : x.Written) : x.Spelled := by
  cases x with
  | var n => exact Grammar.isIdent_of_isLocal written.1
  | global n | func n => exact written
  | const l =>
    cases l with
    | int i => exact written
    | _ => exact trivial

theorem Call.Written.spelled {c : Call} (written : c.Written) : c.Spelled := by
  obtain ⟨callee, args⟩ := c
  refine ⟨?_, fun x member => Operand.Written.spelled (written.args x member)⟩
  have called := written.callee
  cases callee with
  | static func | builtin n => exact called
  | value x =>
    obtain ⟨n, eq, loc⟩ := called
    exact ⟨n, eq, Grammar.isIdent_of_isLocal loc⟩
  | invoke receiver method => exact ⟨Operand.Written.spelled called.1, called.2⟩

theorem ValueOp.Written.spelled {op : ValueOp} (written : op.Written) : op.Spelled := by
  cases op with
  | call c => exact Call.Written.spelled written
  | makeClosure func xs => exact ⟨written.1, fun x member => Operand.Written.spelled (written.2 x member)⟩
  | unmodelled n xs => exact fun x member => Operand.Written.spelled (written.2 x member)
  | phi es => exact forall_mem_map.2 fun e member => Operand.Written.spelled (written.2 e member).value
  | select blocking cs =>
    refine forall_mem_map.2 fun c member => ?_
    have inner := written c member
    cases c with
    | send chan value => exact Operand.Written.spelled inner.1
    | recv chan => exact Operand.Written.spelled inner
  | alloc | makeMap => exact nofun
  | binary | index | indexAddr | lookup =>
    simpa [Spelled, operands] using written.imp Operand.Written.spelled Operand.Written.spelled
  | extract | field | fieldAddr => simpa [Spelled, operands] using Operand.Written.spelled written.1
  | _ => simpa [Spelled, operands] using Operand.Written.spelled written

theorem Effect.Written.spelled {effect : Effect} (written : effect.Written) : effect.Spelled := by
  cases effect with
  | go c | defer c | call c => exact Call.Written.spelled written
  | ret xs => exact fun x member => Operand.Written.spelled (written x member)
  | unmodelled n xs => exact fun x member => Operand.Written.spelled (written.2 x member)
  | jump | runDefers => exact nofun
  | branch x n l => simpa [Spelled, operands] using Operand.Written.spelled written.1
  | panic x => simpa [Spelled, operands] using Operand.Written.spelled written
  | send | store => simpa [Spelled, operands] using written.imp Operand.Written.spelled Operand.Written.spelled
  | mapUpdate x y z =>
    simpa [Spelled, operands] using
      written.imp Operand.Written.spelled (And.imp Operand.Written.spelled Operand.Written.spelled)

theorem Action.Written.spelled {a : Action} (written : a.Written) : a.Spelled := by
  cases a with
  | define n t op => exact ⟨written.1, ValueOp.Written.spelled written.2.2⟩
  | perform effect => exact Effect.Written.spelled written

namespace Grammar

theorem written_action : Yields (valueInstr <|> (do return .perform (← effect)) : Rule Action) Action.Written := by
  refine .orElse ?_ (.bind written_effect fun _ written => yields_pure written)
  exact .rule (yields_name.bind fun _ ident => yields_after fun _ => .bind written_ty fun _ ty =>
    yields_after fun _ => .bind written_valueOp fun _ written => yields_pure ⟨ident, ty, written⟩)

theorem spelled_block : Yields block fun b => ∀ i ∈ b.instrs, i.action.Spelled := by
  have instr : Yields instr fun i => i.action.Spelled :=
    Yields.rule (.bind written_action fun _ written => yields_after fun _ =>
      yields_pure (Action.Written.spelled written))
  exact .rule (yields_after fun _ => yields_after fun _ => yields_after fun _ =>
    yields_after fun _ => instr.many.bind fun _ all => yields_pure all)

theorem spelled_function : Yields function Draft.Spelled := by
  have param : Yields param fun q => isIdent q.name = true :=
    Yields.rule (yields_name.bind fun _ ident => yields_after fun _ => yields_after fun _ => yields_pure ident)
  refine Yields.rule (yields_after fun _ => yields_name.bind fun name ident => ?_)
  refine (yields_list param _ _ _).rule.opt.bind fun freeVars captured => ?_
  refine (yields_list param _ _ _).rule.bind fun params given => yields_after fun results => ?_
  refine (Yields.many spelled_block).bind fun blocks all => yields_pure ⟨⟨ident, given, ?_⟩, all⟩
  cases freeVars with
  | none => exact nofun
  | some vars => exact captured vars rfl

/-! ### Positions -/

theorem trim_trim (cs : List Char) : trim (trim cs) = trim cs := by
  have prefixes : trim cs <+: cs.dropWhile isWhiteSpace := by
    rw [trim, ← reverse_suffix, reverse_reverse]
    exact dropWhile_suffix _
  have front : Stops isWhiteSpace (trim cs) := by
    obtain ⟨more, eq⟩ := prefixes
    intro c first
    apply stops_dropWhile isWhiteSpace cs c
    rw [← eq, head?_append, Option.mem_def.1 first]
    rfl
  have back : Stops isWhiteSpace (trim cs).reverse := by
    rw [trim, reverse_reverse]
    exact stops_dropWhile isWhiteSpace _
  have first : ([] ++ trim cs).dropWhile isWhiteSpace = trim cs := front.dropWhile (by simp)
  have second : ([] ++ (trim cs).reverse).dropWhile isWhiteSpace = (trim cs).reverse := back.dropWhile (by simp)
  rw [nil_append] at first second
  rw [trim, first, second, reverse_reverse]

theorem mem_of_mem_trim {c : Char} (member : c ∈ trim cs) : c ∈ cs := by
  rw [trim, mem_reverse] at member
  have once := (dropWhile_suffix _).subset member
  exact (dropWhile_suffix _).subset (mem_reverse.1 once)

/-- A position is written as the grammar has it, but its file may be nothing. -/
theorem written_position : Yields position fun p => p.file ≠ "" → p.Written := by
  have file : Yields (token (scanRun isFileChar) : Rule (List Char)) fun cs => ∀ c ∈ cs, isFileChar c = true := by
    apply yields_token
    intro cs taken rest scanned
    unfold scanRun at scanned
    split at scanned
    · exact absurd scanned (by simp)
    · obtain ⟨rfl, -⟩ := Prod.mk.inj (Option.some.inj scanned)
      exact all_eq_true.1 all_takeWhile
  refine .rule (yields_after fun _ => yields_after fun _ => file.bind fun cs all => ?_)
  refine yields_after fun _ => yields_after fun line => yields_after fun _ => yields_after fun column => ?_
  refine yields_pure fun nonempty => ⟨?_, ?_, ?_, Nat.mod_lt _ (by decide), Nat.mod_lt _ (by decide)⟩
  · intro nothing
    exact nonempty (String.toList_inj.1 nothing)
  · rw [String.toList_ofList]
    exact fun c member => all c (mem_of_mem_trim member)
  · rw [String.toList_ofList]
    exact trim_trim cs

/-! ### Ends that are left open -/

/-- The word for a flag does not stand here. -/
def Unflagged (c : Cursor) : Prop := "commaok".toList.isPrefixOf? c.rest = none

theorem finds_commaOk : Finds commaOk fun _ ok c' => ok = false → Unflagged c' := by
  refine (Finds.opt finds_any).bind fun o => finds_pure fun c' c found lacks => ?_
  obtain ⟨rfl, refused⟩ := found.2 (by simpa using lacks)
  exact refused_literal (refused_lexeme (refused_map (g := fun _ => ()) (refused_rule refused)))

theorem finds_unflagged {p : Rule ValueOp} (yields : Yields p fun op => op.lacksOk = false) :
    Finds p fun _ op c' => op.lacksOk = true → Unflagged c' :=
  yields.mono fun _ _ _ whole lacks => by
    rw [whole] at lacks
    exact absurd lacks (by decide)

theorem finds_valueOp : Finds valueOp fun _ op c' => op.lacksOk = true → Unflagged c' := by
  apply finds_firstOf
  refine ⟨?binary, ?alloc, ?recv, ?deref, ?not, ?neg, ?compl, ?call, ?convert, ?extract, ?fieldAddr,
    ?field, ?indexAddr,
    ?index, ?lookup, ?makeChan, ?makeClosure, ?makeMap, ?makeSlice, ?next, ?range, ?phi, ?select, ?slice, ?typeAssert,
    ?unmodelled⟩
  case recv | typeAssert =>
    refine .rule (.bind finds_any fun _ => .bind finds_any fun x => .bind finds_commaOk fun ok => ?_)
    exact finds_pure fun c' _ found _ _ _ _ lacks => found (by simpa [ValueOp.lacksOk] using lacks)
  case lookup =>
    refine .rule (.bind finds_any fun _ => .bind finds_any fun x => .bind finds_any fun _ => .bind finds_any fun y =>
      Finds.bind finds_commaOk fun ok => ?_)
    exact finds_pure fun c' _ found _ _ _ _ _ _ _ _ lacks => found (by simpa [ValueOp.lacksOk] using lacks)
  all_goals
    refine finds_unflagged (.rule ?_)
    repeat refine yields_after fun _ => ?_
    exact yields_pure rfl

theorem many_found (p : Rule α) (c : Cursor) : (many p c).found ≠ none := by
  have upTo (n : Nat) (c : Cursor) : (upTo p n c).found ≠ none := by
    cases n with
    | zero => simp [upTo]
    | succ n => simp [upTo]
  exact upTo _ c

theorem refused_sepBy1 {p : Rule α} {sep : Rule Unit} (refused : (sepBy1 p sep c).found = none) :
    (p c).found = none :=
  refused_first (fun _ _ => by simpa using Option.ne_none_iff_exists'.1 (many_found _ _)) refused

theorem finds_sepBy {p : Rule α} {sep : Rule Unit} :
    Finds (sepBy p sep) fun _ as c' => as = [] → (p c').found = none := by
  refine .orElse (sepBy1_ne_nil.mono fun _ _ _ nonempty eq => absurd eq nonempty) ?_
  exact finds_pure fun c refused _ => refused_sepBy1 refused

/-- An effect starts with its word, and is a return without results only where no operand follows. -/
def Completed (c : Cursor) (effect : Effect) (c' : Cursor) : Prop :=
  effect.word.toList <+: c.rest ∧ (effect = .ret [] → (operand c').found = none)

theorem finds_led {f : Unit → Rule Effect} (yields : Yields (f ()) fun e => e.word = w ∧ e ≠ .ret []) :
    Finds (rule (symbol w >>= f)) Completed := by
  refine .rule (.bind finds_symbol fun _ => yields.mono fun _ e _ found c start => ?_)
  obtain ⟨rest, text, -⟩ := start
  exact ⟨⟨rest, by rw [found.1, text]⟩, fun eq => absurd eq found.2⟩

theorem finds_effect : Finds effect Completed := by
  apply finds_firstOf
  refine ⟨?jump, ?branch, ?ret, ?send, ?store, ?mapUpdate, ?go, ?defer, ?call, ?runDefers, ?panic, ?unmodelled⟩
  case ret =>
    refine .rule (.bind finds_symbol fun _ => .bind finds_sepBy fun xs => finds_pure fun c' _ found c start => ?_)
    obtain ⟨rest, text, -⟩ := start
    exact ⟨⟨rest, text.symm⟩, fun eq => found (by simpa using eq)⟩
  all_goals
    refine finds_led ?_
    repeat refine yields_after fun _ => ?_
    exact yields_pure ⟨rfl, by simp⟩

/-- What stands behind an instruction in the text it was found in. -/
structure Left (i : Instr) (c : Cursor) : Prop where
  operand : i.takesOperand = true → (operand c).found = none
  flag : i.takesFlag = true → Unflagged c

/-- A text starts with the word of an instruction. -/
def Begun (i : Instr) (cs : List Char) : Prop :=
  match i.action with
  | .define n _ _ => Begins n cs
  | .perform effect => effect.word.toList <+: cs

theorem finds_action : Finds (valueInstr <|> (do return .perform (← effect)) : Rule Action) fun c a c' =>
    Begun ⟨a, none⟩ c.rest ∧ Left ⟨a, none⟩ c' := by
  refine .orElse ?value (.bind finds_effect fun e => finds_pure fun c' c found _ => ?effect)
  case value =>
    refine .rule (.bind finds_name fun n => .bind finds_any fun _ => .bind finds_any fun t => .bind finds_any fun _ =>
      .bind finds_valueOp fun op => finds_pure fun c' _ found _ _ _ _ _ _ c begins => ⟨begins, ?_, ?_⟩)
    · intro takes
      simp [Instr.takesOperand] at takes
    · intro takes
      exact found (by simpa [Instr.takesFlag, Instr.op?] using takes)
  case effect =>
    refine ⟨found.1, fun takes => found.2 ?_, fun takes => ?_⟩
    · simpa [Instr.takesOperand] using takes
    · simp [Instr.takesFlag, Instr.op?] at takes

theorem finds_instr : Finds instr fun c i c' => Begun i c.rest ∧ Left i c' := by
  refine .rule (.bind finds_action fun a => .bind (.opt finds_any) fun pos =>
    finds_pure fun c' mid found c given => ⟨given.1, ?_, ?_⟩)
  · intro takes
    cases pos with
    | none =>
      obtain ⟨rfl, -⟩ := found.2 rfl
      exact given.2.operand takes
    | some p => simp [Instr.takesOperand] at takes
  · intro takes
    cases pos with
    | none =>
      obtain ⟨rfl, -⟩ := found.2 rfl
      exact given.2.flag takes
    | some p => simp [Instr.takesFlag] at takes

/-- The word that a text starts with is reserved where no operand stands. -/
theorem reserved_of_refused {w : List Char} (refused : (operand c).found = none)
    (scanned : scanName isWordChar c.rest = some (w, rest)) : reserved.any (·.toList = w) = true := by
  have alternatives := refused_firstOf (refused_rule refused)
  have unscanned : scanLocal c.rest = none :=
    refused_token (refused_lexeme (refused_map (refused_map alternatives.2.2.2)))
  rw [scanLocal, scanned, Option.filter_eq_none_iff] at unscanned
  simpa using unscanned (w, rest) rfl

/-- An instruction ends before the word of the one that was found behind it. -/
theorem Left.endsBefore {i j : Instr} (left : Left i c) (begun : Begun j c.rest) : i.EndsBefore j.word := by
  obtain ⟨action, pos⟩ := j
  cases action with
  | define n t op =>
    obtain ⟨ident, rest, eq, stops⟩ := begun
    refine ⟨fun takes => ?_, fun takes => ?_⟩
    · exact reserved_of_refused (left.operand takes) (by rw [eq]; exact scanName_ident ident stops)
    · have flag : "commaok".toList.isPrefixOf? c.rest = none := left.flag takes
      rw [← Bool.not_eq_true, isPrefixOf_iff_prefix]
      rintro ⟨more, longer⟩
      rw [eq, isPrefixOf?_eq_some_iff_append_eq.2 (show "commaok".toList ++ (more ++ rest) = n.toList ++ rest by
        rw [← append_assoc, longer]
        rfl)] at flag
      exact absurd flag (by simp)
  | perform effect =>
    have unflagged : ∀ w ∈ effectWords, "commaok".toList.isPrefixOf w.toList = false := by decide
    have words : ∀ w ∈ effectWords, ∀ r ∈ reserved, w.toList.isPrefixOf r.toList = true →
        reserved.any (·.toList = w.toList) = true := by decide +kernel
    refine ⟨fun takes => ?_, fun _ => unflagged effect.word effect.word_mem⟩
    obtain ⟨more, eq⟩ := begun
    obtain ⟨d, cs, written, starts, all⟩ := wordlike_of_isIdent effect.isIdent_word
    have scanned : scanName isWordChar c.rest =
        some (effect.word.toList ++ more.takeWhile isWordChar, more.dropWhile isWordChar) := by
      rw [← eq, written, cons_append, scanName, if_pos starts, takeWhile_append_of_pos all,
        dropWhile_append_of_pos all, cons_append]
    have found := reserved_of_refused (left.operand takes) scanned
    rw [any_eq_true] at found
    obtain ⟨r, member, same⟩ := found
    have start : effect.word.toList.isPrefixOf r.toList = true := by
      rw [ isPrefixOf_iff_prefix, of_decide_eq_true same]
      exact prefix_append _ _
    exact words effect.word effect.word_mem r member start

end Grammar

end ChanFlow.Ssa
