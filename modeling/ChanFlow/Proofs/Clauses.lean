import ChanFlow.Proofs.Phrasing

/-!
Operations and effects of program text, read back.

Two kinds of them have an end that is left open: a return without results would take an operand that follows, and an
operation that may have a flag would take the word for it.
-/
namespace ChanFlow.Ssa

open Text Text.Parser Grammar

variable {α : Type} {w v s : String} {c : Call} {ok : Bool} {rest cs : List Char} {choices : List (String × α)}
  {a : α}

def Callee.Written : Callee → Prop
  | .static func => isIdent func = true
  | .value x => ∃ n, x = .var n ∧ isLocal n = true
  | .builtin n => isIdent n = true
  | .invoke receiver method => receiver.Written ∧ isIdent method = true

structure Call.Written (c : Call) : Prop where
  callee : c.callee.Written
  args : ∀ x ∈ c.args, x.Written

def SelectCase.Written : SelectCase → Prop
  | .send chan value => chan.Written ∧ value.Written
  | .recv chan => chan.Written

structure PhiEdge.Written (e : PhiEdge) : Prop where
  pred : Word.IndexFits e.pred
  value : e.value.Written

def ValueOp.Written : ValueOp → Prop
  | .binary _ x y | .index x y | .indexAddr x y | .lookup x y _ => x.Written ∧ y.Written
  | .recv x _ | .deref x | .unary _ x | .convert _ x | .makeChan x | .makeSlice x | .next x | .range x | .slice x
  | .typeAssert x _ => x.Written
  | .extract x n | .field x n | .fieldAddr x n => x.Written ∧ Word.IndexFits n
  | .call c => c.Written
  | .makeClosure n xs | .unmodelled n xs => isIdent n = true ∧ ∀ x ∈ xs, x.Written
  | .alloc _ | .makeMap => True
  | .phi es => es ≠ [] ∧ ∀ e ∈ es, e.Written
  | .select _ cs => ∀ c ∈ cs, c.Written

def Effect.Written : Effect → Prop
  | .jump n => Word.IndexFits n
  | .branch x n l => x.Written ∧ Word.IndexFits n ∧ Word.IndexFits l
  | .ret xs => ∀ x ∈ xs, x.Written
  | .send x y | .store x y => x.Written ∧ y.Written
  | .mapUpdate x y z => x.Written ∧ y.Written ∧ z.Written
  | .go c | .defer c | .call c => c.Written
  | .runDefers => True
  | .panic x => x.Written
  | .unmodelled n xs => isIdent n = true ∧ ∀ x ∈ xs, x.Written

/-- An operation that may have a flag and has none. -/
def ValueOp.lacksOk : ValueOp → Bool
  | .recv _ ok | .lookup _ _ ok | .typeAssert _ ok => !ok
  | _ => false

namespace Grammar

section

variable {β : Type} {k : List Char}

theorem refuses_led {f : Unit → Rule β} (stops : Stops isWordChar k)
    (other : (isIdent w && isIdent v && !w.toList.isPrefixOf v.toList) = true := by decide) :
    Refuses (rule (symbol w >>= f)) (v.toList ++ k) := by
  simp only [Bool.and_eq_true, Bool.not_eq_true'] at other
  exact (refuses_start other.1.1 other.1.2 stops other.2).bind.rule

theorem refuses_oneOf (ident : isIdent v = true) (stops : Stops isWordChar k)
    (other : choices.all (fun ch => isIdent ch.1 && !ch.1.toList.isPrefixOf v.toList) = true) :
    Refuses (oneOf choices : Rule α) (v.toList ++ k) := by
  apply refuses_firstOf
  simp only [each_iff, List.mem_map, forall_exists_index, and_imp, forall_apply_eq_imp_iff₂]
  intro ch member
  have differs := List.all_eq_true.1 other ch member
  simp only [Bool.and_eq_true, Bool.not_eq_true'] at differs
  exact (refuses_start differs.1 ident stops differs.2).bind

/-- The first of the symbols that the text could start with is the one it starts with. -/
theorem takes_oneOf (clean : choices.all (fun ch => ch.1.toList.all (· != ' ')) = true)
    (start : skipped (s.toList ++ ' ' :: k) = s.toList ++ ' ' :: k)
    (found : choices.find? (fun ch => ch.1.toList.isPrefixOf s.toList) = some (s, a)) :
    Takes (oneOf choices : Rule α) (s.toList ++ ' ' :: k) a (' ' :: k) := by
  induction choices with
  | nil => exact absurd found (by simp)
  | cons ch rest ih =>
    rw [List.all_cons, Bool.and_eq_true] at clean
    rw [List.find?_cons] at found
    split at found
    · obtain rfl := Option.some.inj found
      exact .here ((takes_symbol_start start).bind takes_pure)
    · next other =>
      refine .later (ih clean.2 found) (.bind (refuses_symbol ?_))
      rw [start]
      exact isPrefixOf?_none (List.all_eq_true.1 clean.1) (stops_at rfl) other

theorem takes_binOp (op : BinOp) : Takes binOp (op.render.toList ++ ' ' :: k) op (' ' :: k) := by
  apply Takes.rule
  cases op with
  | div =>
    -- A single slash is not the start of a comment.
    have start : skipped ('/' :: ' ' :: k) = '/' :: ' ' :: k := by simp [skipped, Cursor.skip, isBlank]
    exact takes_oneOf (by decide) start rfl
  | _ => exact takes_oneOf (by decide) (skipped_solid (by decide) _) rfl

theorem takes_onOperand {make : Operand → β} {x : Operand} (word : isIdent w = true) (written : x.Written)
    (stops : Stops isWordChar k) : Takes (onOperand w make) (w.toList ++ ' ' :: (x.render.toList ++ k)) (make x) k :=
  Takes.rule ((takes_word word).bind ((takes_operand written stops).after_space.bind takes_pure))

theorem takes_callee {c : Callee} (written : c.Written) : Takes callee (c.render.toList ++ '(' :: k) c ('(' :: k) := by
  have stops : Stops isWordChar ('(' :: k) := stops_at rfl
  cases c with
  | static n =>
    have text : (Callee.static n).render.toList ++ '(' :: k = '&' :: (n.toList ++ '(' :: k) := by simp [Callee.render]
    have sign : Heads (startsName · = false) ('&' :: (n.toList ++ '(' :: k)) := heads_sign (by decide)
    rw [text]
    refine .later (.later (.here ?_) ?_) ?_
    · exact (takes_funcRef written stops).bind takes_pure
    · exact (refuses_keyword_head (by decide) sign).bind.rule
    · exact (refuses_keyword_head (by decide) sign).bind.rule
  | value x =>
    obtain ⟨n, rfl, loc⟩ := written
    have ident := isIdent_of_isLocal loc
    have text : (Callee.value (.var n)).render.toList = n.toList := rfl
    rw [text]
    refine .later (.later (.later (.here ?_) ?_) ?_) ?_
    · exact (takes_localName loc stops).bind takes_pure
    · exact (refuses_funcRef (head_ne ident (by decide))).bind
    · by_cases same : n = "invoke"
      · subst same
        exact ((takes_keyword stops (by decide)).refuses (refuses_operand_sign (by decide) (by decide)).bind).rule
      · exact (refuses_keyword (by decide) ident stops (Ne.symm same)).bind.rule
    · by_cases same : n = "builtin"
      · subst same
        exact ((takes_keyword stops (by decide)).refuses (refuses_name (heads_sign (by decide))).bind).rule
      · exact (refuses_keyword (by decide) ident stops (Ne.symm same)).bind.rule
  | builtin n =>
    have text : (Callee.builtin n).render.toList ++ '(' :: k = "builtin".toList ++ ' ' :: (n.toList ++ '(' :: k) := by
      simp [Callee.render]
    rw [text]
    refine .here (.rule ?_)
    apply (takes_keyword (stops_at rfl) (by decide)).bind
    exact (takes_name written stops).after_space.bind takes_pure
  | invoke x n =>
    have text : (Callee.invoke x n).render.toList ++ '(' :: k =
        "invoke".toList ++ ' ' :: (x.render.toList ++ ' ' :: (n.toList ++ '(' :: k)) := by simp [Callee.render]
    rw [text]
    refine .later (.here (.rule ?_)) ?_
    · apply (takes_keyword (stops_at rfl) (by decide)).bind
      apply (takes_operand written.1 (stops_at rfl)).after_space.bind
      exact (takes_name written.2 stops).after_space.bind takes_pure
    · exact (refuses_keyword (by decide) (by decide) (stops_at rfl) (by decide)).bind.rule

theorem takes_call (written : c.Written) : Takes call (c.render.toList ++ k) c k := by
  have text : c.render.toList ++ k = c.callee.render.toList ++ '(' :: ((renderOperands c.args).toList ++ ')' :: k) := by
    simp [Call.render]
  rw [text]
  exact .rule ((takes_callee written.callee).bind ((takes_args written.args).bind takes_pure))

theorem takes_commaOk (mute : ok = false → Refuses (symbol "commaok" : Rule Unit) k) :
    Takes commaOk ((renderCommaOk ok).toList ++ k) ok k := by
  cases ok with
  | true =>
    have text : (renderCommaOk true).toList ++ k = ' ' :: ("commaok".toList ++ k) := rfl
    rw [text]
    apply Takes.after_space
    exact (Takes.opt (Takes.rule ((takes_word (by decide)).bind takes_pure))).bind takes_pure
  | false => exact (Refuses.opt (Refuses.rule (mute rfl).bind)).bind takes_pure

theorem stops_commaOk (stops : Stops isWordChar k) : Stops isWordChar ((renderCommaOk ok).toList ++ k) := by
  cases ok with
  | true => exact stops_at rfl
  | false => exact stops

theorem takes_phiEdge {e : PhiEdge} (written : e.Written) (stops : Stops isWordChar k) :
    Takes phiEdge (e.render.toList ++ k) e k := by
  have text : e.render.toList ++ k = (toString e.pred).toList ++ ':' :: ' ' :: (e.value.render.toList ++ k) := by
    simp [PhiEdge.render]
  rw [text]
  apply Takes.rule
  apply (takes_index written.pred (stops_at rfl)).bind
  exact .bind takes_sign ((takes_operand written.value stops).after_space.bind takes_pure)

theorem takes_selectCase {c : SelectCase} (written : c.Written) (stops : Stops isWordChar k) :
    Takes selectCase (c.render.toList ++ k) c k := by
  cases c with
  | send x y =>
    have text : (SelectCase.send x y).render.toList ++ k =
        "send".toList ++ ' ' :: (x.render.toList ++ ' ' :: '<' :: '-' :: ' ' :: (y.render.toList ++ k)) := by
      simp [SelectCase.render]
    have arrow : Takes (symbol "<-" : Rule Unit) ('<' :: '-' :: ' ' :: (y.render.toList ++ k)) ()
        (' ' :: (y.render.toList ++ k)) := takes_symbol (s := "<-") rfl rfl
    rw [text]
    refine .here (.rule ?_)
    apply (takes_word (by decide)).bind
    apply (takes_operand written.1 (stops_at rfl)).after_space.bind
    exact arrow.after_space.bind ((takes_operand written.2 stops).after_space.bind takes_pure)
  | recv x =>
    have text : (SelectCase.recv x).render.toList ++ k = "recv".toList ++ ' ' :: (x.render.toList ++ k) := by
      simp [SelectCase.render]
    rw [text]
    refine .later (.here (takes_onOperand (by decide) written stops)) ?_
    exact refuses_led (stops_at rfl)

/-! ### Alternatives with a word of their own -/

/-- The rule refuses every text whose first word passes the test. -/
def Spurns (r : Rule β) (test : String → Bool) : Prop :=
  ∀ v k, isIdent v = true → test v = true → Stops isWordChar k → Refuses r (v.toList ++ k)

/-- A word that does not begin with the other. -/
def differs (w v : String) : Bool := isIdent w && !w.toList.isPrefixOf v.toList

theorem spurns_word {f : Unit → Rule β} : Spurns (rule (symbol w >>= f)) (differs w) := by
  intro v k ident other stops
  rw [differs, Bool.and_eq_true] at other
  exact refuses_led stops (by simp [ident, other])

theorem spurns_operand {f : Operand → Rule β} :
    Spurns (rule (operand >>= f)) fun v => reserved.any (·.toList = v.toList) :=
  fun _ _ ident word stops => (refuses_reserved ident stops word).bind.rule

theorem spurns_oneOf {f : α → Rule β} :
    Spurns (rule (rule (oneOf choices) >>= f)) fun v => (choices.map (·.1)).all (differs · v) :=
  fun _ _ ident other stops => (refuses_oneOf ident stops (by simpa [differs] using other)).rule.bind.rule

section Led

variable {rules : List (Rule β)} {tests : List (String → Bool)} {i : Nat} {w : String} {b : β}
  (spurn : List.Forall₂ Spurns rules tests)
include spurn

/-- A text is read by the alternative for its first word, as all before that refuse it. -/
theorem takes_ledBy {r : Rule β} (here : rules[i]? = some r) (takes : Takes r (w.toList ++ k) b rest)
    (stops : Stops isWordChar k) (clear : (isIdent w && (tests.take i).all (· w)) = true := by decide) :
    Takes (firstOf rules) (w.toList ++ k) b rest := by
  rw [Bool.and_eq_true] at clear
  obtain ⟨ident, clear⟩ := clear
  induction spurn generalizing i with
  | nil => exact nomatch here
  | cons first _ ih =>
    cases i with
    | zero =>
      obtain rfl := Option.some.inj here
      exact .here takes
    | succ i =>
      rw [List.take_succ_cons, List.all_cons, Bool.and_eq_true] at clear
      exact .later (ih here clear.2) (first w k ident clear.1 stops)

theorem takes_ledWord {f : Unit → Rule β} (here : rules[i]? = some (rule (symbol w >>= f)))
    (takes : Takes (f ()) k b rest) (clear : (isIdent w && (tests.take i).all (· w)) = true := by decide)
    (text : cs = w.toList ++ ' ' :: k := by
      simp [ValueOp.render, UnOp.render, Effect.render, renderUnmodelled, renderOperands, Function.comp_def]) :
    Takes (firstOf rules) cs b rest := by
  subst text
  have word : isIdent w = true := (Bool.and_eq_true_iff.1 clear).1
  exact takes_ledBy spurn here (.rule ((takes_word word).bind takes.after_space)) (stops_at rfl) clear

theorem takes_ledNothing (here : rules[i]? = some (onNothing w b)) (stops : Stops isWordChar k)
    (clear : (isIdent w && (tests.take i).all (· w)) = true := by decide) :
    Takes (firstOf rules) (w.toList ++ k) b k :=
  takes_ledBy spurn here (.rule ((takes_word (Bool.and_eq_true_iff.1 clear).1).bind takes_pure)) stops clear

end Led

section Tails

variable {x y : Operand} {n : Nat}

theorem takes_last {make : Operand → β} (written : x.Written) (stops : Stops isWordChar k) :
    Takes (do return make (← operand)) (x.render.toList ++ k) (make x) k :=
  (takes_operand written stops).bind takes_pure

theorem takes_pair {make : Operand → Operand → β} (written : x.Written ∧ y.Written)
    (stops : Stops isWordChar k) : Takes (do let x ← operand; symbol ","; return make x (← operand))
      (x.render.toList ++ ',' :: ' ' :: (y.render.toList ++ k)) (make x y) k :=
  (takes_operand written.1 (stops_at rfl)).bind (.bind takes_sign (takes_last written.2 stops).after_space)

theorem takes_indexed {make : Operand → Nat → β} (written : x.Written ∧ Word.IndexFits n)
    (stops : Stops isWordChar k) : Takes (do let x ← operand; symbol ","; return make x (← index))
      (x.render.toList ++ ',' :: ' ' :: ((toString n).toList ++ k)) (make x n) k :=
  (takes_operand written.1 (stops_at rfl)).bind (.bind takes_sign
    ((takes_index written.2 (stops_digit stops)).after_space.bind takes_pure))

theorem takes_unmodelled {make : String → List Operand → β} {n : String} {xs : List Operand}
    (written : isIdent n = true ∧ ∀ x ∈ xs, x.Written) :
    Takes (do let op ← name; return make op (← args)) (n.toList ++ '(' :: ((renderOperands xs).toList ++ ')' :: k))
      (make n xs) k :=
  (takes_name written.1 (stops_at rfl)).bind ((takes_args written.2).bind takes_pure)

theorem takes_flagged {make : Operand → Bool → β} (written : x.Written) (stops : Stops isWordChar k)
    (mute : ok = false → Refuses (symbol "commaok" : Rule Unit) k) :
    Takes (do let x ← operand; return make x (← commaOk)) (x.render.toList ++ ((renderCommaOk ok).toList ++ k))
      (make x ok) k :=
  (takes_operand written (stops_commaOk stops)).bind ((takes_commaOk mute).bind takes_pure)

end Tails

theorem takes_apart (tests : List (String → Bool)) {rules : List (Rule β)} {b : β}
    (spurn : List.Forall₂ Spurns rules tests)
    (takes : List.Forall₂ Spurns rules tests → Takes (firstOf rules) cs b rest) :
    Takes (firstOf rules) cs b rest := takes spurn

/-- The words that tell the alternatives for an operation apart. -/
def valueTests : List (String → Bool) :=
  (fun v => reserved.any (·.toList = v.toList)) ::
    ["alloc", "recv", "deref", "not", "neg", "compl", "call"].map differs ++
    (fun v => ["changetype", "convert", "changeiface", "makeiface"].all (differs · v)) ::
    ["extract", "fieldaddr", "field", "indexaddr", "index", "lookup", "makechan", "makeclosure", "makemap", "makeslice",
      "next", "range", "phi", "select", "slice", "typeassert", "opaque"].map differs

def effectWords : List String :=
  ["jump", "if", "return", "send", "store", "mapupdate", "go", "defer", "call", "rundefers", "panic", "opaque"]

def effectTests : List (String → Bool) := effectWords.map differs

/-- An operation is read back from its text; where it may have a flag and has none, no such word may follow. -/
theorem takes_valueOp {op : ValueOp} (written : op.Written) (stops : Stops isWordChar k)
    (mute : op.lacksOk = true → Refuses (symbol "commaok" : Rule Unit) k) :
    Takes valueOp (op.render.toList ++ k) op k := by
  unfold valueOp
  refine takes_apart valueTests ?_ fun spurn => ?_
  · refine .cons spurns_operand ?_
    iterate 7 refine .cons spurns_word ?_
    refine .cons spurns_oneOf ?_
    iterate 17 refine .cons spurns_word ?_
    exact .nil
  have space (cs : List Char) : Stops isWordChar (' ' :: cs) := stops_at rfl
  cases op with
  | binary op x y =>
    have text : (ValueOp.binary op x y).render.toList ++ k =
        x.render.toList ++ ' ' :: (op.render.toList ++ ' ' :: (y.render.toList ++ k)) := by simp [ValueOp.render]
    rw [text]
    refine .here (.rule ?_)
    apply (takes_operand written.1 (space _)).bind
    exact (takes_binOp op).after_space.bind ((takes_operand written.2 stops).after_space.bind takes_pure)
  | alloc scope =>
    refine takes_ledWord (i := 1) spurn rfl
      (.bind (show Takes _ (scope.render.toList ++ k) scope k from .rule ?_) takes_pure)
    cases scope with
    | heap => exact .here ((takes_word (w := "heap") (by decide)).bind takes_pure)
    | frame =>
      refine .later (.here ((takes_word (w := "local") (by decide)).bind takes_pure)) ?_
      exact (refuses_start (w := "heap") (v := "local") (by decide) (by decide) stops (by decide)).bind
  | recv x ok =>
    exact takes_ledWord (i := 2) spurn rfl (takes_flagged written stops fun lacks => mute (by rw [lacks]; rfl))
  | deref x => exact takes_ledWord (i := 3) spurn rfl (takes_last written stops)
  | unary op x =>
    cases op with
    | not => exact takes_ledWord (i := 4) spurn rfl (takes_last written stops)
    | neg => exact takes_ledWord (i := 5) spurn rfl (takes_last written stops)
    | compl => exact takes_ledWord (i := 6) spurn rfl (takes_last written stops)
  | call c => exact takes_ledWord (i := 7) spurn rfl ((takes_call written).bind takes_pure)
  | convert op x =>
    have text : (ValueOp.convert op x).render.toList ++ k = op.render.toList ++ ' ' :: (x.render.toList ++ k) := by
      simp [ValueOp.render]
    have ident : isIdent op.render = true := by cases op <;> decide
    rw [text]
    refine takes_ledBy (i := 8) spurn rfl (.rule (.bind (.rule (takes_oneOf (by decide) (skipped_ident ident _) ?_))
      (takes_last written stops).after_space)) (stops_at rfl) ?_
    · cases op <;> rfl
    · cases op <;> decide
  | extract x n => exact takes_ledWord (i := 9) spurn rfl (takes_indexed written stops)
  | fieldAddr x n => exact takes_ledWord (i := 10) spurn rfl (takes_indexed written stops)
  | field x n => exact takes_ledWord (i := 11) spurn rfl (takes_indexed written stops)
  | indexAddr x y => exact takes_ledWord (i := 12) spurn rfl (takes_pair written stops)
  | index x y => exact takes_ledWord (i := 13) spurn rfl (takes_pair written stops)
  | lookup x y ok =>
    exact takes_ledWord (i := 14) spurn rfl
      ((takes_operand written.1 (stops_at rfl)).bind (.bind (takes_sign (c := ','))
      (takes_flagged written.2 stops fun lacks => mute (by rw [lacks]; rfl)).after_space))
  | makeChan x => exact takes_ledWord (i := 15) spurn rfl (takes_last written stops)
  | makeClosure n xs =>
    exact takes_ledWord (i := 16) spurn rfl ((takes_funcRef written.1 (stops_at rfl)).bind
      ((takes_args written.2).bind takes_pure))
  | makeMap => exact takes_ledNothing (i := 17) (w := "makemap") spurn rfl stops
  | makeSlice x => exact takes_ledWord (i := 18) spurn rfl (takes_last written stops)
  | next x => exact takes_ledWord (i := 19) spurn rfl (takes_last written stops)
  | range x => exact takes_ledWord (i := 20) spurn rfl (takes_last written stops)
  | phi es =>
    obtain ⟨nonempty, written⟩ := written
    refine takes_ledWord (i := 21) spurn rfl (.bind (takes_sign (c := '[')) (.bind (show Takes _
      ([',', ' '].intercalate (es.map fun e => e.render.toList) ++ ']' :: k) es (']' :: k) from ?_)
      (.bind takes_sign takes_pure)))
    cases es with
    | nil => exact absurd rfl nonempty
    | cons e es =>
      refine takes_sepBy1 (s := ',') rfl (by decide) ?_ ?_ (Nat.le_refl _)
      · exact refuses_symbol_head (c := ',') rfl (heads_sign (by decide))
      · intro e' member k' _ head
        refine takes_phiEdge (written e' member) ?_
        rcases head with rfl | head
        · exact stops_at rfl
        · exact (Ty.Ends.of_head (o := true) (c := ',') (d := ',') (.inl head)).stops
  | select blocking cs =>
    have kind (k : List Char) : Takes (oneOf [("blocking", true), ("nonblocking", false)] : Rule Bool)
        ((if blocking then "blocking" else "nonblocking").toList ++ ' ' :: k) blocking (' ' :: k) := by
      cases blocking with
      | true => exact takes_oneOf (s := "blocking") (by decide) (skipped_solid (by decide) _) rfl
      | false => exact takes_oneOf (s := "nonblocking") (by decide) (skipped_solid (by decide) _) rfl
    refine takes_ledWord (i := 22) spurn rfl ((kind _).rule.bind (.bind (.after_space
      (takes_list (o := '[') (c := ']') (s := ',') (r := fun c => c.render.toList) ?_ ?_ (Nat.le_refl _))) takes_pure))
    · intro c member k' _ head
      exact takes_selectCase (written c member) (Ty.Ends.of_head (o := true) head).stops
    · refine refuses_firstOf ?_
      have refused {w : String} {f : Unit → Rule SelectCase} (ident : isIdent w = true) :
          Refuses (rule (symbol w >>= f)) (']' :: k) := by
        obtain ⟨c, cs, eq, starts, -⟩ := wordlike_of_isIdent ident
        refine .rule (.bind (refuses_symbol_head (c := c) (by rw [eq]; rfl) (heads_sign ?_)))
        rintro rfl
        exact absurd starts (by decide)
      exact ⟨refused (by decide), refused (by decide)⟩
  | slice x => exact takes_ledWord (i := 23) spurn rfl (takes_last written stops)
  | typeAssert x ok =>
    exact takes_ledWord (i := 24) spurn rfl (takes_flagged written stops fun lacks => mute (by rw [lacks]; rfl))
  | unmodelled n xs => exact takes_ledWord (i := 25) spurn rfl (takes_unmodelled written)

/-- An effect is read back from its text; where it is a return without results, no operand may follow. -/
theorem takes_effect {effect : Effect} (written : effect.Written) (stops : Stops isWordChar k)
    (comma : Refuses (symbol "," : Rule Unit) k) (mute : effect = .ret [] → Refuses operand k) :
    Takes Grammar.effect (effect.render.toList ++ k) effect k := by
  unfold Grammar.effect
  refine takes_apart effectTests ?_ fun spurn => ?_
  · iterate 12 refine .cons spurns_word ?_
    exact .nil
  have space (cs : List Char) : Stops isWordChar (' ' :: cs) := stops_at rfl
  cases effect with
  | jump n =>
    exact takes_ledWord (i := 0) spurn rfl ((takes_index written (stops_digit stops)).bind takes_pure)
  | branch x n l =>
    obtain ⟨cond, onTrue, onFalse⟩ := written
    exact takes_ledWord (i := 1) spurn rfl
      ((takes_operand cond (space _)).bind (.bind (.after_space (takes_word (by decide)))
      ((takes_index onTrue (stops_digit (space _))).after_space.bind (.bind (.after_space (takes_word (by decide)))
        ((takes_index onFalse (stops_digit stops)).after_space.bind takes_pure)))))
  | ret xs =>
    cases xs with
    | nil =>
      refine takes_ledBy (i := 2) (w := "return") spurn rfl (.rule ?_) stops
      refine (takes_word (w := "return") (by decide)).bind (.bind ?_ takes_pure)
      exact Refuses.orElse (mute rfl).bind takes_pure
    | cons x xs =>
      refine takes_ledWord (i := 2) spurn rfl (.bind (.orElse (show Takes _
        ([',', ' '].intercalate ((x :: xs).map fun x => x.render.toList) ++ k) _ _ from ?_)) takes_pure)
      refine takes_sepBy1 (s := ',') rfl (by decide) comma ?_ (Nat.le_refl _)
      intro y member k' _ head
      refine takes_operand (written y member) ?_
      rcases head with rfl | head
      · exact stops
      · exact (Ty.Ends.of_head (o := true) (c := ',') (d := ',') (.inl head)).stops
  | send x y => exact takes_ledWord (i := 3) spurn rfl (takes_pair written stops)
  | store x y => exact takes_ledWord (i := 4) spurn rfl (takes_pair written stops)
  | mapUpdate x y z =>
    obtain ⟨map, key, value⟩ := written
    exact takes_ledWord (i := 5) spurn rfl ((takes_operand map (stops_at rfl)).bind
      (.bind (takes_sign (c := ',')) (takes_pair ⟨key, value⟩ stops).after_space))
  | go c => exact takes_ledWord (i := 6) spurn rfl ((takes_call written).bind takes_pure)
  | defer c => exact takes_ledWord (i := 7) spurn rfl ((takes_call written).bind takes_pure)
  | call c => exact takes_ledWord (i := 8) spurn rfl ((takes_call written).bind takes_pure)
  | runDefers => exact takes_ledNothing (i := 9) (w := "rundefers") spurn rfl stops
  | panic x => exact takes_ledWord (i := 10) spurn rfl (takes_last written stops)
  | unmodelled n xs => exact takes_ledWord (i := 11) spurn rfl (takes_unmodelled written)

end

end Grammar

end ChanFlow.Ssa
