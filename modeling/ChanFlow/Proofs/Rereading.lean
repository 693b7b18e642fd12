import ChanFlow.Proofs.Declarations
import ChanFlow.Proofs.Excerpts

/-!
Program text read, printed and read again.

Each instruction and each function that was read ends before the word of the next, because the text it
was found in went on with that word. So the printed text is read as the same program, unless printing
moves a word behind an open type or drops the file of a position.
-/
open List

namespace ChanFlow.Ssa

open Text Text.Parser

/-! ### Declarations -/

open Grammar

def Decl.isFunction : Decl → Bool
  | .function _ => true
  | _ => false

/-- The position of an instruction names a file. -/
def Instr.Placed (i : Instr) : Prop := ∀ p ∈ i.pos, p.file ≠ ""

def Draft.Placed (d : Draft) : Prop := ∀ b ∈ d.blocks, ∀ i ∈ b.instrs, i.Placed

def Decl.Placed : Decl → Prop
  | .function d => d.Placed
  | _ => True

namespace Grammar

theorem written_instr : Yields instr fun i => i.Placed → i.Written := by
  refine .rule (.bind written_action fun a written => written_position.opt.bind fun pos found =>
    yields_pure fun placed => ?_)
  exact ⟨written, fun p member => found p member (placed p member)⟩

theorem flowing_of_trail {c c' : Cursor} {is : List Instr}
    (trail : Trail (fun c i c' => (Begun i c.rest ∧ Left i c') ∧ (i.Placed → i.Written)) c is c')
    (placed : ∀ i ∈ is, i.Placed) : Flowing is := by
  induction trail with
  | nil => trivial
  | cons item rest ih =>
    rw [forall_mem_cons] at placed
    refine ⟨item.2 placed.1, fun j first => ?_, ih placed.2⟩
    cases rest with
    | nil => simp at first
    | cons next _ =>
      obtain rfl := by simpa using first
      exact item.1.2.endsBefore next.1.1

theorem written_block : Yields block fun b => (∀ i ∈ b.instrs, i.Placed) → WrittenBlock b := by
  have tag : Yields (lexeme (token (scanRun isWordChar)) : Rule (List Char)) fun cs =>
    isTag (String.ofList cs) = true := by
    apply Yields.lexeme
    apply yields_token
    intro cs taken rest scanned
    unfold scanRun at scanned
    split at scanned
    · exact absurd scanned (by simp)
    · next some =>
      obtain ⟨rfl, -⟩ := Prod.mk.inj (Option.some.inj scanned)
      rw [isTag, String.toList_ofList, all_takeWhile, Bool.and_true, Bool.not_eq_true', isEmpty_eq_false_iff]
      exact some
  have instrs : Yields (many instr) fun is => (∀ i ∈ is, i.Placed) → Flowing is :=
    (finds_instr.and written_instr).many.mono fun _ _ _ trail => flowing_of_trail trail
  refine .rule (yields_after fun _ => .bind yields_index fun n fits => tag.opt.bind fun t tagged => ?_)
  refine yields_after fun _ => instrs.bind fun is flowing => yields_pure fun placed => ⟨fits, ?_, flowing placed⟩
  intro s shown
  obtain ⟨cs, found, rfl⟩ := Option.map_eq_some_iff.1 shown
  exact tagged cs found

theorem written_param : Yields param Param.Written :=
  Yields.rule (yields_name.bind fun _ ident => yields_after fun _ => .bind written_ty fun _ written =>
    yields_pure ⟨ident, written⟩)

/-- No word stands here. -/
def Wordless (c : Cursor) : Prop := ∀ d ∈ c.rest.head?, startsName d = false

theorem keyword_advances {w : String} (word : 0 < w.toList.length) :
    Finds (keyword w) fun c _ c' => c'.rest.length < c.rest.length := by
  refine .bind finds_token fun taken => finds_pure fun c' c found => ?_
  obtain ⟨rest, scanned, left⟩ := found
  have le := length_skipped_le rest
  unfold scanWord at scanned
  split at scanned
  · next more eq =>
    split at scanned
    · exact absurd scanned (by simp)
    · obtain ⟨-, rfl⟩ := Prod.mk.inj (Option.some.inj scanned)
      rw [left, ← isPrefixOf?_eq_some_iff_append_eq.1 eq, length_append]
      omega
  · exact absurd scanned (by simp)

theorem shrinks_keyword {w : String} (word : 0 < w.toList.length) : Shrinks (keyword w) :=
  (keyword_advances word).mono fun _ _ _ => Nat.le_of_lt

theorem shrinks_name : Shrinks name := by
  refine (shrinks_token fun cs taken rest scanned => ?_).bind fun _ => shrinks_pure _
  rw [(scanName_some scanned).1, length_append]
  omega

theorem shrinks_index : Shrinks index := by
  have digits : Shrinks (token (scanRun isDigit) : Rule (List Char)) := by
    refine ⟨fun c m found _ => ?_⟩
    unfold token scanRun at found
    split at found
    · next taken rest scanned =>
      obtain rfl := Option.some.inj found
      split at scanned
      · exact absurd scanned (by simp)
      · obtain ⟨-, rfl⟩ := Prod.mk.inj (Option.some.inj scanned)
        exact (dropWhile_suffix isDigit).length_le
    · exact absurd found (by simp)
  have reports (fault : Option NumeralFault) : Shrinks (report fault : Rule Unit) := by
    refine ⟨fun c m found _ => ?_⟩
    obtain rfl := Option.some.inj found
    exact Nat.le_refl _
  have blanks : Shrinks (blanks : Rule Unit) := .mono finds_blanks fun c _ c' left => by
    rw [left]
    exact length_skipped_le c.rest
  refine .bind (digits.bind fun _ => (reports _).bind fun _ => shrinks_pure _) fun _ => ?_
  exact blanks.bind fun _ => shrinks_pure _

theorem shrinks_list {α : Type} {item : Rule α} {o s z : String} (shrinks : Shrinks item)
    (opening : 0 < o.toList.length)
    (closing : 0 < z.toList.length) (between : 0 < s.toList.length) : Shrinks (list o z s item) :=
  (shrinks_symbol opening).bind fun _ => (shrinks.sepBy (shrinks_symbol between)).bind fun _ =>
    (shrinks_symbol closing).bind fun _ => shrinks_pure _

theorem shrinks_tyWithin (n : Nat) : Shrinks (tyWithin n) := by
  induction n with
  | zero => exact ⟨fun _ _ found => absurd found (by simp [tyWithin, fail])⟩
  | succ n ih =>
    refine .rule (shrinks_firstOf ?_)
    have opening : Shrinks (symbol "[" : Rule Unit) := shrinks_symbol (by decide)
    have closing : Shrinks (symbol "]" : Rule Unit) := shrinks_symbol (by decide)
    refine ⟨?chan, ?array, ?slice, ?map, ?pointer, ?struct, ?interface, ?func, ?tuple, ?basic, ?named⟩
    case chan => exact .rule ((shrinks_keyword (by decide)).bind fun _ => ih.bind fun _ => shrinks_pure _)
    case array =>
      exact .rule (opening.bind fun _ => .bind shrinks_index fun _ => closing.bind fun _ => ih.bind fun _ =>
        shrinks_pure _)
    case slice => exact .rule (opening.bind fun _ => closing.bind fun _ => ih.bind fun _ => shrinks_pure _)
    case map =>
      exact .rule ((shrinks_keyword (by decide)).bind fun _ => opening.bind fun _ => ih.bind fun _ =>
        closing.bind fun _ => ih.bind fun _ => shrinks_pure _)
    case pointer => exact .rule ((shrinks_symbol (by decide)).bind fun _ => ih.bind fun _ => shrinks_pure _)
    case struct =>
      exact .rule ((shrinks_keyword (by decide)).bind fun _ =>
        (shrinks_list ih (by decide) (by decide) (by decide)).bind fun _ => shrinks_pure _)
    case interface =>
      exact .rule ((shrinks_keyword (by decide)).bind fun _ =>
        (shrinks_list shrinks_name (by decide) (by decide) (by decide)).bind fun _ => shrinks_pure _)
    case func => exact (shrinks_keyword (by decide)).bind fun _ => shrinks_pure _
    case tuple =>
      exact .rule ((shrinks_list ih (by decide) (by decide) (by decide)).bind fun _ => shrinks_pure _)
    case basic =>
      refine (shrinks_token fun cs taken rest scanned => ?_).bind fun _ => shrinks_pure _
      rw [(scanName_some (Option.filter_eq_some_iff.1 scanned).1).1, length_append]
      omega
    case named => exact .bind shrinks_name fun _ => shrinks_pure _

/-- Where no type can be read no word stands. -/
theorem wordless_of_refused {n : Nat} {c : Cursor} (refused : (tyWithin (n + 1) c).found = none) : Wordless c := by
  have last := each_iff.1 (refused_firstOf (refused_rule refused)) (do return Ty.named (← name)) (by simp)
  have unscanned : scanName isWordChar c.rest = none := refused_token (refused_lexeme (refused_map (refused_map last)))
  intro d first
  cases text : c.rest with
  | nil => simp [text] at first
  | cons e cs =>
    obtain rfl : e = d := by simpa [text] using first
    rw [text, scanName] at unscanned
    split at unscanned
    · exact absurd unscanned (by simp)
    · next other => exact Bool.eq_false_iff.2 other

/-- The channel alternative comes first, so `chan` is a name only where no type follows it. -/
theorem finds_openWithin (n : Nat) :
    Finds (tyWithin n) fun c t c' => c.rest.length < n → t.isOpen = true → Wordless c' := by
  induction n with
  | zero => exact ⟨fun _ _ found => absurd found (by simp [tyWithin, fail])⟩
  | succ n ih =>
    have opening := symbol_advances (φ := NumeralFault) (s := "[") (by decide)
    have closing := shrinks_symbol (φ := NumeralFault) (s := "]") (by decide)
    have shut {p : Rule Ty} {Q : Cursor → Prop} (yields : Yields p fun t => t.isOpen = false) :
        Finds p fun c t c' => Q c → c.rest.length < n + 1 → t.isOpen = true → Wordless c' :=
      yields.mono fun _ _ _ closed _ _ isOpen => absurd (closed.symm.trans isOpen) (by decide)
    refine .rule (.orElse ?chan (finds_firstOf ?_))
    case chan =>
      refine .rule ((keyword_advances (by decide)).bind fun _ => ih.bind fun t => ?_)
      exact finds_pure fun c' mid inner c less short isOpen => inner (by omega) (by simpa [Ty.isOpen] using isOpen)
    refine ⟨?array, ?slice, ?map, ?pointer, ?struct, ?interface, ?func, ?tuple, ?basic, ?named⟩
    case array =>
      refine .rule (opening.bind fun _ => .bind shrinks_index fun _ => .bind closing fun _ =>
        ih.bind fun t => ?_)
      exact finds_pure fun c' _ inner _ le₁ _ le₂ c less _ short isOpen =>
        inner (by omega) (by simpa [Ty.isOpen] using isOpen)
    case slice =>
      refine .rule (opening.bind fun _ => .bind closing fun _ => ih.bind fun t => ?_)
      exact finds_pure fun c' _ inner _ le c less _ short isOpen =>
        inner (by omega) (by simpa [Ty.isOpen] using isOpen)
    case map =>
      refine .rule ((keyword_advances (by decide)).bind fun _ => opening.bind fun _ =>
        Finds.bind (shrinks_tyWithin n) fun _ => .bind closing fun _ => ih.bind fun t => ?_)
      exact finds_pure fun c' _ inner _ le₁ _ le₂ _ less₁ c less₂ _ short isOpen =>
        inner (by omega) (by simpa [Ty.isOpen] using isOpen)
    case pointer =>
      refine .rule ((symbol_advances (by decide)).bind fun _ => ih.bind fun t => ?_)
      exact finds_pure fun c' _ inner c less _ short isOpen => inner (by omega) (by simpa [Ty.isOpen] using isOpen)
    case struct => exact shut (.rule (yields_after fun _ => yields_after fun _ => yields_pure rfl))
    case interface => exact shut (.rule (yields_after fun _ => yields_after fun _ => yields_pure rfl))
    case func => exact shut (yields_after fun _ => yields_pure rfl)
    case tuple => exact shut (.rule (yields_after fun _ => yields_pure rfl))
    case basic => exact shut (yields_after fun _ => yields_pure rfl)
    case named =>
      refine .bind finds_nameBefore fun v => finds_pure fun c' c found refused short isOpen => ?_
      obtain ⟨ident, rest, text, stops, left⟩ := found
      obtain rfl : v = "chan" := by simpa [Ty.isOpen] using isOpen
      obtain ⟨stop, matched⟩ := takes_keyword (w := "chan") stops (by decide) c.offset
      have solid : skipped ("chan".toList ++ rest) = c.rest := by
        rw [text]
        exact skipped_solid (by decide) _
      rw [solid] at matched
      have inner := refused_map (refused_bind matched (refused_rule refused))
      have long : 4 ≤ c.rest.length := by
        rw [text, length_append]
        exact Nat.le_add_right 4 _
      cases n with
      | zero => omega
      | succ n =>
        have wordless := wordless_of_refused inner
        intro d first
        exact wordless d (by rwa [left] at first)

theorem finds_open : Finds ty fun _ t c' => t.isOpen = true → Wordless c' :=
  ⟨fun c m found sound => (finds_openWithin _).value c m found sound (Nat.lt_succ_self _)⟩

theorem Wordless.absurd_start {c : Cursor} {w : String} (wordless : Wordless c) (word : isIdent w = true)
    (start : w.toList <+: c.rest) : False := by
  obtain ⟨d, cs, eq, starts, -⟩ := wordlike_of_isIdent word
  obtain ⟨more, text⟩ := start
  have other := wordless d (by rw [← text, eq]; rfl)
  rw [starts] at other
  exact absurd other (by decide)

/-- Where no word stands there is no block. -/
theorem finds_blocks : Finds (many block) fun c bs c' => (Wordless c → bs = []) ∧ (bs = [] → c' = c) := by
  have starts : Finds block fun c _ _ => "block".toList <+: c.rest := by
    refine .rule (.bind finds_symbol fun _ => .mono finds_any fun _ _ _ _ c start => ?_)
    obtain ⟨rest, text, -⟩ := start
    exact ⟨rest, text.symm⟩
  refine starts.many.mono fun c bs c' trail => ?_
  cases trail with
  | nil => exact ⟨fun _ => rfl, fun _ => rfl⟩
  | cons start _ => exact ⟨fun wordless => (wordless.absurd_start (by decide) start).elim, by simp⟩

theorem finds_function : Finds function fun _ d c' =>
    (d.Placed → d.Written) ∧ ((Decl.function d).isOpen = true → Wordless c') := by
  have captures := (yields_list written_param "[" "]" ",").rule.opt
  have given := (yields_list written_param "(" ")" ",").rule
  have results : Finds (opt (rule do symbol "->"; ty)) fun _ o c' => ∀ t ∈ o, t.Written ∧
    (t.isOpen = true → Wordless c') := by
    refine (Finds.opt (Finds.rule (Finds.bind finds_any fun _ => ?_))).mono fun _ _ _ found => found.1
    exact (written_ty.and finds_open).mono fun _ _ _ found _ _ => found
  refine .rule (.bind finds_any fun _ => .bind yields_name fun n => .bind captures fun vars =>
    .bind given fun params => results.bind fun o => (finds_blocks.and written_block.many).bind fun bs => ?_)
  refine finds_pure fun c' c₁ found c₂ returned _ all _ captured _ ident _ _ =>
    ⟨fun placed => ?_, fun isOpen => ?_⟩
  · refine ⟨ident, all, ?_,
      fun t shown => ⟨(returned t shown).1, fun isOpen => found.1.1 ((returned t shown).2 isOpen)⟩,
      fun b member => found.2 b member (placed b member)⟩
    cases vars with
    | none => exact fun q member => absurd member not_mem_nil
    | some qs => exact captured qs rfl
  · obtain ⟨empty, ends⟩ := Bool.and_eq_true_iff.1 isOpen
    rw [found.1.2 (isEmpty_iff.1 empty)]
    cases o with
    | none => exact absurd ends (by simp)
    | some t => exact (returned t rfl).2 (by simpa using ends)

theorem written_typeDecl : Yields typeDecl fun d => d.Spelled ∧ d.Written := by
  have entry : Yields methodEntry fun e => isIdent e.1 = true ∧ isIdent e.2 = true :=
    Yields.rule (yields_name.bind fun _ first => yields_after fun _ => yields_name.bind fun _ second =>
      yields_pure ⟨first, second⟩)
  refine .rule (yields_after fun _ => yields_name.bind fun n ident => .bind written_ty fun t written => ?_)
  refine (yields_list entry _ _ _).rule.opt.bind fun methods all => ?_
  have named : ∀ e ∈ (Dict.ofList (methods.getD [])).entries, isIdent e.1 = true ∧ isIdent e.2 = true := by
    intro e member
    rcases mem_foldl_insert member with empty | given
    · exact absurd empty not_mem_nil
    · cases methods with
      | none => exact absurd given not_mem_nil
      | some es => exact all es rfl e given
  exact yields_pure ⟨fun method routine found => (named _ (Table.mem_of_find found)).2, ident, written, named⟩

theorem written_decl : Yields decl fun d => d.Spelled ∧ (d.Placed → d.Written) := by
  apply yields_firstOf
  refine ⟨?_, ?_, ?_⟩
  · exact (written_typeDecl.mono fun _ _ _ found => ⟨found.1, fun _ => found.2⟩)
  · exact .rule (yields_after fun _ => yields_name.bind fun _ ident => yields_after fun _ =>
      Yields.bind written_ty fun _ written => yields_pure ⟨ident, fun _ => ⟨ident, written⟩⟩)
  · have both := spelled_function.and (.mono finds_function fun _ _ _ found => found.1)
    exact .bind both fun d found => yields_pure found

/-- A function that ends in an open type has no word behind it, and a declaration starts with one. -/
theorem finds_decl : Finds decl fun c d c' => ¬ Wordless c ∧
    (d.isFunction = true → d.isOpen = true → Wordless c') := by
  have starts {α : Type} {w : String} {f : Unit → Rule α} (word : isIdent w = true) :
      Finds (rule (symbol w >>= f)) fun c _ _ => ¬ Wordless c := by
    apply Finds.rule
    refine .bind finds_symbol fun _ => .mono finds_any fun _ _ _ _ c start wordless => ?_
    obtain ⟨rest, text, -⟩ := start
    exact wordless.absurd_start word ⟨rest, text.symm⟩
  have other {p : Rule Decl} (begins : Finds p fun c _ _ => ¬ Wordless c) (yields : Yields p fun d =>
    d.isFunction = false) :
      Finds p fun c d c' => ¬ Wordless c ∧ (d.isFunction = true → d.isOpen = true → Wordless c') :=
    (begins.and yields).mono fun _ _ _ found =>
      ⟨found.1, fun function => absurd (found.2.symm.trans function) (by decide)⟩
  have begins : Finds function fun c _ _ => ¬ Wordless c := starts (by decide)
  apply finds_firstOf
  refine ⟨other (starts (by decide)) ?_, other (starts (by decide)) ?_, ?_⟩
  · exact .rule (yields_after fun _ => yields_after fun _ => yields_after fun _ =>
      yields_after fun _ => yields_pure rfl)
  · exact .rule (yields_after fun _ => yields_after fun _ => yields_after fun _ =>
      yields_after fun _ => yields_pure rfl)
  · exact (begins.and finds_function).bind fun d => finds_pure fun _ _ found => ⟨found.1, fun _ => found.2.2⟩

/-- Of the functions of a text only the last declaration can end in an open type. -/
theorem closed_of_trail {c c' : Cursor} {ds : List Decl}
    (trail : Trail (fun c r c' => ∀ d, r = .ok d →
      ¬ Wordless c ∧ (d.isFunction = true → d.isOpen = true → Wordless c')) c
        (ds.map (Except.ok (ε := NumeralFault))) c') :
    ∀ d ∈ ds.dropLast, d.isFunction = true → d.isOpen = false := by
  induction ds generalizing c with
  | nil => simp
  | cons d ds ih =>
    cases ds with
    | nil => simp
    | cons e es =>
      rw [dropLast_cons_cons, forall_mem_cons]
      cases trail with
      | cons item rest =>
        refine ⟨fun function => ?_, ih rest⟩
        cases rest with
        | cons next _ =>
          rw [← Bool.not_eq_true]
          exact fun isOpen => (next e rfl).1 ((item d rfl).2 function isOpen)

end Grammar

/-! ### Programs -/

theorem mem_dropLast_of_filter {α : Type} {P : α → Bool} {a : α} {as : List α}
    (member : a ∈ (as.filter P).dropLast) : a ∈ as.dropLast := by
  induction as with
  | nil => exact absurd member (by simp)
  | cons b bs ih =>
    cases bs with
    | nil => cases holds : P b <;> simp [holds] at member
    | cons c cs =>
      rw [dropLast_cons_cons, mem_cons]
      rw [filter_cons] at member
      split at member
      · cases rest : (c :: cs).filter P with
        | nil => simp [rest] at member
        | cons x xs =>
          rw [rest, dropLast_cons_cons, mem_cons, ← rest] at member
          exact member.imp_right ih
      · exact .inr (ih member)

theorem sealed_of {ds : List Decl} (written : ∀ d ∈ ds, d.Written)
    (closed : ∀ d ∈ ds.dropLast, d.isOpen = false) : Sealed ds := by
  induction ds with
  | nil => trivial
  | cons d ds ih =>
    rw [forall_mem_cons] at written
    cases ds with
    | nil => exact ⟨written.1, fun _ => rfl, trivial⟩
    | cons e es =>
      rw [dropLast_cons_cons, forall_mem_cons] at closed
      refine ⟨written.1, fun isOpen => ?_, ih written.2 closed.2⟩
      rw [closed.1] at isOpen
      exact absurd isOpen (by decide)

namespace Program

/-- No type and no global ends in an open type, unless it is the last declaration of the printed text. -/
def Closed (p : Program) : Prop := ∀ d ∈ p.decls.dropLast, d.isFunction = false → d.isOpen = false

def Placed (p : Program) : Prop := ∀ f ∈ p.functions, f.draft.Placed

instance (i : Instr) : Decidable i.Placed := inferInstanceAs (Decidable (∀ p ∈ i.pos, p.file ≠ ""))

instance (d : Draft) : Decidable d.Placed :=
  inferInstanceAs (Decidable (∀ b ∈ d.blocks, ∀ i ∈ b.instrs, i.Placed))

instance (p : Program) : Decidable p.Closed :=
  inferInstanceAs (Decidable (∀ d ∈ p.decls.dropLast, d.isFunction = false → d.isOpen = false))

instance (p : Program) : Decidable p.Placed := inferInstanceAs (Decidable (∀ f ∈ p.functions, f.draft.Placed))

/-- The declarations made so far can be written down and read again. -/
structure Gathered (p : Program) : Prop where
  each : ∀ d ∈ p.decls, d.Spelled ∧ (d.Placed → d.Written)
  assembled : p.Assembled

theorem mem_decls_of_declare {p p' : Program} {decl d : Decl} (done : p.declare decl = .ok p')
    (member : d ∈ p'.decls) : d = decl ∨ d ∈ p.decls := by
  cases decl with
  | type name decl =>
    obtain rfl := Except.ok.inj done
    simp only [decls, mem_append, mem_map] at member ⊢
    rcases member with (⟨e, declared, rfl⟩ | other) | other
    · rcases Dict.mem_put declared with rfl | old
      · exact .inl rfl
      · exact .inr (.inl (.inl ⟨e, old, rfl⟩))
    · exact .inr (.inl (.inr other))
    · exact .inr (.inr other)
  | global g =>
    simp only [Program.declare, Program.addGlobal] at done
    split at done
    · exact absurd done (by simp)
    · obtain rfl := Except.ok.inj done
      simp only [decls, map_append, mem_append, map_singleton, mem_singleton] at member ⊢
      tauto
  | function draft =>
    obtain ⟨-, rfl⟩ := addFunction_eq_ok.1 done
    simp only [decls, map_append, mem_append, map_singleton, mem_singleton,
      draft.draft_linked] at member ⊢
    tauto

theorem Assembled.declare {p p' : Program} {decl : Decl} (assembled : p.Assembled) (done : p.declare decl = .ok p') :
    p'.Assembled := by
  cases decl with
  | type name decl =>
    obtain rfl := Except.ok.inj done
    exact ⟨assembled.globals, assembled.functions, assembled.linked⟩
  | global g =>
    simp only [Program.declare, Program.addGlobal] at done
    split at done
    · exact absurd done (by simp)
    · next fresh =>
      obtain rfl := Except.ok.inj done
      have other : ∀ g' ∈ p.globals, g'.name ≠ g.name := by simpa [global?] using fresh
      refine ⟨?_, assembled.functions, assembled.linked⟩
      rw [map_append, map_singleton, nodup_append]
      refine ⟨assembled.globals, by simp, ?_⟩
      simpa using other
  | function draft =>
    obtain ⟨⟨fresh, sound⟩, rfl⟩ := addFunction_eq_ok.1 done
    refine ⟨assembled.globals, ?_, fun f' member => ?_⟩
    · have other : ∀ f' ∈ p.functions, f'.name ≠ draft.name := by simpa [function?] using fresh
      rw [map_append, map_singleton, nodup_append]
      refine ⟨assembled.functions, by simp, ?_⟩
      simpa [Draft.linked] using other
    · rcases mem_append.1 member with old | new
      · exact assembled.linked f' old
      · obtain rfl := mem_singleton.1 new
        exact ⟨draft, Draft.link_eq_ok.2 ⟨sound, rfl⟩⟩

theorem Gathered.declare {p p' : Program} {decl : Decl} (gathered : p.Gathered)
    (found : decl.Spelled ∧ (decl.Placed → decl.Written)) (done : p.declare decl = .ok p') : p'.Gathered := by
  refine ⟨fun d member => ?_, Assembled.declare gathered.assembled done⟩
  rcases mem_decls_of_declare done member with rfl | old
  · exact found
  · exact gathered.each d old

theorem functions_of_declare {p p' : Program} {decl : Decl} (done : p.declare decl = .ok p') :
    p'.functions.map (Decl.function ·.draft) =
      p.functions.map (Decl.function ·.draft) ++ [decl].filter Decl.isFunction := by
  cases decl with
  | type name decl =>
    obtain rfl := Except.ok.inj done
    simp [Decl.isFunction]
  | global g =>
    simp only [Program.declare, Program.addGlobal] at done
    split at done
    · exact absurd done (by simp)
    · obtain rfl := Except.ok.inj done
      simp [Decl.isFunction]
  | function draft =>
    obtain ⟨-, rfl⟩ := addFunction_eq_ok.1 done
    rw [map_append, map_singleton, draft.draft_linked]
    rfl

theorem Gathered.declareAll {p q : Program} {decls : List (Except NumeralFault Decl)} (gathered : p.Gathered)
    (written : ∀ item ∈ decls, ∀ decl, item = .ok decl → decl.Spelled ∧ (decl.Placed → decl.Written))
    (done : (p.declareAll decls).result = .ok q) : q.Gathered := by
  induction decls generalizing p with
  | nil =>
    obtain rfl := Except.ok.inj done
    exact gathered
  | cons item rest ih =>
    rw [forall_mem_cons] at written
    cases item with
    | error fault => exact absurd done (by simp [Program.declareAll])
    | ok decl =>
      rw [Program.declareAll] at done
      split at done
      · exact absurd done (by simp)
      · next p' here => exact ih (gathered.declare (written.1 decl rfl) here) written.2 done

/-- The functions of a program come in the order of their declarations. -/
theorem functions_of_declareAll {p q : Program} {items : List (Except NumeralFault Decl)}
    (done : (p.declareAll items).result = .ok q) : ∃ ds : List Decl, items = ds.map .ok ∧
      q.functions.map (Decl.function ·.draft) = p.functions.map (Decl.function ·.draft) ++
        ds.filter Decl.isFunction := by
  induction items generalizing p with
  | nil =>
    obtain rfl := Except.ok.inj done
    exact ⟨[], rfl, by simp⟩
  | cons item rest ih =>
    cases item with
    | error fault => exact absurd done (by simp [Program.declareAll])
    | ok decl =>
      rw [Program.declareAll] at done
      split at done
      · exact absurd done (by simp)
      · next p' here =>
        obtain ⟨ds, rfl, functions⟩ := ih done
        refine ⟨decl :: ds, rfl, ?_⟩
        rw [functions, functions_of_declare here, append_assoc, ← filter_append, singleton_append]

/-- A function that ends in an open type is the last declaration of its text, and so the last function. -/
theorem closed_of_functions {p : Program} {ds : List Decl} (closed : p.Closed)
    (last : ∀ d ∈ ds.dropLast, d.isFunction = true → d.isOpen = false)
    (functions : p.functions.map (Decl.function ·.draft) = ds.filter Decl.isFunction) :
    ∀ d ∈ p.decls.dropLast, d.isOpen = false := by
  intro d member
  cases function : d.isFunction with
  | false => exact closed d member function
  | true =>
    refine last d ?_ function
    have outside : d ∉ p.types.decls.entries.map (fun d => Decl.type d.1 d.2) ++ p.globals.map .global := by
      intro declared
      simp only [mem_append, mem_map] at declared
      rcases declared with ⟨e, -, rfl⟩ | ⟨g, -, rfl⟩
      · exact absurd function (by simp [Decl.isFunction])
      · exact absurd function (by simp [Decl.isFunction])
    apply mem_dropLast_of_filter
    rw [decls, functions, dropLast_append] at member
    split at member
    · exact absurd ((dropLast_sublist _).subset member) outside
    · exact (mem_append.1 member).resolve_left outside

theorem gathered_of_read {text : String} {p : Program} (found : (Program.read text).result = .ok p) :
    p.Gathered ∧ (p.Closed → ∀ d ∈ p.decls.dropLast, d.isOpen = false) := by
  have items :
    Yields (many (checked Grammar.decl) : Parser NumeralFault (List (Except NumeralFault Decl))) (fun items =>
      ∀ ds : List Decl, items = ds.map .ok → ∀ d ∈ ds.dropLast, d.isFunction = true →
        d.isOpen = false) False := by
    refine Grammar.finds_decl.checked.many.mono fun _ _ _ trail ds eq => ?_
    rw [eq] at trail
    exact Grammar.closed_of_trail trail
  have yields : Yields Grammar.program (fun items =>
      (∀ item ∈ items, ∀ decl, item = .ok decl → Decl.Spelled decl ∧
        (Decl.Placed decl → Decl.Written decl)) ∧
        ∀ ds : List Decl, items = ds.map .ok → ∀ d ∈ ds.dropLast, d.isFunction = true →
          d.isOpen = false) False := by
    have both := (Yields.many (Yields.checked Grammar.written_decl)).and items
    exact .rule (yields_after fun _ => Yields.bind both fun items all => yields_after fun _ => yields_pure all)
  unfold Program.read at found
  split at found
  · exact absurd found (by simp)
  · next m run =>
    have empty : Gathered {} := ⟨nofun, nodup_nil, nodup_nil, nofun⟩
    have good := yields.run run
    obtain ⟨ds, value, functions⟩ := functions_of_declareAll found
    exact ⟨empty.declareAll good.1 found, fun closed => closed_of_functions closed (good.2 ds value) functions⟩

theorem Gathered.written {p : Program} (gathered : p.Gathered) (placed : p.Placed) : ∀ d ∈ p.decls, d.Written := by
  intro d member
  refine (gathered.each d member).2 ?_
  simp only [decls, mem_append, mem_map] at member
  rcases member with (⟨e, -, rfl⟩ | ⟨g, -, rfl⟩) | ⟨f, declared, rfl⟩
  · trivial
  · trivial
  · exact placed f declared

theorem mem_of_method {t : TypeTable} {ty : Ty} {method routine : String}
    (found : t.method ty method = some routine) : ∃ e ∈ t.decls.entries, e.2.methods.get? method =
    some routine := by
  fun_induction TypeTable.method t ty method with
  | case1 elem ih => exact ih found
  | case2 name =>
    obtain ⟨decl, declared, found⟩ := Option.bind_eq_some_iff.1 found
    exact ⟨(name, decl), Table.mem_of_find declared, found⟩
  | case3 => exact nomatch found

/-- A program read from text is spelled as text is. -/
theorem spelled_of_read {text : String} {p : Program} (found : (Program.read text).result = .ok p) : p.Spelled := by
  have each (d : Decl) (member : d ∈ p.decls) : d.Spelled := ((gathered_of_read found).1.each d member).1
  simp only [decls, mem_append, mem_map] at each
  refine ⟨fun g member => each _ (.inl (.inr ⟨g, member, rfl⟩)), fun f member => ?_,
    fun ty method routine named => ?_⟩
  · have spelled : f.draft.Spelled := each _ (.inr ⟨f, member, rfl⟩)
    exact ⟨spelled.toSpelled, fun b member => spelled.instrs _ (mem_map_of_mem member)⟩
  · obtain ⟨e, member, here⟩ := mem_of_method named
    exact each _ (.inl (.inl ⟨e, member, rfl⟩)) method routine here

/-- Reading the printed text of a program that was read gives the program again, if no type or global
that something follows ends in an open type and every position names a file. -/
theorem read_printed {text : String} {p : Program} (reads : (Program.read text).result = .ok p) (closed : p.Closed)
    (placed : p.Placed) : (Program.read p.render).result = .ok p := by
  obtain ⟨gathered, last⟩ := gathered_of_read reads
  have sealed := sealed_of (gathered.written placed) (last closed)
  obtain ⟨m, run, value⟩ := Grammar.run_decls sealed p.toList_render
  have taken : Program.read p.render = declareAll {} m.value := by
    unfold Program.read
    rw [run]
  rw [taken, value]
  exact declareAll_decls gathered.assembled

/-- A type that moves to the front of the printed text, and an open type at its end. -/
def relayed : String := "func main.main()
block 0:
  ch: chan int = makechan 1 ; main.go:4:2
  return
type Box struct\x7bchan\x7d \x7b Get = main.get \x7d
func main.get() -> chan
"

theorem relayed_read_again : ∃ p, (Program.read relayed).result = .ok p ∧ p.Closed ∧ p.Placed ∧
    (Program.read p.render).result = .ok p := by
  have read : (Program.read relayed).result.toOption.any (fun p => decide (p.Closed ∧ p.Placed)) := by decide +kernel
  cases result : (Program.read relayed).result with
  | error e => simp [result, Except.toOption] at read
  | ok p =>
    have good : p.Closed ∧ p.Placed := by simpa [result, Except.toOption] using read
    exact ⟨p, rfl, good.1, good.2, read_printed result good.1 good.2⟩

/-- A type declared last moves to the front of the printed text, where its `chan` takes the next word
for its elements. -/
def swallowing : String := "func main.main()
type T chan
"

/-- The file of the position is cut down to nothing. -/
def unplaced : String := "func main.main()
block 0:
  return ; \u00a0:1:2
"

theorem rejected_of_any {text : String} (rejected : (Program.read text).result.toOption.any fun p =>
    !(Program.read p.render).result.toOption.isSome) :
    ∃ p, (Program.read text).result = .ok p ∧ ∀ q, (Program.read p.render).result ≠ .ok q := by
  cases result : (Program.read text).result with
  | error e => simp [result, Except.toOption] at rejected
  | ok p =>
    refine ⟨p, rfl, fun q again => ?_⟩
    simp [result, again, Except.toOption] at rejected

theorem printed_text_rejected :
    (∃ p, (Program.read swallowing).result = .ok p ∧ ∀ q, (Program.read p.render).result ≠ .ok q) ∧
    ∃ p, (Program.read unplaced).result = .ok p ∧ ∀ q, (Program.read p.render).result ≠ .ok q :=
  ⟨rejected_of_any (by decide +kernel), rejected_of_any (by decide +kernel)⟩

end Program

end ChanFlow.Ssa
