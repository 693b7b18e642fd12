import ChanFlow.Proofs.Listing

/-!
Declarations and whole programs, read back.

Where a declaration ends in an open type, the word that the next declaration starts with would be taken
for the rest of that type. `Sealed` says that this happens nowhere.
-/
open List

namespace ChanFlow.Dict

variable {β : Type}

theorem put_last {k : String} {v : β} {es : List (String × β)} (below : ∀ e ∈ es, e.1 < k) :
    put k v es = es ++ [(k, v)] := by
  induction es with
  | nil => rfl
  | cons e es ih =>
    rw [forall_mem_cons] at below
    have notLess : ¬ k < e.1 := String.lt_asymm below.1
    have ne : k ≠ e.1 := by
      rintro rfl
      exact String.lt_irrefl _ below.1
    rw [put, if_neg notLess, if_neg ne, ih below.2, cons_append]

/-- Entries that come in order are appended. -/
theorem entries_foldl {es : List (String × β)} {d : Dict β} (ascending : ascendingKeys (d.entries ++ es)) :
    (es.foldl (fun d e => d.insert e.1 e.2) d).entries = d.entries ++ es := by
  induction es generalizing d with
  | nil => simp
  | cons e es ih =>
    have here : (d.insert e.1 e.2).entries = d.entries ++ [e] :=
      put_last fun e' member => (pairwise_append.1 ascending).2.2 e' member e mem_cons_self
    have rest : ascendingKeys ((d.insert e.1 e.2).entries ++ es) := by
      rw [here, append_assoc]
      exact ascending
    rw [foldl_cons, ih rest, here, append_assoc, singleton_append]

theorem ext_entries {d d' : Dict β} (same : d.entries = d'.entries) : d = d' := by
  obtain ⟨es, ascending⟩ := d
  obtain ⟨es', ascending'⟩ := d'
  cases same
  rfl

theorem ofList_entries (d : Dict β) : ofList d.entries = d :=
  ext_entries (entries_foldl (d := {}) d.ascending)

end ChanFlow.Dict

namespace ChanFlow.Ssa

open Text Text.Parser Grammar

variable {α : Type} {bs : List BlockDraft} {d : Draft} {m : String} {e : String × String} {methods : Dict String}
  {es : List (String × String)} {ds : List Decl} {f : Function} {p : Program}

def Draft.render (d : Draft) : String := d.toSignature.render ++ String.join (d.blocks.map (·.render))

def Decl.render : Decl → String
  | .type name decl => renderDecl name decl
  | .global g => g.render
  | .function draft => draft.render

/-- The text of the declaration ends in an open type. -/
def Decl.isOpen : Decl → Bool
  | .type _ decl => decl.methods.entries.isEmpty && decl.underlying.isOpen
  | .global g => g.ty.isOpen
  | .function draft => draft.blocks.isEmpty && (draft.results.map Ty.isOpen).getD false

structure Param.Written (q : Param) : Prop where
  name : isIdent q.name = true
  ty : q.ty.Written

structure Draft.Written (d : Draft) : Prop where
  name : isIdent d.name = true
  params : ∀ q ∈ d.params, q.Written
  freeVars : ∀ q ∈ d.freeVars, q.Written
  results : ∀ t ∈ d.results, t.Written ∧ (t.isOpen = true → d.blocks = [])
  blocks : ∀ b ∈ d.blocks, WrittenBlock b

structure WrittenType (d : TypeDecl) : Prop where
  underlying : d.underlying.Written
  methods : ∀ e ∈ d.methods.entries, isIdent e.1 = true ∧ isIdent e.2 = true

def Decl.Written : Decl → Prop
  | .type name decl => isIdent name = true ∧ WrittenType decl
  | .global g => isIdent g.name = true ∧ g.ty.Written
  | .function draft => draft.Written

/-- Declarations of which only the last may end in an open type. -/
def Sealed : List Decl → Prop
  | [] => True
  | d :: ds => d.Written ∧ (d.isOpen = true → ds = []) ∧ Sealed ds

namespace Grammar

section

variable {k : List Char}

/-! ### Functions -/

theorem takes_param {q : Param} (written : q.Written) (ends : Ty.Ends q.ty.isOpen k) :
    Takes param (q.render.toList ++ k) q k := by
  have text : q.render.toList ++ k = q.name.toList ++ ':' :: ' ' :: (q.ty.render.toList ++ k) := by simp [Param.render]
  rw [text]
  refine .rule ((takes_name written.name (stops_at rfl)).bind (.bind takes_sign ?_))
  exact (takes_ty written.ty ends).after_space.bind takes_pure

theorem takes_params {opening closing : String} {o c : Char} (opens : opening.toList = [o]) (solid : isSolid o = true)
    (closes : closing.toList = [c]) (sign : Ty.isEnd c = true) (other : ',' ≠ c) {qs : List Param}
    (written : ∀ q ∈ qs, q.Written) :
    Takes (list opening closing "," param) (o :: ((renderParams qs).toList ++ c :: k)) qs k := by
  have text : (renderParams qs).toList = [',', ' '].intercalate (qs.map fun q => q.render.toList) := by
    simp [renderParams, Function.comp_def]
  have parts := sign
  simp only [Ty.isEnd, startsTy, Bool.and_eq_true, Bool.not_eq_true', Bool.or_eq_false_iff] at parts
  rw [text]
  refine takes_list ?_ ?_ (Nat.le_refl _) opens solid closes parts.1.1.1 rfl (by decide) other
  · intro q member k' _ head
    exact takes_param (written q member) (Ty.Ends.of_head head (by decide) sign)
  · exact (refuses_name (heads_sign parts.1.2.1.1.1 parts.1.1.1)).bind.rule

theorem boundary_blocks (boundary : Boundary declStarts k) :
    Boundary blockEnds (bs.flatMap (·.render.toList) ++ k) := by
  cases bs with
  | nil => exact boundary.ofDecl
  | cons b bs =>
    obtain ⟨d, cs, eq, digit⟩ := Protocol.Grammar.cons_toDigits b.index
    have text : ∃ rest, (b :: bs).flatMap (·.render.toList) ++ k = "block".toList ++ (' ' :: d :: rest) := by
      refine ⟨cs ++ (((b.tag.map (" " ++ ·)).getD "" ++ ":\n" ++
        String.join (b.instrs.map fun i => "  " ++ i.render ++ "\n")).toList ++
          (bs.flatMap (·.render.toList) ++ k)), ?_⟩
      rw [flatMap_cons, BlockDraft.render]
      simp only [String.toList_append, toList_toString, eq, append_assoc]
      rfl
    obtain ⟨rest, text⟩ := text
    refine .inr ⟨"block", ' ' :: d :: rest, by decide, by decide, ?_, (stops_at rfl), ?_⟩
    · rw [text, skipped_ident (by decide)]
    · refine Heads.after_space (heads_sign ?_ (Protocol.Grammar.isSolid_of_isDigit digit))
      rintro rfl
      exact absurd digit (by decide)

theorem chain_blocks (written : ∀ b ∈ bs, WrittenBlock b) (boundary : Boundary declStarts k) :
    Chain block (bs.flatMap (·.render.toList) ++ k) bs k := by
  induction bs with
  | nil =>
    refine .done (boundary.opens.refuses (.rule (.bind (refuses_symbol rfl))) ?_)
    intro w rest ident member stops
    simp only [declStarts, mem_cons, not_mem_nil, or_false] at member
    rcases member with rfl | rfl | rfl <;> exact refuses_led stops
  | cons b bs ih =>
    rw [forall_mem_cons] at written
    rw [flatMap_cons, append_assoc]
    refine .item (bs.flatMap (·.render.toList) ++ k) (takes_block written.1 (boundary_blocks boundary))
      ?_ (ih written.2)
    have text : ∃ cs, b.render.toList = 'b' :: cs :=
      ⟨_, by rw [BlockDraft.render]; simp only [String.toList_append]; rfl⟩
    obtain ⟨cs, text⟩ := text
    rw [text]
    exact length_skipped_lt (by decide) cs _

/-- What follows the text of an open type is nothing at all. -/
theorem ends_line {t : Ty} {P : String → Prop} (opens : Opens P k) (last : t.isOpen = true → skipped k = []) :
    Ty.Ends t.isOpen ('\n' :: k) := by
  cases isOpen : t.isOpen with
  | false =>
    exact Ty.ends_of_word (stops_at rfl) opens.newline.head
  | true =>
    apply Ty.ends_of_head (stops_at rfl)
    simp [Heads, skipped_newline, last isOpen]

/-- A function is read back from its text. -/
theorem takes_function (written : d.Written) (boundary : Boundary declStarts k)
    (last : (Decl.function d).isOpen = true → skipped k = []) : Takes function (d.render.toList ++ k) d k := by
  obtain ⟨⟨name, params, freeVars, results⟩, blocks⟩ := d
  have bounds : Boundary blockEnds (blocks.flatMap (·.render.toList) ++ k) := boundary_blocks boundary
  have inner : Takes (do return { name, params, freeVars, results, blocks := ← many block } : Rule Draft)
      ('\n' :: (blocks.flatMap (·.render.toList) ++ k)) ⟨⟨name, params, freeVars, results⟩, blocks⟩ k :=
    (Takes.after_newline (chain_blocks written.blocks boundary).many).bind takes_pure
  have blocksText : (String.join (blocks.map (·.render))).toList = blocks.flatMap (·.render.toList) := by
    simp [flatMap_map]
  -- The results, and behind them the blocks.
  have returned : Takes (do
      let results ← opt (rule do symbol "->"; ty)
      return { name, params, freeVars, results, blocks := ← many block } : Rule Draft)
      ((((results.map (" -> " ++ ·.render)).getD "").toList ++ '\n' :: (blocks.flatMap (·.render.toList) ++ k)))
      ⟨⟨name, params, freeVars, results⟩, blocks⟩ k := by
    cases results with
    | none =>
      refine Takes.bind (Refuses.opt (Refuses.rule (Refuses.bind ?_))) inner
      exact refuses_symbol_head (c := '-') rfl (bounds.opens.newline.ne (by decide))
    | some t =>
      have text : ((Option.map (fun t : Ty => " -> " ++ t.render) (some t)).getD "").toList ++
          '\n' :: (blocks.flatMap (·.render.toList) ++ k) =
          ' ' :: '-' :: '>' :: ' ' :: (t.render.toList ++ '\n' :: (blocks.flatMap (·.render.toList) ++ k)) := by simp
      obtain ⟨writtenTy, alone⟩ := written.results t rfl
      have ends : Ty.Ends t.isOpen ('\n' :: (blocks.flatMap (·.render.toList) ++ k)) := by
        refine ends_line bounds.opens fun isOpen => ?_
        obtain rfl : blocks = [] := alone isOpen
        exact last (by simp [Decl.isOpen, isOpen])
      have arrow (cs : List Char) : Takes (symbol "->" : Rule Unit) ('-' :: '>' :: cs) () cs :=
        takes_symbol (s := "->") rfl rfl
      rw [text]
      refine .bind (.after_space (.opt (.rule ((arrow _).bind ?_)))) inner
      exact (takes_ty writtenTy ends).after_space
  have given : Takes (do
      let params ← rule (list "(" ")" "," param)
      let results ← opt (rule do symbol "->"; ty)
      return { name, params, freeVars, results, blocks := ← many block } : Rule Draft)
      ('(' :: ((renderParams params).toList ++ ')' :: (((results.map (" -> " ++ ·.render)).getD "").toList ++
        '\n' :: (blocks.flatMap (·.render.toList) ++ k)))) ⟨⟨name, params, freeVars, results⟩, blocks⟩ k :=
    Takes.bind (takes_params rfl (by decide) rfl (by decide) (by decide) written.params).rule returned
  apply Takes.rule
  cases freeVars with
  | nil =>
    have text : (Draft.render ⟨⟨name, params, [], results⟩, blocks⟩).toList ++ k = "func".toList ++
      ' ' :: (name.toList ++
        '(' :: ((renderParams params).toList ++ ')' :: (((results.map (" -> " ++ ·.render)).getD "").toList ++
        '\n' :: (blocks.flatMap (·.render.toList) ++ k)))) := by
      simp [Draft.render, Signature.render, blocksText]
    rw [text]
    refine (takes_word (by decide)).bind ((takes_name written.name (stops_at rfl)).after_space.bind ?_)
    exact Takes.bind (Refuses.opt (Refuses.rule (refuses_list (o := '[') rfl (heads_sign (by decide))))) given
  | cons q qs =>
    have text : (Draft.render ⟨⟨name, params, q :: qs, results⟩, blocks⟩).toList ++ k = "func".toList ++ ' ' ::
        (name.toList ++ '[' :: ((renderParams (q :: qs)).toList ++ ']' :: '(' :: ((renderParams params).toList ++
        ')' :: (((results.map (" -> " ++ ·.render)).getD "").toList ++
        '\n' :: (blocks.flatMap (·.render.toList) ++ k))))) := by
      simp [Draft.render, Signature.render, blocksText]
    rw [text]
    refine (takes_word (by decide)).bind ((takes_name written.name (stops_at rfl)).after_space.bind ?_)
    refine .bind (.opt (.rule (takes_params rfl (by decide) rfl (by decide) (by decide) written.freeVars))) ?_
    exact given

/-! ### Types and globals -/

/-- Where the word of a method stands, some type is found, and it ends before the sign behind the word. -/
theorem takes_some (ident : isIdent m = true) (n : Nat) :
    ∃ t, Takes (tyWithin (n + 1)) (m.toList ++ ' ' :: '=' :: k) t (' ' :: '=' :: k) := by
  have ends (isOpen : Bool) : Ty.Ends isOpen (' ' :: '=' :: k) :=
    Ty.ends_of_head (stops_at rfl) (Heads.after_space (heads_sign (by decide)))
  cases basic : isBasicName m.toList with
  | true => exact ⟨_, Ty.takes_basic ident basic (stops_at rfl)⟩
  | false =>
    by_cases func : m = "func"
    · subst func
      have stops : Stops isWordChar (' ' :: '=' :: k) := stops_at rfl
      refine ⟨.func, .rule ?_⟩
      refine .later ?_ (Ty.refuses_otherWord stops ident)
      iterate 2 refine .later ?_ (Ty.refuses_bracket ident)
      refine .later ?_ (Ty.refuses_otherWord stops ident)
      refine .later ?_ (Ty.refuses_star ident)
      iterate 2 refine .later ?_ (Ty.refuses_otherWord stops ident)
      exact .here ((takes_keyword stops ident).bind takes_pure)
    · exact ⟨_, Ty.takes_named ident basic func (ends _)⟩

/-- The methods of a type are not taken for fields or method names of the type itself. -/
theorem refuses_entries {item : Rule α} (ident : isIdent m = true)
    (found : Refuses item (m.toList ++ ' ' :: '=' :: k) ∨ ∃ a, Takes item (m.toList ++ ' ' :: '=' :: k)
      a (' ' :: '=' :: k)) :
    Refuses (list "\x7b" "\x7d" ";" item) (' ' :: '\x7b' :: ' ' :: (m.toList ++ ' ' :: '=' :: k)) := by
  have equals (s : String) (c : Char) (written : s.toList.head? = some c) (other : '=' ≠ c) :
      Refuses (symbol s : Rule Unit) (' ' :: '=' :: k) :=
    refuses_symbol_head written (Heads.after_space (heads_sign other))
  refine Takes.refuses (.after_space takes_sign) ?_
  rcases found with refused | ⟨a, takes⟩
  · refine (Takes.after_space (Refuses.orElse refused.bind takes_pure)).refuses (Refuses.bind ?_)
    exact refuses_symbol_head (c := '\x7d') rfl (head_ne ident (by decide))
  · have one : Takes (sepBy item (symbol ";")) (m.toList ++ ' ' :: '=' :: k) [a] (' ' :: '=' :: k) :=
      Takes.orElse (takes.sepBy1 (Chain.done (Refuses.bind (equals ";" ';' rfl (by decide)))))
    exact one.after_space.refuses (.bind (equals "\x7d" '\x7d' rfl (by decide)))

theorem takes_methodEntry (written : isIdent e.1 = true ∧ isIdent e.2 = true)
    (stops : Stops isWordChar k) : Takes methodEntry ((e.1 ++ " = " ++ e.2).toList ++ k) e k := by
  have text : (e.1 ++ " = " ++ e.2).toList ++ k = e.1.toList ++ ' ' :: '=' :: ' ' :: (e.2.toList ++ k) := by simp
  rw [text]
  refine .rule ((takes_name written.1 (stops_at rfl)).bind (.bind (.after_space takes_sign) ?_))
  exact (takes_name written.2 stops).after_space.bind takes_pure

/-- The text of the methods of a type, where there are some. -/
theorem renderMethods_cons (entries : methods.entries = e :: es) (k : List Char) :
    (renderMethods methods).toList ++ k = ' ' :: '\x7b' :: ' ' ::
      ([',', ' '].intercalate ((e :: es).map fun e => (e.1 ++ " = " ++ e.2).toList) ++ ' ' :: '\x7d' :: k) := by
  have items : (", ".intercalate ((e :: es).map fun m => m.1 ++ " = " ++ m.2)).toList =
      [',', ' '].intercalate ((e :: es).map fun e => (e.1 ++ " = " ++ e.2).toList) := by
    rw [String.toList_intercalate, map_map]
    rfl
  rw [renderMethods, entries, isEmpty_cons, if_neg (by decide), String.toList_append, String.toList_append, items]
  generalize [',', ' '].intercalate ((e :: es).map fun e => (e.1 ++ " = " ++ e.2).toList) = text
  simp

theorem ends_methods {isOpen : Bool} (entries : methods.entries = e :: es) (ident : isIdent e.1 = true)
    (k : List Char) : Ty.Ends isOpen ((renderMethods methods).toList ++ k) := by
  have text : ∃ rest, (renderMethods methods).toList ++ k =
      ' ' :: '\x7b' :: ' ' :: (e.1.toList ++ ' ' :: '=' :: rest) := by
    refine ⟨' ' :: (e.2.toList ++ (es.map fun e => (e.1 ++ " = " ++ e.2).toList).flatMap ([',', ' '] ++ ·) ++
      ' ' :: '\x7d' :: k), ?_⟩
    rw [renderMethods_cons entries, map_cons, Protocol.Grammar.intercalate_cons]
    simp
  obtain ⟨rest, text⟩ := text
  have head {kind : Char → Prop} (holds : kind '\x7b') :
      Heads kind (' ' :: '\x7b' :: ' ' :: (e.1.toList ++ ' ' :: '=' :: rest)) := Heads.after_space (heads_sign holds)
  rw [text]
  refine ⟨stops_at rfl, head (by decide), fun n => ?_, ?_, fun _ n => refuses_tyWithin (head (by decide)) n⟩
  · cases n with
    | zero => exact refuses_entries ident (.inl fun _ => rfl)
    | succ n => exact refuses_entries ident (.inr (takes_some ident n))
  · exact refuses_entries ident (.inr ⟨e.1, takes_name ident (stops_at rfl)⟩)

theorem takes_typeDecl {n : String} {d : TypeDecl} (ident : isIdent n = true) (written : WrittenType d)
    (boundary : Boundary declStarts k) (last : (Decl.type n d).isOpen = true → skipped k = []) :
    Takes typeDecl ((renderDecl n d).toList ++ k) (.type n d) k := by
  obtain ⟨underlying, methods⟩ := d
  have text : (renderDecl n ⟨underlying, methods⟩).toList ++ k = "type".toList ++ ' ' :: (n.toList ++ ' ' ::
      (underlying.render.toList ++ ((renderMethods methods).toList ++ '\n' :: k))) := by simp [renderDecl]
  have same : Dict.ofList methods.entries = methods := Dict.ofList_entries methods
  rw [text]
  apply Takes.rule
  refine (takes_word (by decide)).bind ((takes_name ident (stops_at rfl)).after_space.bind ?_)
  cases entries : methods.entries with
  | nil =>
    have blank : (renderMethods methods).toList ++ '\n' :: k = '\n' :: k := by simp [renderMethods, entries]
    have ends : Ty.Ends underlying.isOpen ('\n' :: k) :=
      ends_line boundary.opens fun isOpen => last (by simp [Decl.isOpen, entries, isOpen])
    have value : Dict.ofList ((none : Option (List (String × String))).getD []) = methods := by
      rw [← same, entries]
      rfl
    rw [blank]
    refine (takes_ty written.underlying ends).after_space.bind ?_
    have unwritten : Refuses (rule (list "\x7b" "\x7d" "," methodEntry)) ('\n' :: k) :=
      Refuses.rule (refuses_list (o := '\x7b') rfl (boundary.opens.newline.ne (by decide)))
    refine Takes.bind (Refuses.opt unwritten) ?_
    rw [value]
    exact takes_pure.congr (skipped_newline k) rfl
  | cons e es =>
    have first : isIdent e.1 = true := (written.methods e (by rw [entries]; exact mem_cons_self)).1
    refine (takes_ty written.underlying (ends_methods entries first _)).after_space.bind ?_
    rw [renderMethods_cons entries]
    have closing : Takes (symbol "\x7d" : Rule Unit) (' ' :: '\x7d' :: '\n' :: k) () k :=
      Takes.congr (.after_space takes_sign) rfl (skipped_newline k).symm
    have items : Takes (sepBy methodEntry (symbol ",")) ([',', ' '].intercalate
        ((e :: es).map fun e => (e.1 ++ " = " ++ e.2).toList) ++ ' ' :: '\x7d' :: '\n' :: k) (e :: es)
        (' ' :: '\x7d' :: '\n' :: k) := by
      refine .orElse (takes_sepBy1 (s := ',') rfl (by decide) ?_ ?_ (Nat.le_refl _))
      · exact refuses_symbol_head (c := ',') rfl (Heads.after_space (heads_sign (by decide)))
      · intro e' member k' _ head
        refine takes_methodEntry (written.methods e' (by rw [entries]; exact member)) ?_
        rcases head with rfl | head
        · exact stops_at rfl
        · exact (Ty.Ends.of_head (o := true) (c := ',') (d := ',') (.inl head)).stops
    have whole :
      Takes (opt (rule (list "\x7b" "\x7d" "," methodEntry))) (' ' :: '\x7b' :: ' ' :: ([',', ' '].intercalate
        ((e :: es).map fun e => (e.1 ++ " = " ++ e.2).toList) ++ ' ' :: '\x7d' :: '\n' :: k)) (some (e :: es)) k :=
      Takes.opt (.rule (.bind (.after_space takes_sign) (items.after_space.bind (closing.bind takes_pure))))
    refine whole.bind ?_
    rw [Option.getD_some, ← entries, same]
    exact takes_pure

theorem takes_global {g : Global} (written : isIdent g.name = true ∧ g.ty.Written) (boundary : Boundary declStarts k)
    (last : g.ty.isOpen = true → skipped k = []) : Takes global (g.render.toList ++ k) (.global g) k := by
  have text : g.render.toList ++ k = "global".toList ++ ' ' :: (g.name.toList ++ ':' :: ' ' ::
      (g.ty.render.toList ++ '\n' :: k)) := by simp [Global.render]
  rw [text]
  refine .rule ((takes_word (by decide)).bind ?_)
  refine (takes_name written.1 (stops_at rfl)).after_space.bind (.bind takes_sign ?_)
  refine (takes_ty written.2 (ends_line boundary.opens last)).after_space.bind ?_
  exact takes_pure.congr (skipped_newline k) rfl

/-! ### Programs -/

/-- A declaration starts with its word and a name. -/
theorem word_render {d : Decl} (written : d.Written) : ∃ w n rest, w ∈ declStarts ∧ isIdent w = true ∧
    isIdent n = true ∧ d.render.toList = w.toList ++ ' ' :: (n.toList ++ rest) := by
  cases d with
  | type n d =>
    refine ⟨"type", n, (" " ++ d.underlying.render ++ renderMethods d.methods ++ "\n").toList, by decide, by decide,
      written.1, ?_⟩
    rw [Decl.render, renderDecl]
    simp only [String.toList_append, append_assoc]
    rfl
  | global g =>
    refine ⟨"global", g.name, (": " ++ g.ty.render ++ "\n").toList, by decide, by decide, written.1, ?_⟩
    rw [Decl.render, Global.render]
    simp only [String.toList_append, append_assoc]
    rfl
  | function d =>
    refine ⟨"func", d.name, ((if d.freeVars.isEmpty then "" else "[" ++ renderParams d.freeVars ++ "]") ++
      "(" ++ renderParams d.params ++ ")" ++ (d.results.map (" -> " ++ ·.render)).getD "" ++ "\n" ++
      String.join (d.blocks.map (·.render))).toList, by decide, by decide, written.name, ?_⟩
    rw [Decl.render, Draft.render, Signature.render]
    simp only [String.toList_append, append_assoc]
    rfl

/-- A declaration is read back from its text. -/
theorem takes_decl {d : Decl} (written : d.Written) (boundary : Boundary declStarts k)
    (last : d.isOpen = true → skipped k = []) : Takes decl (d.render.toList ++ k) d k := by
  have led {w v : String} {α : Type} {f : Unit → Rule α} {rest : List Char}
    (text : d.render.toList = v.toList ++ ' ' :: rest)
      (other : (isIdent w && isIdent v && !w.toList.isPrefixOf v.toList) = true) :
      Refuses (rule (symbol w >>= f)) (d.render.toList ++ k) := by
    rw [text, append_assoc]
    exact refuses_led (stops_at rfl) other
  cases d with
  | type n d => exact .here (takes_typeDecl written.1 written.2 boundary last)
  | global g =>
    refine .later (.here (takes_global written boundary last)) ?_
    exact led (v := "global")
      (by rw [Decl.render, Global.render]; simp only [String.toList_append, append_assoc]; rfl) (by decide)
  | function d =>
    have text : ∃ rest, (Decl.function d).render.toList = "func".toList ++ ' ' :: rest :=
      ⟨_, by rw [Decl.render, Draft.render, Signature.render]; simp only [String.toList_append, append_assoc]; rfl⟩
    obtain ⟨rest, text⟩ := text
    refine .later (.later (.here ((takes_function written boundary last).bind takes_pure)) ?_) ?_
    · exact led text (by decide)
    · exact led text (by decide)

/-- The text of declarations one after the other. -/
def declText (ds : List Decl) : List Char := ds.flatMap (·.render.toList)

theorem boundary_decls (sealed : Sealed ds) : Boundary declStarts (declText ds) := by
  cases ds with
  | nil => exact .inl rfl
  | cons d ds =>
    obtain ⟨w, n, rest, member, ident, named, text⟩ := word_render sealed.1
    have whole : declText (d :: ds) = w.toList ++ ' ' :: (n.toList ++ (rest ++ declText ds)) := by
      rw [declText, flatMap_cons, text, declText]
      simp
    exact .inr ⟨w, _, member, ident, by rw [whole, skipped_ident ident], stops_at rfl,
      Heads.after_space (head_ne named (by decide))⟩

/-- Sealed declarations are read back one by one. -/
theorem chain_decls (sealed : Sealed ds) :
    Chain (checked decl : Rule (Except NumeralFault Decl)) (declText ds) (ds.map .ok) [] := by
  induction ds with
  | nil =>
    refine .done (.checked (refuses_firstOf ?_))
    refine ⟨?_, ?_, ?_⟩
    · exact .rule (.bind (refuses_symbol rfl))
    · exact .rule (.bind (refuses_symbol rfl))
    · exact .bind (.rule (.bind (refuses_symbol rfl)))
  | cons d ds ih =>
    obtain ⟨written, last, sealed⟩ := sealed
    obtain ⟨w, n, rest, -, ident, -, text⟩ := word_render written
    obtain ⟨c, cs, eq, starts, -⟩ := wordlike_of_isIdent ident
    have whole : declText (d :: ds) = d.render.toList ++ declText ds := rfl
    rw [whole, map_cons]
    refine .item (declText ds) (.checked (takes_decl written (boundary_decls sealed) fun isOpen => ?_)) ?_ (ih sealed)
    · rw [last isOpen]
      rfl
    · rw [text, eq, cons_append, cons_append]
      exact length_skipped_lt (isSolid_of_startsName starts) _ _

/-- A text of sealed declarations is read as these. -/
theorem run_decls (sealed : Sealed ds) {text : String} (written : text.toList = declText ds) :
    ∃ m, program.run text = .ok m ∧ m.value = ds.map .ok := by
  have takes : Takes (do
      let decls ← many (checked decl)
      eoi
      return decls : Rule (List (Except NumeralFault Decl))) text.toList (ds.map .ok) [] := by
    rw [written]
    exact (chain_decls sealed).many.bind (takes_eoi.bind takes_pure)
  exact takes.run

end

end Grammar

/-- The declarations of a program in the order of its text. -/
def Program.decls (p : Program) : List Decl :=
  p.types.decls.entries.map (fun d => .type d.1 d.2) ++ p.globals.map .global ++ p.functions.map (.function ·.draft)

theorem Program.toList_render (p : Program) : p.render.toList = declText p.decls := by
  have drafts (f : Function) : f.draft.render = f.render := by
    rw [Draft.render, Function.render, Function.draft, map_map]
    rfl
  simp [Program.render, declText, Program.decls, flatMap_map, Decl.render, drafts]

/-! ### The program that is declared -/

namespace Program

/-- A program that declarations can give: its globals and functions have names of their own, and the
functions are linked. -/
structure Assembled (p : Program) : Prop where
  globals : (p.globals.map (·.name)).Nodup
  functions : (p.functions.map (·.name)).Nodup
  linked : ∀ f ∈ p.functions, f.Linked

/-- A linked function is written as the draft it was made of. -/
theorem draft_of_link (link : d.link = .ok f) : f.draft = d :=
  (Draft.link_eq_ok.1 link).2 ▸ d.draft_linked

theorem link_draft (linked : f.Linked) : f.draft.link = .ok f := by
  obtain ⟨d, link⟩ := linked
  rw [draft_of_link link, link]

theorem declareAll_append (p : Program) (ds es : List Decl) {p' : Program}
    (first : (p.declareAll (ds.map .ok)).result = .ok p') :
    (p.declareAll ((ds ++ es).map .ok)).result = (p'.declareAll (es.map .ok)).result := by
  induction ds generalizing p with
  | nil =>
    obtain rfl : p = p' := Except.ok.inj first
    rfl
  | cons d ds ih =>
    rw [map_cons, declareAll] at first
    rw [cons_append, map_cons, declareAll]
    cases here : p.declare d with
    | error e =>
      rw [here] at first
      exact absurd first (by simp)
    | ok q =>
      rw [here] at first
      exact ih q first

theorem declare_types {es : List (String × TypeDecl)} :
    (p.declareAll ((es.map fun d => Decl.type d.1 d.2).map .ok)).result =
      .ok { p with types := ⟨es.foldl (fun d e => d.insert e.1 e.2) p.types.decls⟩ } := by
  induction es generalizing p with
  | nil => rfl
  | cons e es ih =>
    rw [map_cons, map_cons, declareAll]
    exact ih

theorem declare_globals {gs : List Global} (distinct : ((p.globals ++ gs).map (·.name)).Nodup) :
    (p.declareAll ((gs.map Decl.global).map .ok)).result = .ok { p with globals := p.globals ++ gs } := by
  induction gs generalizing p with
  | nil => simp [declareAll]
  | cons g gs ih =>
    have fresh : (p.global? g.name).isSome = false := by
      rw [global?, Option.isSome_eq_false_iff, Option.isNone_iff_eq_none, find?_eq_none]
      intro h member same
      rw [map_append, nodup_append] at distinct
      exact distinct.2.2 h.name (mem_map_of_mem member) g.name (by simp) (by simpa using same)
    rw [map_cons, map_cons, declareAll, declare, addGlobal, if_neg (by simp [fresh])]
    have next := ih (p := { p with globals := p.globals ++ [g] }) (by simpa using distinct)
    simpa using next

theorem declare_functions {fs : List Function} (distinct : ((p.functions ++ fs).map (·.name)).Nodup)
    (linked : ∀ f ∈ fs, f.Linked) :
    (p.declareAll ((fs.map (Decl.function ·.draft)).map .ok)).result = .ok
    { p with functions := p.functions ++ fs } := by
  induction fs generalizing p with
  | nil => simp [declareAll]
  | cons f fs ih =>
    rw [forall_mem_cons] at linked
    have fresh : (p.function? f.draft.name).isSome = false := by
      rw [function?, Option.isSome_eq_false_iff, Option.isNone_iff_eq_none, find?_eq_none]
      intro h member same
      rw [map_append, nodup_append] at distinct
      exact distinct.2.2 h.name (mem_map_of_mem member) f.name (by simp) (of_decide_eq_true same)
    rw [map_cons, map_cons, declareAll, declare, addFunction, if_neg (by simp [fresh]), link_draft linked.1]
    have next := ih (p := { p with functions := p.functions ++ [f] }) (by simpa using distinct) linked.2
    simpa using next

/-- The declarations of a program give the program. -/
theorem declareAll_decls (assembled : p.Assembled) : (declareAll {} (p.decls.map .ok)).result = .ok p := by
  have types : (declareAll {} ((p.types.decls.entries.map fun d => Decl.type d.1 d.2).map .ok)).result =
      .ok { types := p.types } := by
    rw [declare_types]
    exact congrArg (fun d => Except.ok { types := ⟨d⟩ : Program }) (Dict.ofList_entries p.types.decls)
  have globals : (declareAll { types := p.types } ((p.globals.map Decl.global).map .ok)).result =
      .ok { types := p.types, globals := p.globals } := declare_globals (by simpa using assembled.globals)
  have functions : (declareAll { types := p.types, globals := p.globals }
      ((p.functions.map (Decl.function ·.draft)).map .ok)).result = .ok p :=
    declare_functions (by simpa using assembled.functions) assembled.linked
  have before := (declareAll_append {} _ _ types).trans globals
  rw [decls, declareAll_append {} _ _ before, functions]

end Program

end ChanFlow.Ssa
