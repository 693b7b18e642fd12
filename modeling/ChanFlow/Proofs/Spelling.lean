import ChanFlow.Proofs.Linked
import ChanFlow.Proofs.Validity
import ChanFlow.Ssa.Reader

/-!
How a program read from text is spelled: its names are identifiers, its integers are in range, and what is
called is a function, a method or a local value. Every identifier is a name of the protocol grammar.
-/
namespace ChanFlow.Ssa

open Text Text.Parser

def isIdent (s : String) : Bool :=
  match s.toList with
  | [] => false
  | c :: cs => startsName c && cs.all Grammar.isWordChar

theorem isName_of_isIdent {s : String} (ident : isIdent s = true) : Protocol.isName s = true := by
  unfold isIdent at ident
  split at ident
  · exact nomatch ident
  · next start cs written =>
    rw [Protocol.isName, written]
    simp only [Bool.and_eq_true, List.all_eq_true] at ident ⊢
    refine ⟨ident.1, fun c member => ?_⟩
    have word := ident.2 c member
    simp only [Grammar.isWordChar, Bool.or_eq_true] at word
    simp only [Protocol.Grammar.isNameChar, Bool.or_eq_true]
    exact .inl word

/-! ### Spelled programs -/

def Literal.Spelled : Literal → Prop
  | .int i => Word.Fits i
  | _ => True

def Operand.Spelled : Operand → Prop
  | .var name | .global name | .func name => isIdent name = true
  | .const literal => literal.Spelled

def Callee.Spelled : Callee → Prop
  | .static func => isIdent func = true
  | .value x => ∃ name, x = .var name ∧ isIdent name = true
  | .builtin name => isIdent name = true
  | .invoke receiver method => receiver.Spelled ∧ isIdent method = true

structure Call.Spelled (c : Call) : Prop where
  callee : c.callee.Spelled
  args : ∀ x ∈ c.args, x.Spelled

/-- The operands of an operation, those of a call apart. -/
def ValueOp.operands : ValueOp → List Operand
  | .binary _ x y | .index x y | .indexAddr x y | .lookup x y _ => [x, y]
  | .recv x _ | .deref x | .unary _ x | .convert _ x | .extract x _ | .field x _ | .fieldAddr x _ | .makeChan x
  | .makeSlice x | .next x | .range x | .slice x | .typeAssert x _ => [x]
  | .makeClosure _ xs | .unmodelled _ xs => xs
  | .phi edges => edges.map (·.value)
  | .select _ cases => cases.map (·.chan)
  | .alloc _ | .makeMap | .call _ => []

def ValueOp.Spelled : ValueOp → Prop
  | .call c => c.Spelled
  | .makeClosure func xs => isIdent func = true ∧ ∀ x ∈ xs, x.Spelled
  | op => ∀ x ∈ op.operands, x.Spelled

/-- The operands of an effect, those of a call apart. -/
def Effect.operands : Effect → List Operand
  | .branch x _ _ | .panic x => [x]
  | .send x y | .store x y => [x, y]
  | .mapUpdate x y z => [x, y, z]
  | .ret xs | .unmodelled _ xs => xs
  | .jump _ | .runDefers | .go _ | .defer _ | .call _ => []

def Effect.Spelled : Effect → Prop
  | .go c | .defer c | .call c => c.Spelled
  | effect => ∀ x ∈ effect.operands, x.Spelled

def Action.Spelled : Action → Prop
  | .define name _ op => isIdent name = true ∧ op.Spelled
  | .perform effect => effect.Spelled

structure Signature.Spelled (s : Signature) : Prop where
  name : isIdent s.name = true
  params : ∀ q ∈ s.params, isIdent q.name = true
  freeVars : ∀ q ∈ s.freeVars, isIdent q.name = true

structure Draft.Spelled (d : Draft) : Prop extends Signature.Spelled d.toSignature where
  instrs : ∀ b ∈ d.blocks, ∀ i ∈ b.instrs, i.action.Spelled

structure Function.Spelled (f : Function) : Prop extends Signature.Spelled f.toSignature where
  instrs : ∀ b ∈ f.blocks, ∀ i ∈ b.instrs, i.action.Spelled

structure Program.Spelled (p : Program) : Prop where
  globals : ∀ g ∈ p.globals, isIdent g.name = true
  functions : ∀ f ∈ p.functions, f.Spelled
  methods : ∀ ty method routine, p.types.method ty method = some routine → isIdent routine = true

/-- What a declaration adds to a program is spelled. -/
def Decl.Spelled : Decl → Prop
  | .type _ decl => ∀ method routine, decl.methods.get? method = some routine → isIdent routine = true
  | .global g => isIdent g.name = true
  | .function draft => draft.Spelled

theorem mem_foldl_insert {β : Type} {es : List (String × β)} {d : Dict β} {e : String × β}
    (member : e ∈ (es.foldl (fun d e => d.insert e.1 e.2) d).entries) : e ∈ d.entries ∨ e ∈ es := by
  induction es generalizing d with
  | nil => exact .inl member
  | cons first es ih =>
    rcases ih member with old | new
    · rcases Dict.mem_put old with rfl | old
      · exact .inr List.mem_cons_self
      · exact .inl old
    · exact .inr (List.mem_cons_of_mem first new)

/-! ### Words -/

namespace Grammar

theorem yields_scanName {cs taken rest : List Char} (scanned : scanName isWordChar cs = some (taken, rest)) :
    isIdent (String.ofList taken) = true := by
  obtain ⟨c, more, rfl, starts, all⟩ := Protocol.Grammar.yields_scanName scanned
  simp only [isIdent, String.toList_ofList, starts, all, Bool.and_self]

theorem yields_name : Yields name (isIdent · = true) := by
  have word : Yields word fun taken => isIdent (String.ofList taken) = true :=
    yields_token fun _ _ _ => yields_scanName
  exact word.lexeme.bind fun _ ident => yields_pure ident

theorem yields_marked {mark : Char} : Yields (token (scanMarked mark) : Rule (List Char)) fun taken =>
    isIdent (String.ofList (taken.drop 1)) = true := by
  apply yields_token
  intro cs taken rest scanned
  cases cs with
  | nil => exact nomatch scanned
  | cons c cs =>
    rw [scanMarked] at scanned
    split at scanned
    · obtain ⟨found, inner, eq⟩ := Option.map_eq_some_iff.1 scanned
      obtain ⟨rfl, -⟩ := Prod.mk.inj eq
      exact yields_scanName inner
    · exact nomatch scanned

theorem yields_globalRef : Yields globalRef (isIdent · = true) :=
  yields_marked.lexeme.bind fun _ ident => yields_pure ident

theorem yields_funcRef : Yields funcRef (isIdent · = true) :=
  yields_marked.lexeme.bind fun _ ident => yields_pure ident

theorem yields_list {α : Type} {P : α → Prop} {item : Rule α} (yields : Yields item P)
    (opening closing sep : String) : Yields (list opening closing sep item) fun as => ∀ a ∈ as, P a :=
  yields_after fun _ => yields.sepBy.bind fun _ all => yields_after fun _ => yields_pure all

end Grammar

end ChanFlow.Ssa
