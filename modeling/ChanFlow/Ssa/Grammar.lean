import ChanFlow.Text.Blank
import ChanFlow.Text.Lexeme
import ChanFlow.Word
import ChanFlow.Ssa.Program

/-!
The grammar of program text.

Operations start with a word of their own, except the binary ones, which start with an operand and are
tried first. An operand is never one of the reserved words, so the two kinds do not mix.
-/
namespace ChanFlow.Ssa

open Text Text.Parser

/-- What a program text declares. -/
inductive Decl where
  | type (name : String) (decl : TypeDecl)
  | global (global : Global)
  | function (draft : Draft)

namespace Grammar

abbrev Rule (α : Type) : Type := Parser NumeralFault α

/-! Words and numerals -/

def isWordChar (c : Char) : Bool :=
  isLetter c || isDigit c || c = '_' || c = '.' || c = '$'

def reserved : List String :=
  ["alloc", "recv", "deref", "not", "neg", "compl", "call", "changetype", "changeiface", "convert",
   "makeiface", "extract", "fieldaddr", "field", "indexaddr", "index", "lookup", "makechan",
   "makeclosure", "makemap", "makeslice", "next", "range", "phi", "select", "slice", "typeassert",
   "opaque", "commaok", "block", "func", "type", "global"]

def word : Rule (List Char) := token (scanName isWordChar)

def name : Rule String := do return String.ofList (← lexeme word)

def keyword (w : String) : Rule Unit := do
  let _ ← lexeme (token (scanWord isWordChar w))

/-- An index must fit in 64 bits. -/
def indexOf (digits : List Char) : Rule Nat := do
  let n := natOfDigits digits
  report (if Word.IndexFits n then none else some (.index (String.ofList digits)))
  return n

def rawIndex : Rule Nat := do indexOf (← token (scanRun isDigit))

def index : Rule Nat := lexeme rawIndex

def list {α : Type} (opening closing sep : String) (item : Rule α) : Rule (List α) := do
  symbol opening
  let items ← sepBy item (symbol sep)
  symbol closing
  return items

/-! Types -/

/-- The number types may carry a width. -/
def isBasicName (w : List Char) : Bool :=
  (["int", "uint", "float", "complex"].any fun base =>
      ((base.toList.isPrefixOf? w).map (·.all isDigit)).getD false) ||
    ["bool", "string", "byte", "rune", "uintptr", "error"].any (·.toList = w)

def scanBasic (cs : List Char) : Option (List Char × List Char) :=
  (scanName isWordChar cs).filter fun found => isBasicName found.1

/-- One level of a type; `ty` reads the types inside it. -/
def tyLevel (ty : Rule Ty) : Rule Ty := rule <| firstOf [
  rule do
    keyword "chan"
    return .chan (← ty),
  rule do
    symbol "["
    let length ← index
    symbol "]"
    return .array length (← ty),
  rule do
    symbol "["
    symbol "]"
    return .slice (← ty),
  rule do
    keyword "map"
    symbol "["
    let key ← ty
    symbol "]"
    return .map key (← ty),
  rule do
    symbol "*"
    return .pointer (← ty),
  rule do
    keyword "struct"
    return .struct (← list "\x7b" "\x7d" ";" ty),
  rule do
    keyword "interface"
    return .interface (← list "\x7b" "\x7d" ";" name),
  do
    keyword "func"
    return .func,
  rule do return .tuple (← list "(" ")" "," ty),
  do return .basic (String.ofList (← lexeme (token scanBasic))),
  do return .named (← name)]

/-- A type of at most `n` levels. -/
def tyWithin : Nat → Rule Ty
  | 0 => fail
  | n + 1 => tyLevel (tyWithin n)

/-- Each level takes a character of its own, so the characters that are left bound the levels. -/
def ty : Rule Ty := fun c => tyWithin (c.rest.length + 1) c

/-! Operands -/

/-- A name behind a mark. -/
def scanMarked (mark : Char) : List Char → Option (List Char × List Char)
  | [] => none
  | c :: cs =>
    if c = mark then (scanName isWordChar cs).map fun (w, rest) => (c :: w, rest) else none

def scanLocal (cs : List Char) : Option (List Char × List Char) :=
  (scanName isWordChar cs).filter fun found => !reserved.any (·.toList = found.1)

/-- Everything up to the next quote. -/
def scanQuoted : List Char → Option (List Char × List Char)
  | '"' :: cs =>
    match cs.dropWhile (· != '"') with
    | [] => none
    | _ :: rest => some ('"' :: cs.takeWhile (· != '"') ++ ['"'], rest)
  | _ => none

def globalRef : Rule String := do
  return String.ofList ((← lexeme (token (scanMarked '@'))).drop 1)

def funcRef : Rule String := do
  return String.ofList ((← lexeme (token (scanMarked '&'))).drop 1)

def localName : Rule String := do return String.ofList (← lexeme (token scanLocal))

def integer : Rule Literal := do
  let numeral ← lexeme (token scanInteger)
  let i := intOfNumeral numeral
  report (if Word.Fits i then none else some (.integer (String.ofList numeral)))
  return .int i

def quoted : Rule Literal := do
  return .str (String.ofList ((← lexeme (token scanQuoted)).drop 1).dropLast)

def constant : Rule Literal := rule <| firstOf [
  integer,
  quoted,
  do keyword "true"; return .bool true,
  do keyword "false"; return .bool false,
  do keyword "nil"; return .nil]

def operand : Rule Operand := rule <| firstOf [
  do return .global (← globalRef),
  do return .func (← funcRef),
  do return .const (← constant),
  do return .var (← localName)]

def args : Rule (List Operand) := rule (list "(" ")" "," operand)

/-! Operations -/

section
variable {β : Type}

def onOperand (w : String) (make : Operand → β) : Rule β := rule do
  symbol w
  return make (← operand)

def onPair (w : String) (make : Operand → Operand → β) : Rule β := rule do
  symbol w
  let x ← operand
  symbol ","
  return make x (← operand)

def onIndexed (w : String) (make : Operand → Nat → β) : Rule β := rule do
  symbol w
  let x ← operand
  symbol ","
  return make x (← index)

def onNothing (w : String) (b : β) : Rule β := rule do
  symbol w
  return b

def onUnmodelled (make : String → List Operand → β) : Rule β := rule do
  symbol "opaque"
  let op ← name
  return make op (← args)

end

/-- A longer operator comes before those it starts with. -/
def binOp : Rule BinOp := rule <| oneOf [
  ("<<", .shl), (">>", .shr), ("&^", .andNot), ("==", .eq), ("!=", .ne), ("<=", .le), (">=", .ge),
  ("<", .lt), (">", .gt), ("+", .add), ("-", .sub), ("*", .mul), ("/", .div), ("%", .rem),
  ("&", .and), ("|", .or), ("^", .xor)]

def commaOk : Rule Bool := do return (← opt (onNothing "commaok" ())).isSome

def callee : Rule Callee := firstOf [
  rule do
    keyword "builtin"
    return .builtin (← name),
  rule do
    keyword "invoke"
    let receiver ← operand
    return .invoke receiver (← name),
  do return .static (← funcRef),
  do return .value (.var (← localName))]

def call : Rule Call := rule do
  let callee ← callee
  return ⟨callee, ← args⟩

def onCall {β : Type} (w : String) (make : Call → β) : Rule β := rule do
  symbol w
  return make (← call)

def phiEdge : Rule PhiEdge := rule do
  let pred ← index
  symbol ":"
  return ⟨pred, ← operand⟩

def selectCase : Rule SelectCase := firstOf [
  rule do
    symbol "send"
    let chan ← operand
    symbol "<-"
    return .send chan (← operand),
  onOperand "recv" .recv]

def valueOp : Rule ValueOp := firstOf [
  rule do
    let x ← operand
    let op ← binOp
    return .binary op x (← operand),
  rule do
    symbol "alloc"
    return .alloc (← rule (oneOf [("heap", .heap), ("local", .frame)])),
  rule do
    symbol "recv"
    let chan ← operand
    return .recv chan (← commaOk),
  onOperand "deref" .deref,
  onOperand "not" (.unary .not),
  onOperand "neg" (.unary .neg),
  onOperand "compl" (.unary .compl),
  onCall "call" .call,
  rule do
    let op ← rule <| oneOf [
      ("changetype", Conversion.changeType), ("convert", .convert),
      ("changeiface", .changeInterface), ("makeiface", .makeInterface)]
    return .convert op (← operand),
  onIndexed "extract" .extract,
  onIndexed "fieldaddr" .fieldAddr,
  onIndexed "field" .field,
  onPair "indexaddr" .indexAddr,
  onPair "index" .index,
  rule do
    symbol "lookup"
    let map ← operand
    symbol ","
    let key ← operand
    return .lookup map key (← commaOk),
  onOperand "makechan" .makeChan,
  rule do
    symbol "makeclosure"
    let func ← funcRef
    return .makeClosure func (← args),
  onNothing "makemap" .makeMap,
  onOperand "makeslice" .makeSlice,
  onOperand "next" .next,
  onOperand "range" .range,
  rule do
    symbol "phi"
    symbol "["
    let edges ← sepBy1 phiEdge (symbol ",")
    symbol "]"
    return .phi edges,
  rule do
    symbol "select"
    let blocking ← rule (oneOf [("blocking", true), ("nonblocking", false)])
    return .select blocking (← list "[" "]" "," selectCase),
  onOperand "slice" .slice,
  rule do
    symbol "typeassert"
    let x ← operand
    return .typeAssert x (← commaOk),
  onUnmodelled .unmodelled]

def effect : Rule Effect := firstOf [
  rule do
    symbol "jump"
    return .jump (← index),
  rule do
    symbol "if"
    let cond ← operand
    symbol "then"
    let onTrue ← index
    symbol "else"
    return .branch cond onTrue (← index),
  rule do
    symbol "return"
    return .ret (← sepBy operand (symbol ",")),
  onPair "send" .send,
  onPair "store" .store,
  rule do
    symbol "mapupdate"
    let map ← operand
    symbol ","
    let key ← operand
    symbol ","
    return .mapUpdate map key (← operand),
  onCall "go" .go,
  onCall "defer" .defer,
  onCall "call" .call,
  onNothing "rundefers" .runDefers,
  onOperand "panic" .panic,
  onUnmodelled .unmodelled]

/-! Instructions -/

def isFileChar (c : Char) : Bool := c != ':' && !isBlank c

/-- Line and column keep their low 32 bits. -/
def position : Rule Position := rule do
  literal ";"
  skipWhile fun c => c = ' ' || c = '\t'
  let file ← token (scanRun isFileChar)
  literal ":"
  let line ← rawIndex
  literal ":"
  let column ← index
  return ⟨String.ofList (trim file), line % 4294967296, column % 4294967296⟩

def valueInstr : Rule Action := rule do
  let result ← name
  symbol ":"
  let ty ← ty
  symbol "="
  return .define result ty (← valueOp)

def instr : Rule Instr := rule do
  let action ← valueInstr <|> (do return .perform (← effect))
  return ⟨action, ← opt position⟩

/-! Declarations -/

def block : Rule BlockDraft := rule do
  symbol "block"
  let index ← index
  let tag ← opt (lexeme (token (scanRun isWordChar)))
  symbol ":"
  return ⟨index, tag.map String.ofList, ← many instr⟩

def param : Rule Param := rule do
  let name ← name
  symbol ":"
  return ⟨name, ← ty⟩

def function : Rule Draft := rule do
  symbol "func"
  let name ← name
  let freeVars ← opt (rule (list "[" "]" "," param))
  let params ← rule (list "(" ")" "," param)
  let results ← opt (rule do
    symbol "->"
    ty)
  return { name, params, freeVars := freeVars.getD [], results, blocks := ← many block }

def methodEntry : Rule (String × String) := rule do
  let method ← name
  symbol "="
  return (method, ← name)

def typeDecl : Rule Decl := rule do
  symbol "type"
  let name ← name
  let underlying ← ty
  let methods ← opt (rule (list "\x7b" "\x7d" "," methodEntry))
  return .type name ⟨underlying, Dict.ofList (methods.getD [])⟩

def global : Rule Decl := rule do
  symbol "global"
  let name ← name
  symbol ":"
  return .global ⟨name, ← ty⟩

def decl : Rule Decl := firstOf [typeDecl, global, do return .function (← function)]

/-- A whole text, with the faults of each declaration beside it. -/
def program : Rule (List (Except NumeralFault Decl)) := rule do
  blanks
  let decls ← many (checked decl)
  eoi
  return decls

end Grammar

end ChanFlow.Ssa
