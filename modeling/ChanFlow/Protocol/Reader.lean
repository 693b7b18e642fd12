import ChanFlow.Text.Lexeme
import ChanFlow.Word
import ChanFlow.Protocol.Basic

/-!
The grammar of protocol text, and reading it. The whole text must follow the grammar before anything is
made of it. Text has one name for each parameter, so a routine read has it on both sides.
-/
namespace ChanFlow.Protocol

open Text Text.Parser

namespace Grammar

/-- A capacity out of range is a fault, kept as it is written. -/
abbrev Rule (α : Type) : Type := Parser String α

def isNameChar (c : Char) : Bool :=
  isLetter c || isDigit c || c = '_' || c = '.' || c = '$' || c = '#'

def name : Rule String := do return String.ofList (← lexeme (token (scanName isNameChar)))

def keyword (w : String) : Rule Unit := do
  let _ ← lexeme (token (scanWord isNameChar w))

def capacity : Rule Int := do
  let numeral ← lexeme (token scanInteger)
  let i := intOfNumeral numeral
  report (if Word.Fits i then none else some (String.ofList numeral))
  return i

def names : Rule (List String) := do
  symbol "("
  let found ← opt (rule (sepBy1 name (symbol ",")))
  symbol ")"
  return found.getD []

def onName (w : String) (make : String → Statement) : Rule Statement := rule do
  keyword w
  return make (← name)

def onRoutine (w : String) (make : String → List String → Statement) : Rule Statement := rule do
  keyword w
  let routine ← name
  return make routine (← names)

/-- One statement; `body` reads the lists inside it. -/
def statement (body : Rule (List Statement)) : Rule Statement := firstOf [
  rule do
    keyword "newchan"
    let chan ← name
    symbol ","
    return .newChan chan (← capacity),
  onName "send" .send,
  onName "recv" .recv,
  onName "close" .close,
  onRoutine "call" .call,
  onRoutine "spawn" .spawn,
  rule do
    keyword "if"
    let onTrue ← body
    keyword "else"
    let onFalse ← body
    keyword "endif"
    return .branch onTrue onFalse,
  rule do
    keyword "select"
    let cases ← many (rule do
      keyword "case"
      body)
    keyword "endselect"
    return .select cases,
  rule do
    keyword "tau"
    return .tau]

/-- Statements of at most `n` levels. -/
def bodyWithin : Nat → Rule (List Statement)
  | 0 => fail
  | n + 1 => rule <| many do
      let s ← statement (bodyWithin n)
      symbol ";"
      return s

/-- Each level takes characters of its own, so the characters that are left bound the levels. -/
def body : Rule (List Statement) := fun c => bodyWithin (c.rest.length + 1) c

def routine : Rule Routine := rule do
  symbol "def"
  let name ← name
  let params ← names
  symbol ":"
  let stmts ← body
  return { Routine.addParams { name } (params.map .same) with stmts }

def protocol : Rule (List (Except String Routine)) := rule do
  blanks
  let routines ← many (checked routine)
  eoi
  return routines

end Grammar

def addAll (p : Protocol) : List (Except String Routine) → Except Error Protocol
  | [] => .ok p
  | .error numeral :: _ => .error (.capacity numeral)
  | .ok r :: rest =>
    match p.add? r with
    | none => .error (.duplicateRoutine r.name)
    | some p' => p'.addAll rest

def read (text : String) : Except Error Protocol :=
  match Grammar.protocol.run text with
  | .error reach => .error (.mismatch (Location.ofOffset text reach))
  | .ok found => addAll {} found.value

end ChanFlow.Protocol
