import ChanFlow.Types.Declared
import ChanFlow.Ssa.Function
import ChanFlow.Text.Location

/-!
Programs: declared types, globals and linked functions, with the ways a program can be at fault.
-/
namespace ChanFlow.Ssa

structure Global where
  name : String
  ty : Ty
deriving DecidableEq, Repr

structure Program where
  types : TypeTable := {}
  globals : List Global := []
  functions : List Function := []

/-- A numeral of the right form whose value is out of range. -/
inductive NumeralFault where
  | index (digits : String)
  | integer (digits : String)
deriving DecidableEq, Repr

inductive Error where
  /-- The text does not follow the grammar. -/
  | mismatch (location : Text.Location)
  | numeral (fault : NumeralFault)
  | duplicateGlobal (name : String)
  | duplicateFunction (name : String)
  | link (cause : LinkError)
deriving DecidableEq, Repr

def NumeralFault.message : NumeralFault → String
  | index digits => "invalid index: " ++ digits
  | integer digits => "invalid integer literal: " ++ digits

def LinkError.message : LinkError → String
  | outOfOrder func index expected =>
    "invalid ssa program: block " ++ toString index ++ " of `" ++ func ++
      "` is out of order (expected " ++ toString expected ++ ")"
  | missingTerminator func block =>
    "block " ++ toString block ++ " of `" ++ func ++ "` does not end in a terminator"
  | unknownBlock func block => "routine `" ++ func ++ "` has no block " ++ toString block

def Error.message : Error → String
  | mismatch location =>
    "failed to parse ssa text: line " ++ toString location.line ++ ", column " ++
      toString location.column
  | numeral fault => "invalid ssa program: " ++ fault.message
  | duplicateGlobal name => "invalid ssa program: global `" ++ name ++ "` is declared twice"
  | duplicateFunction name => "routine `" ++ name ++ "` is defined twice"
  | link cause => cause.message

namespace Program

def global? (p : Program) (name : String) : Option Global := p.globals.find? (·.name = name)

def function? (p : Program) (name : String) : Option Function := p.functions.find? (·.name = name)

def addGlobal (p : Program) (g : Global) : Except Error Program :=
  if (p.global? g.name).isSome then .error (.duplicateGlobal g.name)
  else .ok { p with globals := p.globals ++ [g] }

/-- Links a function and adds it. -/
def addFunction (p : Program) (d : Draft) : Except Error Program :=
  if (p.function? d.name).isSome then .error (.duplicateFunction d.name)
  else match d.link with
    | .error cause => .error (.link cause)
    | .ok f => .ok { p with functions := p.functions ++ [f] }

end Program

end ChanFlow.Ssa
