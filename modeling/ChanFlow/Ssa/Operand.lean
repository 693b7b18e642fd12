/-!
What instructions work on: local values, globals, functions and constants.
-/
namespace ChanFlow.Ssa

inductive Literal where
  | int (value : Int)
  | bool (value : Bool)
  | str (text : String)
  | nil
deriving DecidableEq, Repr

inductive Operand where
  /-- A value of the function: a parameter, a captured variable or the result of an instruction. -/
  | var (name : String)
  /-- The address of a global. -/
  | global (name : String)
  /-- A function used as a value. -/
  | func (name : String)
  | const (literal : Literal)
deriving DecidableEq, Repr

/-- Where in the analysed sources an instruction comes from. -/
structure Position where
  file : String
  line : Nat
  column : Nat
deriving DecidableEq, Repr

def Literal.int? : Literal → Option Int
  | int value => some value
  | _ => none

def Operand.var? : Operand → Option String
  | var name => some name
  | _ => none

def Operand.int? : Operand → Option Int
  | const literal => literal.int?
  | _ => none

def Literal.render : Literal → String
  | int value => toString value
  | bool true => "true"
  | bool false => "false"
  | str text => "\"" ++ text ++ "\""
  | nil => "nil"

def Operand.render : Operand → String
  | var name => name
  | global name => "@" ++ name
  | func name => "&" ++ name
  | const literal => literal.render

def Position.render (p : Position) : String :=
  p.file ++ ":" ++ toString p.line ++ ":" ++ toString p.column

end ChanFlow.Ssa
