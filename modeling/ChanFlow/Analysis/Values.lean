import ChanFlow.Analysis.Machine

/-!
Operands and bindings: which instance an operand has, and what a value is bound to.
-/
namespace ChanFlow.Analysis

open Ssa

/-- The instance of an operand, if it has one yet. -/
def instanceOf? (x : Operand) : Run (Option Instance) := do
  match x with
  | .var name => return (← activation).resolve? name
  | .global name => return (← context).globals.get? name
  | .func name =>
    let c ← context
    modifyContext fun c => (c.valueOfFunction name).2
    return some (c.valueOfFunction name).1
  | .const literal => return some (.const literal)

/-- The instance of an operand that must have one. -/
def instanceOf (x : Operand) : Run Instance := do
  match ← instanceOf? x with
  | some i => return i
  | none => failWith (.unresolvedValue (← activation).func.name x)

def bindValue (value : String) (i : Instance) : Run Unit := do
  emit (.bound value i)
  modifyActivation (·.bind value i)

def fresh (value : String) (ty : Ty) : Run Instance := return (← activation).fresh value ty

/-- Binds a value to a new instance. -/
def bindFresh (value : String) (ty : Ty) : Run Unit := do bindValue value (← fresh value ty)

/-- Binds a value to the instance of an operand. -/
def bindOperand (value : String) (x : Operand) : Run Unit := do bindValue value (← instanceOf x)

/-- A pair of a value and a flag that is not extracted yet. -/
def bindWithFlag (value : String) (ty : Ty) (first : Option Instance) : Run Unit := do
  let tuple ← fresh value ty
  modifyActivation fun a => { a with
    tuples := a.tuples.insert tuple [first, none]
    commaOk := a.commaOk.insert tuple none }
  bindValue value tuple

/-- The container of an instance, in the scope of the activation or else on the heap. -/
def containerOf? (i : Instance) : Run (Option ContainerId) := do
  return (← activation).storage.get? i <|> (← context).heap.get? i

end ChanFlow.Analysis
