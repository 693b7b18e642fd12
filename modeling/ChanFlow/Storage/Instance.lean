import ChanFlow.Types.Basic
import ChanFlow.Ssa.Operand

/-!
Instances: the identities the analysis gives to values. Two instances are the same value exactly when
all their parts agree.
-/
namespace ChanFlow

open Ssa

/-- The value an instance was created for, and the function it belongs to. A global has none. -/
structure Origin where
  routine : Option String
  value : String
deriving DecidableEq, Repr

inductive Instance where
  /-- A value created in a call of a function, at an index of the loop around it. -/
  | value (origin : Origin) (activation : Nat) (loopIndex : Int) (ty : Ty)
  /-- The result of a function whose body is not known. -/
  | external (routine : String) (ty : Ty) (activation : Nat)
  | const (literal : Literal)
deriving DecidableEq, Repr

namespace Instance

/-- The instance of something that lives as long as the program. -/
def ofProgram (name : String) (ty : Ty) : Instance := value ⟨none, name⟩ 0 0 ty

def ty? : Instance → Option Ty
  | value _ _ _ ty => some ty
  | external _ ty _ => some ty
  | const _ => none

def origin? : Instance → Option Origin
  | value origin .. => some origin
  | _ => none

def literal? : Instance → Option Literal
  | const literal => some literal
  | _ => none

def isProgramLevel : Instance → Bool
  | value ⟨none, _⟩ .. => true
  | _ => false

def render : Instance → String
  | value origin activation loopIndex _ =>
    (origin.routine.map (· ++ ".")).getD "" ++ origin.value ++ "_" ++ toString activation ++ "_" ++
      toString loopIndex
  | external routine _ activation => "ext:" ++ routine ++ "_" ++ toString activation
  | const literal => literal.render

end Instance

end ChanFlow
