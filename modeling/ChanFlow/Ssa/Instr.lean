import ChanFlow.Types.Basic
import ChanFlow.Ssa.Operand

/-!
Instructions. An instruction either defines a value by an operation or has an effect and defines none;
calls, and operations the analysis has no rule for, occur as both.
-/
namespace ChanFlow.Ssa

inductive BinOp where
  | add | sub | mul | div | rem | and | or | xor | shl | shr | andNot
  | eq | ne | lt | le | gt | ge
deriving DecidableEq, Repr

def BinOp.isComparison : BinOp → Bool
  | eq | ne | lt | le | gt | ge => true
  | _ => false

/-- The comparison that holds when the two sides change places. -/
def BinOp.flip : BinOp → BinOp
  | lt => gt
  | le => ge
  | gt => lt
  | ge => le
  | op => op

inductive UnOp where
  | not | neg | compl
deriving DecidableEq, Repr

inductive Conversion where
  | changeType | convert | changeInterface | makeInterface
deriving DecidableEq, Repr

/-- How long an allocation lives: for the whole program, or with the call that made it. -/
inductive AllocScope where
  | heap | frame
deriving DecidableEq, Repr

inductive Callee where
  | static (func : String)
  /-- A function value held in an operand. -/
  | value (operand : Operand)
  | builtin (name : String)
  /-- A method of whatever type the receiver turns out to have. -/
  | invoke (receiver : Operand) (method : String)
deriving DecidableEq, Repr

structure Call where
  callee : Callee
  args : List Operand
deriving DecidableEq, Repr

/-- One alternative of a select. -/
inductive SelectCase where
  | send (chan value : Operand)
  | recv (chan : Operand)
deriving DecidableEq, Repr

def SelectCase.chan : SelectCase → Operand
  | send chan _ => chan
  | recv chan => chan

/-- The value a phi takes when control comes from block `pred`. -/
structure PhiEdge where
  pred : Nat
  value : Operand
deriving DecidableEq, Repr

inductive ValueOp where
  | alloc (scope : AllocScope)
  | binary (op : BinOp) (x y : Operand)
  /-- Receives from a channel; with `commaOk` the result is a pair of the value and a flag. -/
  | recv (chan : Operand) (commaOk : Bool)
  | deref (x : Operand)
  | unary (op : UnOp) (x : Operand)
  | call (call : Call)
  | convert (op : Conversion) (x : Operand)
  | extract (tuple : Operand) (index : Nat)
  | field (x : Operand) (field : Nat)
  | fieldAddr (x : Operand) (field : Nat)
  | index (x index : Operand)
  | indexAddr (x index : Operand)
  | lookup (map key : Operand) (commaOk : Bool)
  | makeChan (capacity : Operand)
  | makeClosure (func : String) (bindings : List Operand)
  | makeMap
  | makeSlice (length : Operand)
  | next (iter : Operand)
  | range (x : Operand)
  | phi (edges : List PhiEdge)
  | select (blocking : Bool) (cases : List SelectCase)
  | slice (x : Operand)
  | typeAssert (x : Operand) (commaOk : Bool)
  | unmodelled (op : String) (args : List Operand)
deriving DecidableEq, Repr

inductive Effect where
  | jump (target : Nat)
  | branch (cond : Operand) (onTrue onFalse : Nat)
  | ret (results : List Operand)
  | send (chan value : Operand)
  | store (addr value : Operand)
  | mapUpdate (map key value : Operand)
  | go (call : Call)
  | defer (call : Call)
  | call (call : Call)
  | runDefers
  | panic (x : Operand)
  | unmodelled (op : String) (args : List Operand)
deriving DecidableEq, Repr

inductive Action where
  | define (name : String) (ty : Ty) (op : ValueOp)
  | perform (effect : Effect)
deriving DecidableEq, Repr

structure Instr where
  action : Action
  pos : Option Position := none
deriving DecidableEq, Repr

/-- Effects that end a block. -/
def Effect.isTerminator : Effect → Bool
  | jump _ | branch .. | ret _ | panic _ => true
  | _ => false

/-- The blocks control can go to, in branch order. -/
def Effect.successors : Effect → List Nat
  | jump target => [target]
  | branch _ onTrue onFalse => [onTrue, onFalse]
  | _ => []

namespace Instr

def name? (i : Instr) : Option String :=
  match i.action with
  | .define name _ _ => some name
  | .perform _ => none

def ty? (i : Instr) : Option Ty :=
  match i.action with
  | .define _ ty _ => some ty
  | .perform _ => none

def op? (i : Instr) : Option ValueOp :=
  match i.action with
  | .define _ _ op => some op
  | .perform _ => none

def isTerminator (i : Instr) : Bool :=
  match i.action with
  | .define .. => false
  | .perform effect => effect.isTerminator

def successors (i : Instr) : List Nat :=
  match i.action with
  | .define .. => []
  | .perform effect => effect.successors

end Instr

end ChanFlow.Ssa
