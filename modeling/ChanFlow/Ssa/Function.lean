import ChanFlow.Ssa.Instr

/-!
Functions and their control flow.

A draft is a function as it is written. Linking checks that its blocks are in order, that each ends in a
terminator and that every block named by one exists, and gives each block its successors and
predecessors.
-/
namespace ChanFlow.Ssa

/-- The part a block plays in a loop. -/
inductive Role where
  | plain | loopHeader | loopBody | loopDone
deriving DecidableEq, Repr

structure BlockDraft where
  index : Nat
  tag : Option String
  instrs : List Instr
deriving DecidableEq, Repr

structure Block extends BlockDraft where
  preds : List Nat
  succs : List Nat
deriving DecidableEq, Repr

namespace BlockDraft

/-- The tag tells the part. -/
def role (b : BlockDraft) : Role :=
  match b.tag with
  | some "for.loop" => .loopHeader
  | some "for.body" => .loopBody
  | some "for.done" => .loopDone
  | _ => .plain

def terminator? (b : BlockDraft) : Option Instr := b.instrs.getLast?.filter (·.isTerminator)

end BlockDraft

/-- Whether control can arrive along more than one edge. Entering the function is an edge into its first
block. -/
def Block.isMergePoint (b : Block) : Bool :=
  1 < b.preds.length + if b.index = 0 then 1 else 0

structure Param where
  name : String
  ty : Ty
deriving DecidableEq, Repr

structure Signature where
  name : String
  params : List Param
  freeVars : List Param
  results : Option Ty
deriving DecidableEq, Repr

structure Draft extends Signature where
  blocks : List BlockDraft
deriving DecidableEq, Repr

/-- A linked function. One without blocks is foreign: only its signature is known. -/
structure Function extends Signature where
  blocks : List Block
deriving DecidableEq, Repr

/-- Why a draft cannot be linked. -/
inductive LinkError where
  | outOfOrder (func : String) (index expected : Nat)
  | missingTerminator (func : String) (block : Nat)
  | unknownBlock (func : String) (block : Nat)
deriving DecidableEq, Repr

namespace Draft

/-- Every block stands at the position its index says. -/
def checkOrder (name : String) : Nat → List BlockDraft → Except LinkError Unit
  | _, [] => .ok ()
  | i, b :: rest =>
    if b.index = i then checkOrder name (i + 1) rest
    else .error (.outOfOrder name b.index i)

/-- The successors of a block of a function with `count` blocks. -/
def successors (name : String) (count : Nat) (b : BlockDraft) : Except LinkError (List Nat) :=
  match b.terminator? with
  | none => .error (.missingTerminator name b.index)
  | some term =>
    match term.successors.find? (count ≤ ·) with
    | some missing => .error (.unknownBlock name missing)
    | none => .ok term.successors

/-- Enters block `b` in the lists of its successors, unless it is there already. -/
def enlist (preds : List (List Nat)) (b : Nat) (succs : List Nat) : List (List Nat) :=
  succs.foldl (fun preds s => preds.modify s fun ps => if b ∈ ps then ps else ps ++ [b]) preds

/-- The predecessors of each block, gathered in one pass over the successors of all of them. -/
def predecessors (succs : List (List Nat)) : List (List Nat) :=
  succs.zipIdx.foldl (fun preds (ss, b) => enlist preds b ss) (List.replicate succs.length [])

def link (d : Draft) : Except LinkError Function := do
  checkOrder d.name 0 d.blocks
  let succs ← d.blocks.mapM (successors d.name d.blocks.length)
  let preds := predecessors succs
  return {
    toSignature := d.toSignature
    blocks := d.blocks.zipWith (fun b ss =>
      { toBlockDraft := b, preds := preds[b.index]?.getD [], succs := ss }) succs }

end Draft

namespace Function

def hasBody (f : Function) : Bool := !f.blocks.isEmpty

def block? (f : Function) (index : Nat) : Option Block := f.blocks[index]?

/-- The instruction that defines a value; the last one, should there be several. -/
def definition? (f : Function) (value : String) : Option Instr :=
  (f.blocks.flatMap (·.instrs)).reverse.find? (·.name? = some value)

/-- The declared type of a parameter or captured variable. -/
def paramType? (f : Function) (value : String) : Option Ty :=
  ((f.params ++ f.freeVars).find? (·.name = value)).map (·.ty)

/-- The declared type of a local value. -/
def valueType? (f : Function) (value : String) : Option Ty :=
  f.paramType? value <|> (f.definition? value).bind (·.ty?)

end Function

end ChanFlow.Ssa
