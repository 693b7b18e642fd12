import ChanFlow.Analysis.Values

/-!
Channel instructions: creating channels, sending, receiving, closing and selecting.
-/
namespace ChanFlow.Analysis

open Ssa

/-- The name under which the protocol knows the channel of an operand. -/
def channelOf (x : Operand) : Run String := do
  let i ← instanceOf x
  return (← activation).channelName i

/-- The capacity must be a constant, since a protocol has channels of fixed capacity only. -/
def makeChan (value : String) (ty : Ty) (capacity : Operand) : Run Unit := do
  match capacity.int? with
  | none => failWith (.nonConstantCapacity (← activation).func.name value)
  | some capacity =>
    bindFresh value ty
    addStatement (.newChan value capacity)

def send (chan : Operand) : Run Unit := do addStatement (.send (← channelOf chan))

def close (chan : Operand) : Run Unit := do addStatement (.close (← channelOf chan))

def recv (value : String) (ty : Ty) (chan : Operand) (commaOk : Bool) : Run Unit := do
  addStatement (.recv (← channelOf chan))
  if commaOk then bindWithFlag value ty none else bindFresh value ty

/-- A case of a select before its body is known. -/
def readyCase (c : SelectCase) (chan : String) : List Protocol.Statement :=
  [match c with
    | .send .. => .send chan
    | .recv _ => .recv chan]

/-- A select has a case for each channel operation, and a silent one if it need not wait. The bodies of
the cases are filled in by the branches that test which case was chosen. -/
def select (types : TypeTable) (value : String) (ty : Ty) (blocking : Bool)
    (cases : List SelectCase) : Run Unit := do
  let chans ← cases.mapM (channelOf ·.chan)
  let ready := cases.zipWith readyCase chans
  addStatement (.select (if blocking then ready else ready ++ [[.tau]]))
  let tuple ← fresh value ty
  let width := (types.underlying ty).tupleLength?.getD 0
  modifyActivation fun a => { a with
    tuples := a.tuples.insert tuple (List.replicate width none)
    selects := a.selects.insert tuple {
      index := none
      slot := a.routine.stmts.length - 1
      routine := a.routine.name
      cases := cases.length
      blocking } }
  bindValue value tuple

/-- A part of a tuple. An open part gets an instance when it is first asked for. -/
def tuplePart (value : String) (ty : Ty) (tuple : Instance) (index : Nat) : Run Instance := do
  let a ← activation
  match (a.tuples.get? tuple).bind (·[index]?.join) with
  | some part => return part
  | none =>
    let part := a.fresh value ty
    match a.tuples.get? tuple with
    | some parts =>
      modifyActivation fun a => { a with tuples := a.tuples.insert tuple (parts.set index (some part)) }
    | none => pure ()
    return part

/-- The first part of a select's tuple is the number of the chosen case. -/
def noteChosen (tuple part : Instance) : Run Unit := do
  match (← activation).selects.get? tuple with
  | some site =>
    emit (.selectIndex part)
    modifyActivation fun a => { a with
      selects := a.selects.insert tuple { site with index := some part } }
  | none => pure ()

/-- The second part of a pair of a value and a flag is the flag. -/
def noteFlag (tuple part : Instance) : Run Unit := do
  match (← activation).commaOk.get? tuple with
  | some _ =>
    modifyActivation fun a => { a with commaOk := a.commaOk.insert tuple (some part) }
  | none => pure ()

def notePart (tuple part : Instance) : Nat → Run Unit
  | 0 => noteChosen tuple part
  | 1 => noteFlag tuple part
  | _ => pure ()

def extract (value : String) (ty : Ty) (x : Operand) (index : Nat) : Run Unit := do
  let tuple ← instanceOf x
  let part ← tuplePart value ty tuple index
  notePart tuple part index
  bindValue value part

end ChanFlow.Analysis
