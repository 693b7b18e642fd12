import ChanFlow.Analysis.Values

/-!
Phis and comparisons, and what they tell about the loop they stand in.
-/
namespace ChanFlow.Analysis

open Ssa

/-- Whether an arrival is at the header of the current loop. -/
def atHeader (a : Activation) (arrival : Arrival) : Bool :=
  a.loops.current.state = .enter && a.loops.current.header = some arrival.block

/-- Changes the current loop, after reporting what the change is. -/
def changeLoop (event : Loop → Option Event) (change : Loop → Loop) : Run Unit := do
  let l := (← activation).loops.current
  emit? (event l)
  modifyActivation (·.setLoop (change l))

/-- What an operation adds to the value `phi`, if that is a constant. -/
def stepOf? (phi : String) : ValueOp → Option Int
  | .binary .add x y =>
    if x.var? = some phi then y.int? else if y.var? = some phi then x.int? else none
  | .binary .sub x y =>
    if x.var? = some phi then y.int?.bind fun i => Word.inRange? (-i) else none
  | _ => none

/-- Start and step of a phi that starts at a constant and comes back with a constant added. -/
def indexCandidate? (f : Function) (phi : String) (edges : List PhiEdge) : Option (Int × Int) :=
  match edges with
  | [entry, back] => do
    let start ← entry.value.int?
    let backName ← back.value.var?
    let definition ← f.definition? backName
    let step ← definition.op?.bind (stepOf? phi)
    if step = 0 then none else some (start, step)
  | _ => none

/-- A merge value that has no instance yet gets one, if it is defined by an operation that makes a new
value each time. -/
def anticipate (x : Operand) : Run Instance := do
  let f := (← activation).func
  let refuse : Run Instance := failWith (.unresolvedValue f.name x)
  match x.var?.bind f.definition? with
  | some ⟨.define name ty op, _⟩ =>
    match op with
    | .call _ | .recv .. | .deref _ | .unary .. | .makeClosure .. =>
      let i ← fresh name ty
      emit (.mergeValueMade i)
      bindValue name i
      return i
    | _ => refuse
  | _ => refuse

/-- Binds a phi to the value of an edge. -/
def takeEdge (value : String) (edge : PhiEdge) : Run Unit := do
  let i ← match ← instanceOf? edge.value with
    | some i => pure i
    | none => anticipate edge.value
  bindValue value i

/-- The index of a static loop moves on with every arrival but the first. -/
def advanceIndex (arrival : Arrival) (edges : List PhiEdge) : Run Unit := do
  if arrival.pred ≠ edges.head?.map (·.pred) then changeLoop (·.advanceEvent?) (·.advance)

/-- A phi at the header of a loop may be the index the loop counts with. -/
def noteCandidate (arrival : Arrival) (value : String) (edges : List PhiEdge) : Run Unit := do
  let a ← activation
  if atHeader a arrival && a.loops.current.bound = .unknown then
    match indexCandidate? a.func value edges with
    | some (start, step) =>
      changeLoop (·.candidateEvent? value start step) (·.noteIndex value start step)
    | none => pure ()

/-- A phi takes the value of the edge control came along. The index of a static loop is its current
value instead. -/
def phi (arrival : Arrival) (value : String) (edges : List PhiEdge) : Run Unit := do
  let a ← activation
  match arrival.pred.bind fun pred => edges.find? (·.pred = pred) with
  | none => failWith (.noMatchingPredecessor a.func.name value arrival.pred)
  | some edge =>
    let l := a.loops.current
    if atHeader a arrival && l.isStatic && l.indexVar = some value then
      advanceIndex arrival edges
      bindValue value (.const (.int (← activation).loops.current.index))
    else
      noteCandidate arrival value edges
      takeEdge value edge

/-- A comparison at the header of a loop tells what kind of loop it is. The index may stand on either
side. -/
def noteComparison (maxUnroll : Nat) (arrival : Arrival) (value : String) (op : BinOp)
    (x y : Operand) : Run Unit := do
  let a ← activation
  if op.isComparison && atHeader a arrival && a.loops.current.bound = .unknown then
    let (var, op, bound) := match x.var? with
      | some var => (some var, op, y.int?)
      | none => (y.var?, op.flip, x.int?)
    changeLoop (·.conditionEvent? value var op bound maxUnroll)
      (·.noteCondition value var op bound maxUnroll)

def binary (maxUnroll : Nat) (arrival : Arrival) (value : String) (ty : Ty) (op : BinOp)
    (x y : Operand) : Run Unit := do
  noteComparison maxUnroll arrival value op x y
  bindFresh value ty

end ChanFlow.Analysis
