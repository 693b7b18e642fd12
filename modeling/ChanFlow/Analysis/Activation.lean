import ChanFlow.Loop.Nest
import ChanFlow.Protocol.Routine
import ChanFlow.Storage.Arena

/-!
Activations: one call or spawn of a function, with everything the analysis knows inside it.
-/
namespace ChanFlow.Analysis

open Ssa

/-- A select whose cases wait for the branches that belong to them. -/
structure OpenSelect where
  /-- The instance of the number of the chosen case, once it is extracted. -/
  index : Option Instance
  /-- The position of the select in the statement list of `routine`. -/
  slot : Nat
  routine : String
  cases : Nat
  blocking : Bool
deriving DecidableEq, Repr

/-- A block together with the index values of the static loops around it. -/
abbrev BlockVisit := Nat × List Int

/-- An arrival at a block. Nothing comes before the entry of a function. -/
structure Arrival where
  block : Nat
  pred : Option Nat
deriving DecidableEq, Repr

def Arrival.entry : Arrival := ⟨0, none⟩

/-- Along the edge from block `src` to block `dst`. -/
def Arrival.along (src dst : Nat) : Arrival := ⟨dst, some src⟩

structure Activation where
  func : Function
  /-- The number of this activation among those of the same function. -/
  seq : Nat
  /-- The functions on the way here, the outermost first. -/
  callers : List String
  /-- The protocol routine under construction. -/
  routine : Protocol.Routine
  locals : Table String Instance := {}
  /-- The own names of the channels that came in as parameters or captured variables. -/
  names : Table Instance String := {}
  storage : Scope := {}
  /-- The deferred calls, the first one first. -/
  defers : List Call := []
  returned : List (Option Instance) := []
  selects : Table Instance OpenSelect := {}
  /-- The pairs of a value and a flag, with the instance of the flag once it is extracted. -/
  commaOk : Table Instance (Option Instance) := {}
  tuples : Table Instance (List (Option Instance)) := {}
  /-- The slots behind addresses of fields and elements. -/
  addresses : Table String (ContainerId × Slot) := {}
  loops : Nest := {}
  labels : Table BlockVisit String := {}
  visited : List BlockVisit := []

namespace Activation

def start (func : Function) (seq : Nat) (callers : List String) (routine : String) : Activation :=
  { func, seq, callers, routine := { name := routine } }

def bind (a : Activation) (value : String) (i : Instance) : Activation :=
  { a with locals := a.locals.insert value i }

def resolve? (a : Activation) (value : String) : Option Instance := a.locals.get? value

/-- The instance a value of this function gets when it is created now. -/
def fresh (a : Activation) (value : String) (ty : Ty) : Instance :=
  .value ⟨some a.func.name, value⟩ a.seq a.loops.current.index ty

/-- The name of a channel in the protocol of this activation. -/
def channelName (a : Activation) (i : Instance) : String :=
  match a.names.get? i with
  | some name => name
  | none =>
    match i with
    | .value origin .. => origin.value
    | .external routine .. => routine
    | .const literal => literal.render

/-- Whether calling a function from here would enter it a second time. -/
def reenters (a : Activation) (callee : String) : Bool :=
  a.func.name = callee || a.callers.contains callee

def signature (a : Activation) : List Int := a.loops.signature

def key (a : Activation) (block : Nat) : BlockVisit := (block, a.signature)

def hasVisited (a : Activation) (block : Nat) : Bool := a.visited.contains (a.key block)

def noteVisit (a : Activation) (block : Nat) : Activation :=
  if a.hasVisited block then a else { a with visited := a.key block :: a.visited }

/-- The values before `slot` that were not returned yet stay open. -/
def setReturned (a : Activation) (slot : Nat) (i : Instance) : Activation :=
  let padded := a.returned ++ List.replicate (slot + 1 - a.returned.length) none
  { a with returned := padded.set slot (some i) }

/-- The name of the protocol routine for a merge point at the current index values. -/
def mergeLabel (a : Activation) (block : Nat) : String :=
  a.func.name ++ "#" ++ toString block ++
    String.join (a.signature.map fun i => "_" ++ toString i)

def setRoutine (a : Activation) (r : Protocol.Routine) : Activation := { a with routine := r }

def setLoop (a : Activation) (l : Loop) : Activation :=
  { a with loops := { a.loops with current := l } }

end Activation

/-- The spawned functions that wait to be interpreted, the first one first. -/
structure TaskQueue where
  waiting : List Activation := []
  /-- The names of all functions queued so far. -/
  scheduled : List String := []

namespace TaskQueue

/-- Queues an activation, unless its function has been queued before. -/
def enqueue? (q : TaskQueue) (a : Activation) : Option TaskQueue :=
  if q.scheduled.contains a.func.name then none
  else some ⟨q.waiting ++ [a], a.func.name :: q.scheduled⟩

def next? (q : TaskQueue) : Option (Activation × TaskQueue) :=
  match q.waiting with
  | [] => none
  | a :: rest => some (a, { q with waiting := rest })

end TaskQueue

end ChanFlow.Analysis
