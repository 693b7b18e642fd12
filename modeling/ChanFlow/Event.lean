import ChanFlow.Loop.Nest
import ChanFlow.Ssa.Render
import ChanFlow.Storage.Arena

/-!
What the analysis reports on its way. Each kind of event has a level, a message and named values.
-/
namespace ChanFlow

open Ssa

inductive Level where
  | trace | debug | warn
deriving DecidableEq, Repr

inductive Event where
  | typeRedeclared (name : String)
  | compositeGlobal (name : String)
  | bound (value : String) (held : Instance)
  | slotWritten (owner : Instance) (kind : SlotKind)
  | blockEntered (block : Nat) (pred : Option Nat) (state : Loop.State) (moved : Loop.Move)
  | instrVisited (instr : Instr)
  | alreadyScheduled (routine : String)
  | initialiserStarted (routine : String)
  | routineStarted
  | blockRevisited (block : Nat)
  | mergePointStarted (label : String)
  | unboundReturn (slot : Nat) (result : Operand)
  | instrSkipped (routine op : String)
  | aliasesReplaced (old new : Instance) (changed : Nat)
  | indexOverflow (index step : Int)
  | indexCandidate (var : String) (start step : Int)
  | staticLoop (start step last : Int)
  | rangeTooLong (start step last : Int) (maxUnroll : Nat)
  | dynamicLoop (cond : String)
  | mergeValueMade (made : Instance)
  | unrolling (index : Int) (next : Nat)
  | commaOkBranch (cond : Operand)
  | strayCase (routine select : String)
  | routineMissing (routine : String)
  | calleeUnknown (routine : String) (callee : Operand)
  | receiverAbstract (routine : String) (receiver : Instance) (method : String)
  | receiverUnfit (routine : String) (receiver : Instance) (method : String)
  | methodMissing (routine : String) (receiver : Instance) (method : String)
  | argumentUnbound (param : String)
  | closeOfNothing (routine : String)
  | externalCall (routine : String)
  | recursionCut (routine callee : String)
  | spawnSkipped (routine : String)
  | spawnRecursive (routine : String)
  | selectIndex (value : Instance)
  | storageMade (owner : Instance)
  | strayStore (routine : String) (addr : Operand)
  | closureMade (made : Instance) (func : String) (captures : Nat)
  | silentRemoved (count : Nat)
deriving DecidableEq, Repr

def Level.render : Level → String
  | trace => "TRACE"
  | debug => "DEBUG"
  | warn => "WARN"

/-- Whether events of a level are shown where those of level `least` and above are. -/
def Level.shownAt (least level : Level) : Bool :=
  match least, level with
  | trace, _ => true
  | debug, .trace => false
  | debug, _ => true
  | warn, .warn => true
  | warn, _ => false

def Loop.State.render : Loop.State → String
  | nonLoop => "NonLoop"
  | enter => "Enter"
  | body => "Body"
  | exit => "Exit"

def Loop.Move.render : Loop.Move → String
  | stay => "Stay"
  | pushed => "Pushed"
  | popped => "Popped"

/-- A block that may be missing. -/
def renderBlock? : Option Nat → String
  | some n => "Some(" ++ toString n ++ ")"
  | none => "None"

namespace Event

def level : Event → Level
  | compositeGlobal _ | bound .. | slotWritten .. | blockEntered .. | instrVisited _ => .trace
  | typeRedeclared _ | instrSkipped .. | indexOverflow .. | rangeTooLong .. | strayCase ..
  | routineMissing _ | calleeUnknown .. | receiverAbstract .. | receiverUnfit .. | methodMissing ..
  | closeOfNothing _ | recursionCut .. | spawnSkipped _ | strayStore .. => .warn
  | _ => .debug

def message : Event → String
  | typeRedeclared name => "type " ++ name ++ " declared more than once; keeping the last"
  | compositeGlobal _ => "composite global"
  | bound .. => "bind"
  | slotWritten .. => "slot write"
  | blockEntered .. => "enter block"
  | instrVisited _ => "visit"
  | alreadyScheduled _ => "already scheduled"
  | initialiserStarted _ => "running initialiser"
  | routineStarted => "visiting routine"
  | blockRevisited _ => "block already visited"
  | mergePointStarted _ => "merge point routine"
  | unboundReturn .. => "unbound return value"
  | instrSkipped .. => "skipping unsupported instruction"
  | aliasesReplaced .. => "rewrote aliases"
  | indexOverflow .. => "loop index overflows, stopping the unrolling"
  | indexCandidate .. => "loop index candidate"
  | staticLoop .. => "static loop"
  | rangeTooLong .. => "loop range too long to unroll, treating it as unbounded"
  | dynamicLoop _ => "dynamic loop"
  | mergeValueMade _ => "materialised merge value"
  | unrolling .. => "unrolling"
  | commaOkBranch _ => "branching on comma-ok test"
  | strayCase .. => "select case outside the routine of its select, treating it as a plain branch"
  | routineMissing _ => "call to a routine missing from the program"
  | calleeUnknown .. => "call through an unknown routine value"
  | receiverAbstract .. => "receiver is not concrete"
  | receiverUnfit .. => "receiver type does not implement the interface"
  | methodMissing .. => "no method on receiver type"
  | argumentUnbound _ => "argument has no binding yet"
  | closeOfNothing _ => "close without a channel"
  | externalCall _ => "external call"
  | recursionCut .. => "recursive call truncated"
  | spawnSkipped _ => "spawn of a routine without a body skipped"
  | spawnRecursive _ => "recursive spawn not queued again"
  | selectIndex _ => "select index"
  | storageMade _ => "storage allocated on first use"
  | strayStore .. => "store to a non-address ignored"
  | closureMade .. => "closure"
  | silentRemoved _ => "removed routines without communication"

/-- The named values of an event, in the order they are shown in. -/
def fields : Event → List (String × String)
  | typeRedeclared _ | routineStarted => []
  | compositeGlobal name => [("global", name)]
  | bound value held => [("value", value), ("instance", held.render)]
  | slotWritten owner kind => [("owner", owner.render), ("kind", kind.render)]
  | blockEntered block pred state moved =>
    [("block", toString block), ("pred", renderBlock? pred), ("state", state.render),
      ("moved", moved.render)]
  | instrVisited instr => [("instr", instr.render)]
  | alreadyScheduled routine | initialiserStarted routine | routineMissing routine
  | closeOfNothing routine | externalCall routine | spawnSkipped routine
  | spawnRecursive routine => [("routine", routine)]
  | blockRevisited block => [("block", toString block)]
  | mergePointStarted label => [("label", label)]
  | unboundReturn slot result => [("slot", toString slot), ("result", result.render)]
  | instrSkipped routine op => [("routine", routine), ("op", op)]
  | aliasesReplaced old new changed =>
    [("old", old.render), ("new", new.render), ("changed", toString changed)]
  | indexOverflow index step => [("index", toString index), ("step", toString step)]
  | indexCandidate var start step =>
    [("var", var), ("start", toString start), ("step", toString step)]
  | staticLoop start step last =>
    [("start", toString start), ("step", toString step), ("end", toString last)]
  | rangeTooLong start step last maxUnroll =>
    [("start", toString start), ("step", toString step), ("end", toString last),
      ("max_unroll", toString maxUnroll)]
  | dynamicLoop cond => [("cond", cond)]
  | mergeValueMade made => [("instance", made.render)]
  | unrolling index next => [("index", toString index), ("next", toString next)]
  | commaOkBranch cond => [("cond", cond.render)]
  | strayCase routine select => [("routine", routine), ("select", select)]
  | calleeUnknown routine callee => [("routine", routine), ("callee", callee.render)]
  | receiverAbstract routine receiver method | receiverUnfit routine receiver method
  | methodMissing routine receiver method =>
    [("routine", routine), ("recv", receiver.render), ("method", method)]
  | argumentUnbound param => [("param", param)]
  | recursionCut routine callee => [("routine", routine), ("callee", callee)]
  | selectIndex value => [("value", value.render)]
  | storageMade owner => [("owner", owner.render)]
  | strayStore routine addr => [("routine", routine), ("addr", addr.render)]
  | closureMade made func captures =>
    [("instance", made.render), ("func", func), ("captures", toString captures)]
  | silentRemoved count => [("removed", toString count)]

def render (e : Event) : String :=
  e.level.render ++ " " ++ e.message ++
    String.join (e.fields.map fun f => " " ++ f.1 ++ "=" ++ f.2)

end Event

/-! What the steps of a loop report -/

namespace Loop

def advanceEvent? (l : Loop) : Option Event := do
  let step ← l.step
  match Word.inRange? (l.index + step) with
  | some _ => none
  | none => return .indexOverflow l.index step

def candidateEvent? (l : Loop) (var : String) (start step : Int) : Option Event :=
  if l.bound = .unknown && l.indexVar = none then some (.indexCandidate var start step) else none

def conditionEvent? (l : Loop) (cond : String) (x : Option String) (op : BinOp)
    (bound : Option Int) (maxUnroll : Nat) : Option Event :=
  if l.bound = .unknown then
    match l.verdict x op bound maxUnroll with
    | .static start step last => some (.staticLoop start step last)
    | .tooLong start step last => some (.rangeTooLong start step last maxUnroll)
    | .dynamic => some (.dynamicLoop cond)
  else none

end Loop

end ChanFlow
