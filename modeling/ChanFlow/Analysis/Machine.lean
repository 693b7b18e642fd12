import ChanFlow.Analysis.Activation
import ChanFlow.Analysis.Context

/-!
The machine that interprets a program, and the steps it is built from.

A step works on the current activation and on the context. It ends with a result, with an error, or when
the budget of the machine is used up; what was reported before that stays. Interpreting an instruction,
following an edge and preparing an activation cost one each, so a machine with a smaller budget stops in
a state that a machine with a larger one passes through.
-/
namespace ChanFlow.Analysis

open Ssa

/-- What an analysis can be told. -/
structure Options where
  entry : String := "main.main"
  /-- A function run ahead of the entry, if the program has it. -/
  init : String := "main.init"
  /-- Whether routines that never come to use a channel are dropped. -/
  cleanUp : Bool := true
  /-- The largest number of iterations for which a static loop is unrolled. -/
  maxUnroll : Nat := 1000
deriving DecidableEq, Repr

structure Env where
  program : Program
  options : Options

/-- Why an analysis fails. -/
inductive Cause where
  | unknownBlock (func : String) (block : Nat)
  | protocol (error : Protocol.Error)
  | missingEntry (name : String)
  | unresolvedValue (routine : String) (value : Operand)
  | noMatchingPredecessor (routine value : String) (pred : Option Nat)
  | nonConstantCapacity (routine value : String)
  | notComposite (error : StorageError)
  | missingMethod (ty : Ty) (method routine : String)
deriving DecidableEq, Repr

/-- A cause, with the position of the instruction that came upon it if one is known. -/
structure Error where
  cause : Cause
  pos : Option Position := none
deriving DecidableEq, Repr

/-- What the analysis was about to do when it was stopped. -/
inductive Point where
  | instr (arrival : Arrival) (i : Instr)
  /-- Following the edge from block `src` to block `dst`. -/
  | edge (src dst : Nat)
  /-- Handing these channels to a new activation of a function. -/
  | handOver (func : String) (channels : List Protocol.Parameter)
  | block (arrival : Arrival)
  | nextTask
deriving DecidableEq, Repr

inductive Halt where
  | failed (error : Error)
  /-- The analysis did not come to an end within its budget. -/
  | stopped (point : Point)
  /-- No budget is enough: the type of a part was asked of a type that has no end of pointers. -/
  | endless (ty : Ty)
deriving DecidableEq, Repr

def Cause.message : Cause → String
  | unknownBlock func block => (LinkError.unknownBlock func block).message
  | protocol error => error.message
  | missingEntry name => "entry routine `" ++ name ++ "` not found"
  | unresolvedValue routine value =>
    "value `" ++ value.render ++ "` in `" ++ routine ++ "` has no binding"
  | noMatchingPredecessor routine value pred =>
    "merge point `" ++ value ++ "` in `" ++ routine ++ "` has no edge from block " ++
      renderBlock? pred
  | nonConstantCapacity routine value =>
    "channel `" ++ value ++ "` in `" ++ routine ++ "` has a non-constant capacity"
  | notComposite error =>
    "instance `" ++ error.owner.render ++ "` has no " ++ error.expected.render ++ " storage"
  | missingMethod ty method routine =>
    "method `" ++ method ++ "` of `" ++ ty.render ++ "` (called from `" ++ routine ++
      "`) has no routine"

def Error.message (e : Error) : String :=
  (e.pos.map (·.render ++ ": ")).getD "" ++ e.cause.message

/-- A position is attached once, by the instruction nearest to the cause that has one. -/
def Error.locate (e : Error) (pos : Option Position) : Error :=
  match e.pos with
  | some _ => e
  | none => { e with pos }

structure Machine where
  context : Context
  act : Activation
  tasks : TaskQueue := {}
  /-- How many more instructions, edges and new activations may be taken. -/
  budget : Nat
  log : Array Event := #[]

abbrev Run := EStateM Halt Machine

variable {α : Type}

def emit (e : Event) : Run Unit := modify fun m => { m with log := m.log.push e }

def emit? : Option Event → Run Unit
  | some e => emit e
  | none => pure ()

def stop (point : Point) : Run α := throw (.stopped point)

/-- Takes one from the budget, or stops. -/
def spend (point : Point) : Run Unit := fun m =>
  match m.budget with
  | 0 => .error (.stopped point) m
  | budget + 1 => .ok () { m with budget }

def failWith (cause : Cause) : Run α := throw (.failed ⟨cause, none⟩)

/-- Errors of a step get a position, unless they have one. -/
def located (pos : Option Position) (step : Run α) : Run α := fun m =>
  match step m with
  | .error (.failed e) m' => .error (.failed (e.locate pos)) m'
  | result => result

def activation : Run Activation := return (← get).act

def context : Run Context := return (← get).context

def tasks : Run TaskQueue := return (← get).tasks

def modifyActivation (f : Activation → Activation) : Run Unit :=
  modify fun m => { m with act := f m.act }

def modifyRoutine (f : Protocol.Routine → Protocol.Routine) : Run Unit :=
  modifyActivation fun a => { a with routine := f a.routine }

def modifyContext (f : Context → Context) : Run Unit :=
  modify fun m => { m with context := f m.context }

def setTasks (tasks : TaskQueue) : Run Unit := modify fun m => { m with tasks }

/-- A step of the routine under construction that can be refused. -/
def changeRoutine (f : Protocol.Routine → Except Protocol.Error (α × Protocol.Routine)) : Run α := do
  match f (← activation).routine with
  | .ok (a, r) =>
    modifyActivation (·.setRoutine r)
    return a
  | .error e => failWith (.protocol e)

def addStatement (s : Protocol.Statement) : Run Unit := modifyRoutine (·.addStatement s)

def numberActivation (routine : String) : Run Nat := do
  let c ← context
  modifyContext fun c => (c.numberActivation routine).2
  return (c.numberActivation routine).1

/-- Runs a step inside another activation, and gives that activation as the step leaves it. -/
def within (a : Activation) (step : Run Unit) : Run Activation := do
  let outer ← activation
  modifyActivation fun _ => a
  step
  let inner ← activation
  modifyActivation fun _ => outer
  return inner

end ChanFlow.Analysis
