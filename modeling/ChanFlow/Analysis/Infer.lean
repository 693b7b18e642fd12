import ChanFlow.Analysis.Branches
import ChanFlow.Analysis.Composites

/-!
Inferring the protocol of a program.

The entry function is interpreted block by block, then every function that was spawned on the way. The
functions before this point interpret one instruction each; they are given the interpretation of blocks
as an argument, and `walkBlock` closes the circle. Every block ends in an instruction, so the budget
also bounds how deep blocks and calls follow one another.
-/
namespace ChanFlow.Analysis

open Ssa

def returnValues : Nat → List Operand → Run Unit
  | _, [] => pure ()
  | slot, x :: rest => do
    match ← instanceOf? x with
    | some i => modifyActivation (·.setReturned slot i)
    | none => emit (.unboundReturn slot x)
    returnValues (slot + 1) rest

def skipUnmodelled (op : String) : Run Unit := do
  emit (.instrSkipped (← activation).func.name op)

def define (env : Env) (walk : Walker) (arrival : Arrival) (value : String) (ty : Ty) :
    ValueOp → Run Unit
  | .alloc scope => alloc env.program.types value ty scope
  | .binary op x y => binary env.options.maxUnroll arrival value ty op x y
  | .recv chan commaOk => recv value ty chan commaOk
  | .deref x => deref env.program.types value ty x
  | .unary .. => bindFresh value ty
  | .call c => call env.program walk c (some (value, ty))
  | .convert _ x => bindOperand value x
  | .extract tuple i => extract value ty tuple i
  | .field x i => field env.program.types value ty x i false
  | .fieldAddr x i => field env.program.types value ty x i true
  | .index x i => index env.program.types value ty x i false
  | .indexAddr x i => index env.program.types value ty x i true
  | .lookup map key commaOk => lookup env.program.types value ty map key commaOk
  | .makeChan capacity => makeChan value ty capacity
  | .makeClosure func bindings => makeClosure value ty func bindings
  | .makeMap => makeContainer env.program.types value ty
  | .makeSlice _ => makeContainer env.program.types value ty
  | .next _ => bindFresh value ty
  | .range _ => bindFresh value ty
  | .phi edges => phi arrival value edges
  | .select blocking cases => select env.program.types value ty blocking cases
  | .slice x => slice env.program.types value ty x
  | .typeAssert x commaOk => typeAssert value ty x commaOk
  | .unmodelled op _ => skipUnmodelled op

def perform (env : Env) (walk : Walker) (arrival : Arrival) : Effect → Run Unit
  | .jump target => followEdge walk arrival.block target
  | .branch cond onTrue onFalse => branch walk arrival cond onTrue onFalse
  | .ret results => returnValues 0 results
  | .send chan _ => send chan
  | .store addr value => store env.program addr value
  | .mapUpdate map key value => mapUpdate env.program.types map key value
  | .go c => spawn env.program c
  | .defer c => defer c
  | .call c => call env.program walk c none
  | .runDefers => runDeferred env.program walk
  | .panic _ => pure ()
  | .unmodelled op _ => skipUnmodelled op

def interpret (env : Env) (walk : Walker) (arrival : Arrival) : Action → Run Unit
  | .define value ty op => define env walk arrival value ty op
  | .perform effect => perform env walk arrival effect

def walkInstr (env : Env) (walk : Walker) (arrival : Arrival) (i : Instr) : Run Unit :=
  located i.pos do
    emit (.instrVisited i)
    spend (.instr arrival i)
    interpret env walk arrival i.action

/-- Interprets the instructions of a block, unless that was done at the current index values. -/
def visitBlock (env : Env) (walk : Walker) (arrival : Arrival) (block : Block) : Run Unit := do
  if (← activation).hasVisited block.index then emit (.blockRevisited block.index)
  else
    modifyActivation (·.noteVisit block.index)
    block.instrs.forM (walkInstr env walk arrival)

def enterBlock (env : Env) (walk : Walker) (arrival : Arrival) : Run Unit := do
  let a ← activation
  match a.func.block? arrival.block with
  | none => failWith (.unknownBlock a.func.name arrival.block)
  | some block =>
    let (loops, moved) := a.loops.enter block.index block.role
    modifyActivation fun a => { a with loops }
    emit (.blockEntered block.index arrival.pred loops.current.state moved)
    visitBlock env walk arrival block

/-- Interprets a block and what follows it, at most so many blocks deep. -/
def walkBlock (env : Env) : Nat → Walker
  | 0, arrival => stop (.block arrival)
  | depth + 1, arrival => enterBlock env (walkBlock env depth) arrival

/-- Interprets the queued functions in order, also those queued meanwhile, at most so many. No function is
queued twice, so there are no more of them than functions. -/
def drain (walk : Walker) : Nat → Run Unit
  | 0 => stop .nextTask
  | count + 1 => do
    match (← tasks).next? with
    | none => pure ()
    | some (a, rest) =>
      setTasks rest
      let _ ← within a (walkFunction walk)
      drain walk count

/-- The initialiser, if there is one, comes first and starts the routine of the entry function. -/
def initialise (env : Env) (walk : Walker) : Run Unit := do
  match (env.program.function? env.options.init).filter (·.hasBody) with
  | none => pure ()
  | some init =>
    emit (.initialiserStarted init.name)
    let seq ← numberActivation init.name
    let entry := (← activation).func.name
    let a ← within (Activation.start init seq [] entry) (walk .entry)
    modifyActivation (·.setRoutine a.routine)

def analyseWith (env : Env) (walk : Walker) : Run Protocol := do
  initialise env walk
  walkFunction walk
  drain walk (env.program.functions.length + 1)
  let found := (← context).protocol
  if env.options.cleanUp then
    let cleaned := found.cleanUp env.options.entry
    emit (.silentRemoved (found.routines.length - cleaned.routines.length))
    return cleaned
  else return found

/-- No run is deeper than its budget. -/
def analyse (env : Env) : Run Protocol := do
  let budget := (← get).budget
  analyseWith env (walkBlock env (budget + 1))

/-- The state an analysis starts in, before anything of the entry function is interpreted. -/
def Machine.start (program : Program) (entry : Function) (budget : Nat) : Machine :=
  let (seq, context) := (Context.ofProgram program).numberActivation entry.name
  { context
    act := Activation.start entry seq [] entry.name
    budget
    log := (Context.setupEvents program).toArray }

/-- What an analysis gives: a protocol or the reason there is none, and the events on the way. -/
structure Outcome where
  result : Except Halt Protocol
  log : Array Event

/-- Infers the protocol of a program, taking at most `budget` instructions, edges and new activations. -/
def infer (budget : Nat) (program : Program) (options : Options) : Outcome :=
  match (program.function? options.entry).filter (·.hasBody) with
  | none =>
    ⟨.error (.failed ⟨.missingEntry options.entry, none⟩), (Context.setupEvents program).toArray⟩
  | some entry =>
    match analyse ⟨program, options⟩ (Machine.start program entry budget) with
    | .ok protocol m => ⟨.ok protocol, m.log⟩
    | .error halt m => ⟨.error halt, m.log⟩

end ChanFlow.Analysis
