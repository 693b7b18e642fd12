import ChanFlow.Analysis.Channels

/-!
Calls and spawns: finding the function, handing over arguments, and taking results.
-/
namespace ChanFlow.Analysis

open Ssa

/-- Interprets the block an arrival is at, and all that follows it. -/
abbrev Walker := Arrival → Run Unit

/-- What a call runs. -/
inductive Target where
  | routine (func : Function) (captures : List Instance) (receiver : Option Instance)
  /-- A function whose body is not known. -/
  | external (name : String)

def routineNamed (program : Program) (name : String) (captures : List Instance)
    (receiver : Option Instance) : Run Target := do
  match program.function? name with
  | some f => return if f.hasBody then .routine f captures receiver else .external name
  | none =>
    emit (.routineMissing name)
    return .external name

/-- Finds the function for a method by the type the receiver has here. -/
def methodTarget (program : Program) (receiver : Operand) (method : String) : Run Target := do
  let types := program.types
  let recv ← instanceOf receiver
  let f := (← activation).func
  match recv.ty?.filter (!types.isInterface ·) with
  | none =>
    emit (.receiverAbstract f.name recv method)
    return .external method
  | some concrete =>
    let declared := receiver.var?.bind f.valueType?
    if !(declared.map (types.satisfies concrete)).getD true then
      emit (.receiverUnfit f.name recv method)
      return .external method
    match types.method concrete method with
    | none =>
      emit (.methodMissing f.name recv method)
      return .external method
    | some routine =>
      if (program.function? routine).isNone then failWith (.missingMethod concrete method routine)
      routineNamed program routine [] (some recv)

def target (program : Program) : Callee → Run Target
  | .static func => routineNamed program func [] none
  | .builtin name => return .external name
  | .value x => do
    let i ← instanceOf? x
    match i.bind (← context).callables.get? with
    | some callable => routineNamed program callable.func callable.captures none
    | none =>
      emit (.calleeUnknown (← activation).func.name x)
      return .external x.render
  | .invoke receiver method => methodTarget program receiver method

/-- Hands an instance to a parameter of `callee`: the parameter is bound to it, storage it has in the
caller's scope comes with it, and a channel gets the name of the parameter. -/
def hand (types : TypeTable) (caller : Activation) (callee : Activation) (param : Param)
    (v : Instance) : Run Activation := do
  emit (.bound param.name v)
  let stored := match caller.storage.get? v with
    | some id => { callee with storage := callee.storage.insert v id }
    | none => callee
  let named :=
    if types.carriesChan param.ty then
      { stored with
        names := stored.names.insert v param.name
        routine := stored.routine.addParams [⟨caller.channelName v, param.name⟩] }
    else stored
  return named.bind param.name v

def handAll (types : TypeTable) (caller : Activation) (callee : Activation) :
    List (Param × Option Instance) → Run Activation
  | [] => return callee
  | (param, some v) :: rest => do handAll types caller (← hand types caller callee param v) rest
  | (param, none) :: rest => do
    emit (.argumentUnbound param.name)
    handAll types caller callee rest

/-- The activation for a call of `f` from the current one. -/
def calleeActivation (types : TypeTable) (f : Function) (args : List Operand) (captures : List Instance)
    (receiver : Option Instance) : Run Activation := do
  let caller ← activation
  let seq ← numberActivation f.name
  let values ← args.mapM instanceOf?
  let callee := Activation.start f seq (caller.callers ++ [caller.func.name]) f.name
  let callee ← handAll types caller callee
    (f.params.zip ((receiver.map some).toList ++ values) ++ f.freeVars.zip (captures.map some))
  spend (.handOver f.name callee.routine.params)
  return callee

/-- The result of a call of an unknown function. -/
def bindForeign (types : TypeTable) (routine : String) (value : String) (ty : Ty) : Run Unit := do
  let n ← numberActivation routine
  let i := Instance.external routine ty n
  match (types.underlying ty).tupleLength? with
  | some width =>
    modifyActivation fun a => { a with tuples := a.tuples.insert i (List.replicate width none) }
  | none => pure ()
  bindValue value i

/-- The storage of returned values comes back with them. -/
def takeStorage (callee : Activation) : List (Option Instance) → Run Unit
  | [] => pure ()
  | r :: rest => do
    match r.bind fun v => (callee.storage.get? v).map fun id => (v, id) with
    | some (v, id) => modifyActivation fun a => { a with storage := a.storage.insert v id }
    | none => pure ()
    takeStorage callee rest

/-- Binds the result of a call to what the callee returned. -/
def takeResults (types : TypeTable) (callee : Activation) (value : String) (ty : Ty) : Run Unit := do
  takeStorage callee callee.returned
  let i ← fresh value ty
  match (types.underlying ty).tupleLength? with
  | some width =>
    let parts := (List.range width).map fun k => callee.returned[k]?.join
    modifyActivation fun a => { a with tuples := a.tuples.insert i parts }
    bindValue value i
  | none => bindValue value (callee.returned.getLast?.join.getD i)

/-- The value a call defines, if it defines one. -/
abbrev Result := Option (String × Ty)

def bindFreshResult : Result → Run Unit
  | some (value, ty) => bindFresh value ty
  | none => pure ()

def bindForeignResult (types : TypeTable) (routine : String) : Result → Run Unit
  | some (value, ty) => bindForeign types routine value ty
  | none => pure ()

def takeResult (types : TypeTable) (callee : Activation) : Result → Run Unit
  | some (value, ty) => takeResults types callee value ty
  | none => pure ()

/-- Closing is an operation on a channel, and appending gives the slice that was appended to. The other
built-in functions make values the analysis does not look into. -/
def callBuiltin (name : String) (args : List Operand) (result : Result) : Run Unit := do
  match name, args, result with
  | "close", [], _ => emit (.closeOfNothing (← activation).func.name)
  | "close", chan :: _, _ => close chan
  | "append", slice :: _, some (value, ty) =>
    match ← instanceOf? slice with
    | some i => bindValue value i
    | none => bindFresh value ty
  | "append", _, _ => pure ()
  | _, _, result => bindFreshResult result

/-- Interprets the current activation from its entry, and adds its routine to the protocol. -/
def walkFunction (walk : Walker) : Run Unit := do
  emit .routineStarted
  let started := (← activation).routine.header
  modifyContext fun c => { c with protocol := c.protocol.add started }
  walk .entry
  let finished := (← activation).routine
  modifyContext fun c => { c with protocol := c.protocol.replace finished }

/-- Interprets a function on the spot, and adds the call of its routine. -/
def enterFunction (types : TypeTable) (walk : Walker) (f : Function) (args : List Operand)
    (captures : List Instance) (receiver : Option Instance) (result : Result) : Run Unit := do
  let callee ← calleeActivation types f args captures receiver
  let args := callee.routine.params.map (·.caller)
  let callee ← within callee (walkFunction walk)
  addStatement (.call callee.routine.name args)
  takeResult types callee result

/-- No function is entered a second time. -/
def callTarget (types : TypeTable) (walk : Walker) (args : List Operand) (result : Result) :
    Target → Run Unit
  | .external routine => do
    emit (.externalCall routine)
    bindForeignResult types routine result
  | .routine f captures receiver => do
    let caller ← activation
    if caller.reenters f.name then
      emit (.recursionCut caller.func.name f.name)
      bindFreshResult result
    else enterFunction types walk f args captures receiver result

def call (program : Program) (walk : Walker) (c : Call) (result : Result) : Run Unit := do
  match c.callee with
  | .builtin name => callBuiltin name c.args result
  | callee => callTarget program.types walk c.args result (← target program callee)

def enqueue (spawned : Activation) : Run Unit := do
  match (← tasks).enqueue? spawned with
  | some queue => setTasks queue
  | none => emit (.alreadyScheduled spawned.func.name)

/-- A spawned function is interpreted later, once. -/
def spawnTarget (types : TypeTable) (args : List Operand) : Target → Run Unit
  | .external _ => do emit (.spawnSkipped (← activation).func.name)
  | .routine f captures receiver => do
    let spawned ← calleeActivation types f args captures receiver
    addStatement (.spawn spawned.routine.name (spawned.routine.params.map (·.caller)))
    if (← activation).reenters f.name then emit (.spawnRecursive f.name)
    else enqueue spawned

def spawn (program : Program) (c : Call) : Run Unit := do
  spawnTarget program.types c.args (← target program c.callee)

def defer (c : Call) : Run Unit := modifyActivation fun a => { a with defers := a.defers ++ [c] }

/-- Runs the deferred calls, the last one first. They stay deferred. -/
def runDeferred (program : Program) (walk : Walker) : Run Unit := do
  (← activation).defers.reverse.forM fun c => call program walk c none

end ChanFlow.Analysis
