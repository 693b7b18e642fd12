import ChanFlow.Analysis.Calls
import ChanFlow.Analysis.Merges

/-!
Following edges: jumps, branches, the cases of a select, and merge points.
-/
namespace ChanFlow.Analysis

open Ssa

/-- Interprets a merge point in a protocol routine of its own. -/
def walkMergePoint (walk : Walker) (label : String) (params : List Protocol.Parameter)
    (arrival : Arrival) : Run Unit := do
  emit (.mergePointStarted label)
  let routine := Protocol.Routine.addParams { name := label } params
  modifyContext fun c => { c with protocol := c.protocol.add routine.header }
  let outer := (← activation).routine
  modifyActivation (·.setRoutine routine)
  walk arrival
  let inner := (← activation).routine
  modifyActivation (·.setRoutine outer)
  modifyContext fun c => { c with protocol := c.protocol.replace inner }

/-- Every arrival at a merge point is a call of its routine, which is made on the first arrival at the
current index values. The way back to the header of a static loop leads straight on: there the index
values differ each time. -/
def arriveAt (walk : Walker) (src dst : Nat) : Run Unit := do
  let a ← activation
  match a.func.block? dst with
  | none => failWith (.unknownBlock a.func.name dst)
  | some block =>
    if !block.isMergePoint || a.loops.current.repeatsAt dst then walk (.along src dst)
    else
      let params := a.routine.continuationParams
      let args := params.map (·.callee)
      match a.labels.get? (a.key dst) with
      | some label => addStatement (.call label args)
      | none =>
        let label := a.mergeLabel dst
        modifyActivation fun a => { a with labels := a.labels.insert (a.key dst) label }
        addStatement (.call label args)
        walkMergePoint walk label params (.along src dst)

def followEdge (walk : Walker) (src dst : Nat) : Run Unit := do
  spend (.edge src dst)
  arriveAt walk src dst

def setAside : Run Unit := modifyRoutine (·.setAside)

/-- The statements set aside last become the current ones; the current ones are given. -/
def takeBody : Run (List Protocol.Statement) := changeRoutine fun r => do
  let (outer, rest) ← r.takeBack
  return (r.stmts, { rest with stmts := outer })

/-- Follows an edge and gives the statements it leads to. -/
def collect (walk : Walker) (src dst : Nat) : Run (List Protocol.Statement) := do
  setAside
  followEdge walk src dst
  takeBody

/-- Puts the loops back to what they were before another branch was followed. -/
def resetLoops (loops : Nest) : Run Unit := modifyActivation fun a => { a with loops }

/-- Both sides of a branch, as one statement. -/
def walkBothWays (walk : Walker) (src onTrue onFalse : Nat) : Run Unit := do
  let loops := (← activation).loops
  setAside
  followEdge walk src onTrue
  setAside
  resetLoops loops
  followEdge walk src onFalse
  setAside
  let takeBack : Run (List Protocol.Statement) := changeRoutine (·.takeBack)
  let elseBody ← takeBack
  let thenBody ← takeBack
  let before ← takeBack
  modifyRoutine fun r => { r with stmts := before }
  modifyRoutine (·.addBranch thenBody elseBody)

/-- The select and the number of the case a condition tests for. -/
def selectTest? (a : Activation) (cond : Operand) : Option (OpenSelect × Nat) := do
  let name ← cond.var?
  let definition ← a.func.definition? name
  match definition.op? with
  | some (.binary .eq x y) =>
    let (chosen, case) ← match x.int?, y.int? with
      | none, some case => some (x, case)
      | some case, none => some (y, case)
      | _, _ => none
    let chosenName ← chosen.var?
    let i ← a.resolve? chosenName
    let site ← a.selects.values.find? (·.index = some i)
    if 0 ≤ case then some (site, case.toNat) else none
  | _ => none

/-- What an edge leads to is the body of a case. -/
def collectCase (walk : Walker) (src dst slot case : Nat) : Run Unit := do
  let body ← collect walk src dst
  changeRoutine fun r => do return ((), ← r.extendCaseOf slot case body)

/-- A test for a case of a select: one side is the body of the case. The other side goes on with the next
test, or is what happens when no case is ready. -/
def walkCaseTest (walk : Walker) (src onTrue onFalse : Nat) (site : OpenSelect) (case : Nat) :
    Run Unit := do
  let a ← activation
  if site.routine ≠ a.routine.name || !a.routine.isSelectAt site.slot then
    emit (.strayCase a.routine.name site.routine)
    walkBothWays walk src onTrue onFalse
  else
    collectCase walk src onTrue site.slot case
    resetLoops a.loops
    if case + 1 = site.cases && !site.blocking then
      collectCase walk src onFalse site.slot site.cases
    else followEdge walk src onFalse

def noteCommaOk (cond : Operand) : Run Unit := do
  let a ← activation
  match cond.var?.bind a.resolve? with
  | some i => if a.commaOk.values.contains (some i) then emit (.commaOkBranch cond)
  | none => pure ()

/-- A loop nothing is known of at the branch of its header is dynamic. -/
def settleLoop (arrival : Arrival) : Run Unit := do
  if atHeader (← activation) arrival then changeLoop (fun _ => none) (·.settle)

/-- The comparison of a static loop has a known outcome; any other branch can go either way. -/
def branch (walk : Walker) (arrival : Arrival) (cond : Operand) (onTrue onFalse : Nat) : Run Unit := do
  settleLoop arrival
  let a ← activation
  let l := a.loops.current
  if l.isStatic && cond.var? = l.condVar then
    let next := if l.hasNext then onTrue else onFalse
    emit (.unrolling l.index next)
    followEdge walk arrival.block next
  else
    match selectTest? a cond with
    | some (site, case) => walkCaseTest walk arrival.block onTrue onFalse site case
    | none =>
      noteCommaOk cond
      walkBothWays walk arrival.block onTrue onFalse

end ChanFlow.Analysis
