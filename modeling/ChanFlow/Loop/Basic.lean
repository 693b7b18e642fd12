import ChanFlow.Ssa.Function
import ChanFlow.Word

/-!
A loop as a walk through a function sees it: where in the loop the walk is, and what is known of its
range. A loop that counts from a constant by a constant step up or down to a constant is static, and
is walked once for each value of its index.
-/
namespace ChanFlow

open Ssa

/-- Where the walk is relative to a loop. -/
inductive Loop.State where
  | nonLoop | enter | body | exit
deriving DecidableEq, Repr

/-- What is known of the range of a loop. -/
inductive Loop.Bound where
  | unknown | static | dynamic
deriving DecidableEq, Repr

structure Loop where
  state : Loop.State := .nonLoop
  bound : Loop.Bound := .unknown
  header : Option Nat := none
  /-- The phi the loop counts with. -/
  indexVar : Option String := none
  /-- The comparison that decides whether the loop goes on. -/
  condVar : Option String := none
  start : Option Int := none
  step : Option Int := none
  /-- The last value of the index for which the comparison can hold. -/
  last : Option Int := none
  /-- The current value of the index; zero unless the loop is static. -/
  index : Int := 0
deriving DecidableEq, Repr

namespace Loop

/-- The last value admitted by the comparison `index op bound`, if the index moves towards it and it is
in range. -/
def lastIndex? (step : Int) (op : BinOp) (bound : Int) : Option Int :=
  match op with
  | .lt => if 0 < step then Word.inRange? (bound - 1) else none
  | .le => if 0 < step then some bound else none
  | .gt => if step < 0 then Word.inRange? (bound + 1) else none
  | .ge => if step < 0 then some bound else none
  | _ => none

/-- How many values the index takes on its way from `start` to `last`, if their distance is in range. -/
def iterations? (start step last : Int) : Option Nat :=
  if step = 0 then some 0
  else do
    let span ← Word.inRange? (if 0 < step then last - start else start - last)
    return if span < 0 then 0 else span.toNat / step.natAbs + 1

def isStatic (l : Loop) : Bool := l.bound = .static

/-- Whether the current index still belongs to the range of a static loop. -/
def hasNext (l : Loop) : Bool :=
  match l.bound, l.step, l.last with
  | .static, some step, some last =>
    if 0 < step then l.index ≤ last
    else if step < 0 then last ≤ l.index
    else false
  | _, _, _ => false

/-- The next value of the index. Leaving the range of integers ends the loop instead. -/
def advance (l : Loop) : Loop :=
  match l.step with
  | none => l
  | some step =>
    match Word.inRange? (l.index + step) with
    | some next => { l with index := next }
    | none => { l with last := none }

/-- Whether `block` is the header of this static loop, come back to from its body. -/
def repeatsAt (l : Loop) (block : Nat) : Bool :=
  l.isStatic && l.state = .body && l.header = some block

/-- Notes a phi that starts at a constant and moves by a constant. The first one counts. -/
def noteIndex (l : Loop) (var : String) (start step : Int) : Loop :=
  if l.bound = .unknown && l.indexVar = none then
    { l with indexVar := some var, start := some start, step := some step }
  else l

/-- What the comparison of a header tells about the loop. -/
inductive Verdict where
  | static (start step last : Int)
  | tooLong (start step last : Int)
  | dynamic
deriving DecidableEq, Repr

/-- A comparison of the noted index with a constant gives a range if its last value, and the value after
that, are in range. -/
def range? (l : Loop) (x : Option String) (op : BinOp) (bound : Option Int) :
    Option (Int × Int × Int × Nat) := do
  let var ← l.indexVar
  let x ← x
  let start ← l.start
  let step ← l.step
  let bound ← bound
  if var = x then
    let last ← lastIndex? step op bound
    let _ ← Word.inRange? (last + step)
    let count ← iterations? start step last
    return (start, step, last, count)
  else none

def verdict (l : Loop) (x : Option String) (op : BinOp) (bound : Option Int) (maxUnroll : Nat) :
    Verdict :=
  match l.range? x op bound with
  | some (start, step, last, count) =>
    if count ≤ maxUnroll then .static start step last else .tooLong start step last
  | none => .dynamic

/-- Settles what kind of loop this is by its comparison `x op bound`, once. -/
def noteCondition (l : Loop) (cond : String) (x : Option String) (op : BinOp)
    (bound : Option Int) (maxUnroll : Nat) : Loop :=
  if l.bound = .unknown then
    match l.verdict x op bound maxUnroll with
    | .static start _ last =>
      { l with condVar := some cond, bound := .static, last := some last, index := start }
    | _ => { l with condVar := some cond, bound := .dynamic }
  else l

/-- A loop nothing is known of at its branch is dynamic. -/
def settle (l : Loop) : Loop := if l.bound = .unknown then { l with bound := .dynamic } else l

end Loop

end ChanFlow
