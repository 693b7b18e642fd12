import ChanFlow.Loop.Basic

/-!
The loops around a place in a function, kept up to date as the walk enters block after block.
-/
namespace ChanFlow

open Ssa

/-- What entering a block did to the enclosing loops. -/
inductive Loop.Move where
  | stay
  /-- A loop inside the current one was entered. -/
  | pushed
  /-- The current loop was left, and the one around it is current again. -/
  | popped
deriving DecidableEq, Repr

/-- The current loop and those around it, the innermost first. -/
structure Nest where
  current : Loop := {}
  outer : List Loop := []
deriving DecidableEq, Repr

namespace Nest

/-- A loop just entered at its header. -/
def entered (block : Nat) : Loop := { state := .enter, header := some block }

/-- Enters a block that plays the given part. A body reached without its header belongs to a loop without
a condition. -/
def enter (n : Nest) (block : Nat) (role : Role) : Nest × Loop.Move :=
  let current := if n.current.state = .exit then { n.current with state := .nonLoop } else n.current
  let stay (l : Loop) : Nest × Loop.Move := ({ n with current := l }, .stay)
  match current.state, role with
  | .nonLoop, .loopHeader => stay (entered block)
  | .nonLoop, .loopBody => stay { state := .body, bound := .dynamic }
  | .enter, .loopBody => stay { current with state := .body }
  | .enter, .loopDone | .body, .loopDone =>
    match n.outer with
    | [] => stay { current with state := .exit }
    | l :: rest => (⟨l, rest⟩, .popped)
  | .body, .loopHeader =>
    if current.header = some block then stay { current with state := .enter }
    else (⟨entered block, current :: n.outer⟩, .pushed)
  | .enter, .loopHeader =>
    if current.header = some block then stay current
    else (⟨entered block, current :: n.outer⟩, .pushed)
  | _, _ => stay current

/-- The index values of the static loops, the outermost first. -/
def signature (n : Nest) : List Int :=
  ((n.outer.reverse ++ [n.current]).filter (·.isStatic)).map (·.index)

end Nest

end ChanFlow
