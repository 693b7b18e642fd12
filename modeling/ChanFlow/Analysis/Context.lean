import ChanFlow.Event
import ChanFlow.Protocol.Basic

/-!
What lasts for a whole analysis: the values of globals, the storage reachable from anywhere, the function
values, and the protocol found so far.
-/
namespace ChanFlow.Analysis

open Ssa

/-- A function value: the function it runs and the instances it captured. -/
structure FunctionValue where
  func : String
  captures : List Instance
deriving DecidableEq, Repr

structure Context where
  /-- How many activations of each function there have been. -/
  counters : Table String Nat := {}
  globals : Table String Instance := {}
  heap : Scope := {}
  arena : Arena := {}
  callables : Table Instance FunctionValue := {}
  protocol : Protocol := {}
deriving DecidableEq, Repr

namespace Context

/-- A global is bound to an instance of its own; one of composite type has storage from the start. -/
def addGlobal (types : TypeTable) (c : Context) (g : Global) : Context :=
  let i := Instance.ofProgram g.name g.ty
  let bound := { c with globals := c.globals.insert g.name i }
  match c.arena.alloc (types.shape g.ty) with
  | some (id, arena) => { bound with arena, heap := c.heap.insert i id }
  | none => bound

def ofProgram (p : Program) : Context := p.globals.foldl (addGlobal p.types) {}

theorem protocol_addGlobal (types : TypeTable) (c : Context) (g : Global) :
    (c.addGlobal types g).protocol = c.protocol := by
  unfold addGlobal
  dsimp only
  split <;> rfl

/-- Setting up the globals finds nothing of the protocol. -/
theorem protocol_ofProgram (p : Program) : (ofProgram p).protocol = {} := by
  have kept (c : Context) : (p.globals.foldl (addGlobal p.types) c).protocol = c.protocol := by
    induction p.globals generalizing c with
    | nil => rfl
    | cons g rest ih => rw [List.foldl_cons, ih, protocol_addGlobal]
  exact kept {}

/-- What is reported when the globals are set up. -/
def setupEvents (p : Program) : List Event :=
  (p.globals.filter fun g => (p.types.shape g.ty).isComposite).map fun g => .compositeGlobal g.name

/-- The number for a new activation of a function. -/
def numberActivation (c : Context) (routine : String) : Nat × Context :=
  let n := (c.counters.get? routine).getD 0
  (n, { c with counters := c.counters.insert routine (n + 1) })

/-- The instance of a function used as a value. -/
def valueOfFunction (c : Context) (func : String) : Instance × Context :=
  let i := Instance.ofProgram func .func
  (i, match c.callables.get? i with
    | some _ => c
    | none => { c with callables := c.callables.insert i ⟨func, []⟩ })

end Context

end ChanFlow.Analysis
