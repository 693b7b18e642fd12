import ChanFlow.Protocol.Routine

/-!
Protocols: routines in order, found by name.

Cleaning up leaves the routines that can come to use a channel, and the entry routine, and drops every
call and spawn of any other.
-/
namespace ChanFlow

structure Protocol where
  routines : List Protocol.Routine := []
deriving DecidableEq, Repr

namespace Protocol

def routine? (p : Protocol) (name : String) : Option Routine := p.routines.find? (·.name = name)

/-- Adds a routine, unless there is one of its name. -/
def add? (p : Protocol) (r : Routine) : Option Protocol :=
  if (p.routine? r.name).isSome then none else some ⟨p.routines ++ [r]⟩

def add (p : Protocol) (r : Routine) : Protocol := (p.add? r).getD p

def put (r : Routine) : List Routine → List Routine
  | [] => [r]
  | q :: rest => if q.name = r.name then r :: rest else q :: put r rest

/-- The routine takes the place of the first one of its name, or comes last. -/
def replace (p : Protocol) (r : Routine) : Protocol := ⟨put r p.routines⟩

theorem find?_put (r : Routine) (name : String) (rs : List Routine) :
    (put r rs).find? (·.name = name) = if r.name = name then some r else rs.find? (·.name = name) := by
  induction rs with
  | nil => by_cases here : r.name = name <;> simp [put, here]
  | cons q rest ih =>
    unfold put
    by_cases same : q.name = r.name
    · by_cases here : r.name = name <;> simp [same, here]
    · rw [if_neg same, List.find?_cons, List.find?_cons, ih]
      by_cases here : q.name = name
      · simp [here, show r.name ≠ name from fun eq => same (here.trans eq.symm)]
      · simp [here]

theorem routine?_replace (p : Protocol) (r : Routine) (name : String) :
    (p.replace r).routine? name = if r.name = name then some r else p.routine? name :=
  find?_put r name p.routines

theorem mem_put {r q : Routine} {rs : List Routine} (member : q ∈ put r rs) : q = r ∨ q ∈ rs := by
  induction rs with
  | nil => exact .inl (List.mem_singleton.1 member)
  | cons first rest ih =>
    unfold put at member
    split at member
    · exact (List.mem_cons.1 member).imp_right (List.mem_cons_of_mem first)
    · rcases List.mem_cons.1 member with rfl | member
      · exact .inr List.mem_cons_self
      · exact (ih member).imp_right (List.mem_cons_of_mem first)

theorem mem_add {p : Protocol} {r q : Routine} (member : q ∈ (p.add r).routines) : q = r ∨ q ∈ p.routines := by
  unfold add add? at member
  split at member
  · exact .inr member
  · exact (List.mem_append.1 member).symm.imp_left List.mem_singleton.1

theorem routine?_add_of_ne (p : Protocol) {r : Routine} {name : String} (other : r.name ≠ name) :
    (p.add r).routine? name = p.routine? name := by
  unfold add add?
  split
  · rfl
  · simp [routine?, other]

/-- One round of collecting names: a routine is added if it uses a channel or names a routine collected
already. Later routines come first, so that a chain of calls down the list takes a single round. -/
def collectOnce (p : Protocol) (names : List String) : List String :=
  p.routines.foldr (fun r names =>
    if names.contains r.name then names
    else if r.communicates || r.callees.any names.contains then r.name :: names
    else names) names

/-- Rounds of collecting until one adds nothing. -/
def collect (p : Protocol) : Nat → List String → List String
  | 0, names => names
  | n + 1, names =>
    let next := p.collectOnce names
    if next.length = names.length then names else p.collect n next

/-- The names of the routines that can come to use a channel. Every round but the last adds a name, so
there are at most as many rounds as routines, and one more. -/
def communicating (p : Protocol) : List String := p.collect (p.routines.length + 1) []

def cleanUp (p : Protocol) (entry : String) : Protocol :=
  let kept := entry :: p.communicating
  ⟨(p.routines.filter fun r => kept.contains r.name).map fun r =>
    { r with stmts := Statement.restrictAll kept.contains r.stmts }⟩

def equivalentRoutines : List Routine → List Routine → Bool
  | [], [] => true
  | a :: as, b :: bs => a.equivalent b && equivalentRoutines as bs
  | _, _ => false

/-- The same routines in the same order, up to `tau` and to the names callers use. -/
def equivalent (p q : Protocol) : Bool := equivalentRoutines p.routines q.routines

def render (p : Protocol) : String := String.join (p.routines.map (·.render))

end Protocol

end ChanFlow
