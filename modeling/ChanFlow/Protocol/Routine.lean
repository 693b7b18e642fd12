import ChanFlow.Protocol.Statement
import ChanFlow.Text.Location

/-!
Routines of a protocol, finished or under construction.

Statements go to the end of the current list. To build a branch or a case the current list is set aside
and an empty one started; the list set aside last is taken back first.
-/
namespace ChanFlow.Protocol

/-- A channel handed to a routine: the caller's name for it and the routine's own. -/
structure Parameter where
  caller : String
  callee : String
deriving DecidableEq, Repr

/-- A parameter handed on under its own name. -/
def Parameter.same (name : String) : Parameter := ⟨name, name⟩

inductive Error where
  /-- The text does not follow the grammar. -/
  | mismatch (location : Text.Location)
  | capacity (numeral : String)
  | duplicateRoutine (name : String)
  | emptyStack (routine : String)
  | missingSelect (routine : String) (slot : Nat)
deriving DecidableEq, Repr

def Error.message : Error → String
  | mismatch location =>
    "failed to parse protocol text: line " ++ toString location.line ++ ", column " ++
      toString location.column
  | capacity numeral => "invalid protocol text: invalid capacity `" ++ numeral ++ "`"
  | duplicateRoutine name => "invalid protocol text: routine `" ++ name ++ "` is defined twice"
  | emptyStack routine => "routine `" ++ routine ++ "` has no put-away statements to restore"
  | missingSelect routine slot =>
    "routine `" ++ routine ++ "` has no select statement at position " ++ toString slot

structure Routine where
  name : String
  params : List Parameter := []
  stmts : List Statement := []
  /-- The lists set aside, the last one first. -/
  waiting : List (List Statement) := []
deriving DecidableEq, Repr

namespace Routine

/-- Name and parameters without statements. -/
def header (r : Routine) : Routine := { name := r.name, params := r.params }

/-- A parameter whose own name is taken is passed over. -/
def addParam (params : List Parameter) (p : Parameter) : List Parameter :=
  if params.any (·.callee = p.callee) then params else params ++ [p]

def addParams (r : Routine) (ps : List Parameter) : Routine :=
  { r with params := ps.foldl addParam r.params }

/-- No two parameters have the same own name. -/
def Distinct (ps : List Parameter) : Prop := (ps.map (·.callee)).Nodup

theorem Distinct.addParam {ps : List Parameter} (distinct : Distinct ps) (p : Parameter) :
    Distinct (addParam ps p) := by
  unfold Routine.addParam
  split
  · exact distinct
  · next free =>
    simp only [List.any_eq_true, decide_eq_true_eq, not_exists, not_and] at free
    rw [Distinct, List.map_append, List.nodup_append]
    refine ⟨distinct, by simp, fun name taken other new same => ?_⟩
    obtain ⟨q, member, rfl⟩ := List.mem_map.1 taken
    obtain rfl : other = p.callee := by simpa using new
    exact free q member same

theorem Distinct.foldl {α : Type} {f : α → Parameter} {ps : List Parameter} (distinct : Distinct ps)
    (as : List α) : Distinct (as.foldl (fun ps a => Routine.addParam ps (f a)) ps) := by
  induction as generalizing ps with
  | nil => exact distinct
  | cons a rest ih => exact ih (distinct.addParam (f a))

/-- Parameters with different names are all taken over. -/
theorem foldl_addParam {ps qs : List Parameter} (distinct : Distinct (ps ++ qs)) :
    qs.foldl addParam ps = ps ++ qs := by
  induction qs generalizing ps with
  | nil => simp
  | cons q rest ih =>
    have free : addParam ps q = ps ++ [q] := by
      refine if_neg fun taken => ?_
      obtain ⟨p, member, same⟩ := List.any_eq_true.1 taken
      rw [Distinct, List.map_append, List.nodup_append] at distinct
      exact distinct.2.2 p.callee (List.mem_map_of_mem member) q.callee (by simp) (by simpa using same)
    rw [List.foldl_cons, free, ih (by rwa [List.append_assoc]), List.append_assoc]
    rfl

/-- A `tau` at the end gives way to what follows it. -/
def append (stmts : List Statement) (s : Statement) : List Statement :=
  if stmts.getLast? = some .tau then stmts.dropLast ++ [s] else stmts ++ [s]

def addStatement (r : Routine) (s : Statement) : Routine := { r with stmts := append r.stmts s }

def addStatements (r : Routine) (ss : List Statement) : Routine := ss.foldl addStatement r

/-- Does nothing but `tau`. -/
def idle (ss : List Statement) : Bool := ss.all (·.isTau)

/-- A branch of which both sides do nothing is a `tau`. -/
def addBranch (r : Routine) (onTrue onFalse : List Statement) : Routine :=
  r.addStatement (if idle onTrue && idle onFalse then .tau else .branch onTrue onFalse)

def setAside (r : Routine) : Routine := { r with stmts := [], waiting := r.stmts :: r.waiting }

/-- The list set aside last, and the routine without it. -/
def takeBack (r : Routine) : Except Error (List Statement × Routine) :=
  match r.waiting with
  | [] => .error (.emptyStack r.name)
  | stmts :: waiting => .ok (stmts, { r with waiting })

/-- A case extended by statements. `tau` stays only as the whole of a case. -/
def extendCase (case stmts : List Statement) : List Statement :=
  match Statement.withoutTau case ++ Statement.withoutTau stmts with
  | [] => [.tau]
  | extended => extended

/-- Extends a case of the select at position `slot` of the current list. A case the select does not have
is passed over. -/
def extendCaseOf (r : Routine) (slot case : Nat) (stmts : List Statement) :
    Except Error Routine :=
  match r.stmts[slot]? with
  | some (.select cases) =>
    .ok { r with stmts := r.stmts.set slot (.select (cases.modify case (extendCase · stmts))) }
  | _ => .error (.missingSelect r.name slot)

def isSelectAt (r : Routine) (slot : Nat) : Bool :=
  match r.stmts[slot]? with
  | some (.select _) => true
  | _ => false

/-- The channels created in a statement list, not counting its branches and cases. -/
def created (ss : List Statement) : List String :=
  ss.filterMap fun
    | .newChan name _ => some name
    | _ => none

/-- The parameters for a routine that continues this one: its own, and every channel created in a list
that is still open. -/
def continuationParams (r : Routine) : List Parameter :=
  let opened := r.waiting.reverse ++ [r.stmts]
  (opened.flatMap created).foldl (fun ps name => addParam ps (.same name))
    (r.params.map fun p => .same p.callee)

theorem distinct_continuationParams {r : Routine} (distinct : Distinct r.params) : Distinct r.continuationParams := by
  refine Distinct.foldl ?_ _
  rwa [Distinct, List.map_map]

def isEmpty (r : Routine) : Bool := idle r.stmts

def communicates (r : Routine) : Bool := Statement.anyCommunicates r.stmts

def callees (r : Routine) : List String := Statement.calleesOfAll r.stmts

/-- Same name, same own parameter names and the same statements up to `tau`. -/
def equivalent (a b : Routine) : Bool :=
  a.name = b.name && a.params.map (·.callee) = b.params.map (·.callee) &&
    Statement.equivalentAll a.stmts b.stmts

def render (r : Routine) : String :=
  "def " ++ r.name ++ "(" ++ ", ".intercalate (r.params.map (·.callee)) ++ "):\n" ++
    Statement.renderBody 1 r.stmts

end Routine

end ChanFlow.Protocol
