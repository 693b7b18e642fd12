import ChanFlow.Protocol.Basic
import ChanFlow.Ssa.Function

/-!
Traces of channel operations, of a function and of a protocol.

A function performs the operations of the blocks along a path from a block to one that goes no further. A
protocol performs the operations of a list of statements: a branch takes either side, a call puts the body of
the routine in its place and `tau` does nothing.

`Code` says how a protocol spells out a function: block after block, with a call where the walk goes on in a
routine of its own, and `tau` for a branch that has nothing to choose between. If the body of every such
routine is code for its block, code has the traces of the paths it is code for (`runs_iff_path`).
-/
namespace ChanFlow

open Ssa Protocol

variable {rest ss t e : List Statement} {b : Nat}

/-- An operation on a channel, by the channel's name. -/
inductive ChanOp where
  | newChan (name : String) (capacity : Int)
  | send (chan : String)
  | recv (chan : String)
  | close (chan : String)
deriving DecidableEq, Repr

def ChanOp.statement : ChanOp → Statement
  | newChan name capacity => .newChan name capacity
  | send chan => .send chan
  | recv chan => .recv chan
  | close chan => .close chan

namespace Protocol

/-- The traces of a list of statements. -/
inductive Runs (p : Protocol) : List Statement → List ChanOp → Prop
  | done : Runs p [] []
  | perform {rest : List Statement} {ops : List ChanOp} (op : ChanOp) (next : Runs p rest ops) :
    Runs p (op.statement :: rest) (op :: ops)
  | tau {rest : List Statement} {ops : List ChanOp} (next : Runs p rest ops) : Runs p (.tau :: rest) ops
  | onTrue {t e rest : List Statement} {ops : List ChanOp} (next : Runs p (t ++ rest) ops) :
    Runs p (.branch t e :: rest) ops
  | onFalse {t e rest : List Statement} {ops : List ChanOp} (next : Runs p (e ++ rest) ops) :
    Runs p (.branch t e :: rest) ops
  | call {name : String} {args : List String} {r : Routine} {rest : List Statement} {ops : List ChanOp}
    (known : p.routine? name = some r) (next : Runs p (r.stmts ++ rest) ops) : Runs p (.call name args :: rest) ops

variable {p : Protocol}

theorem Runs.prepend {after : List ChanOp} (next : Runs p rest after) (ops : List ChanOp) :
    Runs p (ops.map (·.statement) ++ rest) (ops ++ after) := by
  induction ops with
  | nil => exact next
  | cons op ops ih => exact ih.perform op

variable {ops : List ChanOp}

/-- Statements that do nothing have the empty trace only. -/
theorem Runs.eq_nil_of_idle (runs : Runs p ss ops) (idle : Routine.idle ss) : ops = [] := by
  induction runs with
  | done => rfl
  | perform op => cases op <;> simp [Routine.idle, ChanOp.statement, Statement.isTau] at idle
  | tau _ ih => exact ih (by simpa [Routine.idle, Statement.isTau] using idle)
  | onTrue | onFalse | call => simp [Routine.idle, Statement.isTau] at idle

end Protocol

namespace Ssa

/-- The operation an instruction performs on a channel held in a local value. -/
def Instr.chanOp? (i : Instr) : Option ChanOp :=
  match i.action with
  | .define value _ (.makeChan capacity) => capacity.int?.map (.newChan value)
  | .define _ _ (.recv (.var chan) _) => some (.recv chan)
  | .define _ _ (.call ⟨.builtin "close", .var chan :: _⟩) => some (.close chan)
  | .perform (.call ⟨.builtin "close", .var chan :: _⟩) => some (.close chan)
  | .perform (.send (.var chan) _) => some (.send chan)
  | _ => none

def Block.ops (b : Block) : List ChanOp := b.instrs.filterMap (·.chanOp?)

/-- The operations along a path from a block to one without successors, which ends in a return or a panic. -/
inductive Function.Path (f : Function) : Nat → List ChanOp → Prop
  | stop {b : Nat} {block : Block} (found : f.block? b = some block) (last : block.succs = []) : Path f b block.ops
  | step {b t : Nat} {block : Block} {ops : List ChanOp} (found : f.block? b = some block) (edge : t ∈ block.succs)
    (next : Path f t ops) : Path f b (block.ops ++ ops)

end Ssa

namespace Analysis

/-- The name of the routine for a merge point outside of all counted loops. -/
def mergeName (f : Function) (b : Nat) : String := f.name ++ "#" ++ toString b

/-- A place code can stand for: a block, or an edge into it. -/
inductive Place where
  | block (b : Nat)
  | edge (b : Nat)

/-- The block that is interpreted first. -/
@[simp] def Place.first : Place → Nat
  | block b => b
  | edge b => b

/-- One statement for a branch. -/
def branchStatement (t e : List Statement) : Statement :=
  if Routine.idle t && Routine.idle e then .tau else .branch t e

/-- Statements that stand for what follows from a place, given the merge points that have a routine. -/
inductive Code (f : Function) (labelled : Nat → Prop) : Place → List Statement → Prop
  | stop {b : Nat} {block : Block} (found : f.block? b = some block) (last : block.succs = []) :
    Code f labelled (.block b) (block.ops.map (·.statement))
  | jump {b t : Nat} {block : Block} {code : List Statement} (found : f.block? b = some block)
    (edge : block.succs = [t]) (next : Code f labelled (.edge t) code) :
    Code f labelled (.block b) (block.ops.map (·.statement) ++ code)
  | branch {b t e : Nat} {block : Block} {onTrue onFalse : List Statement} (found : f.block? b = some block)
    (edges : block.succs = [t, e]) (left : Code f labelled (.edge t) onTrue)
    (right : Code f labelled (.edge e) onFalse) :
    Code f labelled (.block b) (block.ops.map (·.statement) ++ [branchStatement onTrue onFalse])
  | inline {b : Nat} {code : List Statement} (here : Code f labelled (.block b) code) : Code f labelled (.edge b) code
  | call {b : Nat} (known : labelled b) (args : List String) : Code f labelled (.edge b) [.call (mergeName f b) args]

variable {place : Place}

theorem Code.mono {f : Function} {labelled labelled' : Nat → Prop}
    (more : ∀ b, labelled b → labelled' b) (code : Code f labelled place ss) : Code f labelled' place ss := by
  induction code with
  | stop found last => exact .stop found last
  | jump found edge _ ih => exact .jump found edge ih
  | branch found edges _ _ ih ih' => exact .branch found edges ih ih'
  | inline _ ih => exact .inline ih
  | call known args => exact .call (more _ known) args

/-- Every merge point with a label has a routine, and its body is code for the merge point. -/
def Supplies (p : Protocol) (f : Function) (labelled : Nat → Prop) : Prop :=
  ∀ b, labelled b → ∃ r, p.routine? (mergeName f b) = some r ∧ Code f labelled (.block b) r.stmts

theorem runs_branchStatement {p : Protocol}
    (either : Runs p t ops ∨ Runs p e ops) : Runs p [branchStatement t e] ops := by
  unfold branchStatement
  split
  · next idle =>
    obtain ⟨idleT, idleE⟩ := Bool.and_eq_true_iff.1 idle
    obtain rfl : ops = [] := either.elim (·.eq_nil_of_idle idleT) (·.eq_nil_of_idle idleE)
    exact .tau .done
  · rcases either with runs | runs
    · exact .onTrue (by rwa [List.append_nil])
    · exact .onFalse (by rwa [List.append_nil])

/-- No traces but those in `allowed`, provided that calls have no traces but paths. -/
inductive Confined (f : Function) (labelled : Nat → Prop) : List Statement → (List ChanOp → Prop) → Prop
  | done {allowed : List ChanOp → Prop} (here : allowed []) : Confined f labelled [] allowed
  | perform {rest : List Statement} {allowed : List ChanOp → Prop} (op : ChanOp)
    (next : Confined f labelled rest fun ops => allowed (op :: ops)) :
    Confined f labelled (op.statement :: rest) allowed
  | tau {allowed : List ChanOp → Prop} (here : allowed []) : Confined f labelled [.tau] allowed
  | branch {t e : List Statement} {allowed : List ChanOp → Prop} (left : Confined f labelled t allowed)
    (right : Confined f labelled e allowed) : Confined f labelled [.branch t e] allowed
  | call {b : Nat} {args : List String} {allowed : List ChanOp → Prop} (known : labelled b)
    (paths : ∀ ops, f.Path b ops → allowed ops) : Confined f labelled [.call (mergeName f b) args] allowed

section

variable {p : Protocol} {f : Function} {labelled : Nat → Prop}

namespace Confined

variable {allowed : List ChanOp → Prop}

theorem mono {allowed' : List ChanOp → Prop} (confined : Confined f labelled ss allowed)
    (more : ∀ ops, allowed ops → allowed' ops) : Confined f labelled ss allowed' := by
  induction confined generalizing allowed' with
  | done here => exact .done (more _ here)
  | perform op _ ih => exact .perform op (ih fun _ => more _)
  | tau here => exact .tau (more _ here)
  | branch _ _ ih ih' => exact .branch (ih more) (ih' more)
  | call known paths => exact .call known fun ops path => more ops (paths ops path)

theorem prepend (ops : List ChanOp) (next : Confined f labelled rest fun after => allowed (ops ++ after)) :
    Confined f labelled (ops.map (·.statement) ++ rest) allowed := by
  induction ops generalizing allowed with
  | nil => exact next
  | cons op ops ih => exact .perform op (ih next)

theorem nil_of_idle (confined : Confined f labelled ss allowed) (idle : Routine.idle ss) : allowed [] := by
  cases confined with
  | done here => exact here
  | perform op => cases op <;> simp [Routine.idle, ChanOp.statement, Statement.isTau] at idle
  | tau here => exact here
  | branch | call => simp [Routine.idle, Statement.isTau] at idle

theorem branchStatement (left : Confined f labelled t allowed)
    (right : Confined f labelled e allowed) : Confined f labelled [branchStatement t e] allowed := by
  unfold Analysis.branchStatement
  split
  · next idle => exact .tau (left.nil_of_idle (Bool.and_eq_true_iff.1 idle).1)
  · exact .branch left right

end Confined

/-- Code is confined to the paths it is code for. -/
theorem Code.confined (code : Code f labelled place ss) : Confined f labelled ss (f.Path place.first) := by
  induction code with
  | @stop b block found last =>
    have here : f.Path b (block.ops ++ []) := (List.append_nil block.ops).symm ▸ .stop found last
    simpa using Confined.prepend block.ops (.done here)
  | @jump b t block ss found edge _ ih => exact .prepend block.ops (ih.mono fun _ => .step found (by simp [edge]))
  | @branch b t e block onTrue onFalse found edges _ _ ih ih' =>
    refine .prepend block.ops (.branchStatement (ih.mono fun _ => ?_) (ih'.mono fun _ => ?_))
    · exact .step found (by simp [edges])
    · exact .step found (by simp [edges])
  | inline _ ih => exact ih
  | call known args => exact .call known fun _ path => path

variable (supplies : Supplies p f labelled)
include supplies

theorem Confined.allows (confined : Confined f labelled ss allowed) (runs : Runs p ss ops) : allowed ops := by
  -- A call opens a body that is confined to paths again, so the induction is on the run and not on the code.
  induction runs generalizing allowed with
  | done =>
    cases confined with
    | done here => exact here
  | perform op _ ih =>
    generalize same : op.statement = s at confined
    cases confined with
    | perform op' next =>
      obtain rfl : op = op' := by cases op <;> cases op' <;> simp_all [ChanOp.statement]
      exact ih next
    | tau | branch | call => cases op <;> simp [ChanOp.statement] at same
  | tau next =>
    generalize same : Statement.tau = s at confined
    cases confined with
    | perform op => cases op <;> simp [ChanOp.statement] at same
    | tau here =>
      cases next
      exact here
    | branch | call => exact nomatch same
  | @onTrue t e rest ops _ ih =>
    generalize same : Statement.branch t e = s at confined
    cases confined with
    | perform op => cases op <;> simp [ChanOp.statement] at same
    | branch left _ =>
      obtain ⟨rfl, rfl⟩ := Statement.branch.inj same
      exact ih (by rwa [List.append_nil])
    | tau | call => exact nomatch same
  | @onFalse t e rest ops _ ih =>
    generalize same : Statement.branch t e = s at confined
    cases confined with
    | perform op => cases op <;> simp [ChanOp.statement] at same
    | branch _ right =>
      obtain ⟨rfl, rfl⟩ := Statement.branch.inj same
      exact ih (by rwa [List.append_nil])
    | tau | call => exact nomatch same
  | @call name args r rest ops found _ ih =>
    generalize same : Statement.call name args = s at confined
    cases confined with
    | perform op => cases op <;> simp [ChanOp.statement] at same
    | @call b _ _ known paths =>
      obtain ⟨rfl, rfl⟩ := Statement.call.inj same
      obtain ⟨r', found', body⟩ := supplies b known
      obtain rfl := Option.mem_unique found found'
      exact paths ops (ih (by rw [List.append_nil]; exact body.confined))
    | tau | branch => exact nomatch same

theorem runs_edge (block : ∀ {ss}, Code f labelled (.block b) ss → Runs p ss ops)
    (code : Code f labelled (.edge b) ss) : Runs p ss ops := by
  cases code with
  | inline here => exact block here
  | call known args =>
    obtain ⟨r, found, body⟩ := supplies b known
    refine .call found ?_
    rw [List.append_nil]
    exact block body

/-- Every path can be run. -/
theorem runs_of_path (path : f.Path b ops) (code : Code f labelled (.block b) ss) : Runs p ss ops := by
  induction path generalizing ss with
  | @stop b block found last =>
    cases code with
    | stop found' _ =>
      obtain rfl := Option.mem_unique found found'
      simpa using Runs.done.prepend (p := p) block.ops
    | jump found' edge =>
      obtain rfl := Option.mem_unique found found'
      exact nomatch last.symm.trans edge
    | branch found' edges =>
      obtain rfl := Option.mem_unique found found'
      exact nomatch last.symm.trans edges
  | @step b t block ops found edge _ ih =>
    cases code with
    | stop found' last =>
      obtain rfl := Option.mem_unique found found'
      simp [last] at edge
    | @jump _ t' _ _ found' only next =>
      obtain rfl := Option.mem_unique found found'
      obtain rfl : t = t' := by simpa [only] using edge
      exact (runs_edge supplies ih next).prepend block.ops
    | @branch _ t' e' _ _ _ found' edges left right =>
      obtain rfl := Option.mem_unique found found'
      refine (runs_branchStatement ?_).prepend block.ops
      have either : t = t' ∨ t = e' := by simpa [edges] using edge
      rcases either with rfl | rfl
      · exact .inl (runs_edge supplies ih left)
      · exact .inr (runs_edge supplies ih right)

/-- Code has the traces of the paths it is code for. -/
theorem runs_iff_path (code : Code f labelled (.block b) ss) (ops : List ChanOp) : Runs p ss ops ↔ f.Path b ops :=
  ⟨fun runs => code.confined.allows supplies runs, fun path => runs_of_path supplies path code⟩

end

end Analysis

end ChanFlow
