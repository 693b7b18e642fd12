import ChanFlow.Proofs.Composed

/-!
Instructions that stay inside their block.

They bind values, write storage and add statements that name no routine. What steers the walk stays as
it is: the loops, the labels, the visited blocks, the deferred calls, the lists set aside, the protocol
found so far and the waiting tasks.
-/
namespace ChanFlow.Analysis

open Ssa Protocol

variable {e : Event}

variable {α β : Type}

/-- Some arrival was passed over, because its block had been interpreted before. -/
def Machine.Revisits (m : Machine) : Prop := ∃ block, .blockRevisited block ∈ m.log

/-- A machine after steps that stay inside a block. -/
structure Quiet (m m' : Machine) : Prop where
  skeleton : m'.act.skeleton = m.act.skeleton
  stmts : ∃ added : List Statement, (∀ s ∈ added, s.Elementary) ∧
    m'.act.routine.stmts = added.foldl Routine.append m.act.routine.stmts
  protocol : m'.context.protocol = m.context.protocol
  tasks : m'.tasks = m.tasks
  revisits : m'.Revisits ↔ m.Revisits
  counts : ∀ func, m.context.count func ≤ m'.context.count func

namespace Quiet

variable {m m' m'' : Machine}

theorem refl (m : Machine) : Quiet m m := ⟨rfl, ⟨[], by simp, rfl⟩, rfl, rfl, Iff.rfl, fun _ => Nat.le_refl _⟩

theorem trans (first : Quiet m m') (second : Quiet m' m'') : Quiet m m'' := by
  obtain ⟨added, elementary, stmts⟩ := first.stmts
  obtain ⟨added', elementary', stmts'⟩ := second.stmts
  refine ⟨second.skeleton.trans first.skeleton, ⟨added ++ added', ?_, ?_⟩,
    second.protocol.trans first.protocol, second.tasks.trans first.tasks,
    second.revisits.trans first.revisits, fun func => Nat.le_trans (first.counts func) (second.counts func)⟩
  · intro s member
    rcases List.mem_append.1 member with member | member
    · exact elementary s member
    · exact elementary' s member
  · rw [stmts', stmts, List.foldl_append]

theorem push (m : Machine) (other : ∀ block, e ≠ .blockRevisited block) :
    Quiet m { m with log := m.log.push e } := by
  refine ⟨rfl, ⟨[], by simp, rfl⟩, rfl, rfl, exists_congr fun block => ?_, fun _ => Nat.le_refl _⟩
  exact Array.mem_push.trans (or_iff_left fun eq => other block eq.symm)

variable (quiet : Quiet m m')
include quiet

theorem func : m'.act.func = m.act.func := congrArg (·.func) quiet.skeleton

theorem callers : m'.act.callers = m.act.callers := congrArg (·.callers) quiet.skeleton

theorem loops : m'.act.loops = m.act.loops := congrArg (·.loops) quiet.skeleton

theorem labels : m'.act.labels = m.act.labels := congrArg (·.labels) quiet.skeleton

theorem visited : m'.act.visited = m.act.visited := congrArg (·.visited) quiet.skeleton

theorem defers : m'.act.defers = m.act.defers := congrArg (·.defers) quiet.skeleton

theorem name : m'.act.routine.name = m.act.routine.name := congrArg (·.routine.name) quiet.skeleton

theorem params : m'.act.routine.params = m.act.routine.params :=
  congrArg (·.routine.params) quiet.skeleton

theorem waiting : m'.act.routine.waiting = m.act.routine.waiting :=
  congrArg (·.routine.waiting) quiet.skeleton

end Quiet

/-- A step that stays inside its block, and comes out the same whatever the budget is. -/
structure Quietly (x : Run α) : Prop where
  blind : Blind x
  quiet : ∀ m, Quiet m (after (x m))
  goes : ∀ m, ¬ Stops (x m)

namespace Quietly

theorem metered {x : Run α} (quietly : Quietly x) : Metered x := quietly.blind.metered

theorem leads {x : Run α} (quietly : Quietly x) (m : Machine) :
    Leads x m (fun _ m' => Quiet m m' ∧ m'.budget = m.budget)
      (fun h m' => (∀ point, h ≠ .stopped point) ∧ Quiet m m') := by
  have quiet := quietly.quiet m
  have budget := quietly.blind.budget m
  have goes := quietly.goes m
  refine leads_of (fun a m' ends => ?_) (fun h m' halts => ?_)
  · rw [ends] at quiet budget
    exact ⟨quiet, budget⟩
  · rw [halts] at quiet goes
    refine ⟨?_, quiet⟩
    rintro point rfl
    exact goes trivial

theorem bind {x : Run α} {f : α → Run β} (first : Quietly x) (next : ∀ a, Quietly (f a)) :
    Quietly (x >>= f) := by
  refine ⟨first.blind.bind fun a => (next a).blind, fun m => ?_, fun m => ?_⟩
  · have here := first.quiet m
    rw [bind_apply]
    cases eq : x m with
    | ok a m' =>
      rw [eq] at here
      exact here.trans ((next a).quiet m')
    | error h m' =>
      rw [eq] at here
      exact here
  · have goes := first.goes m
    rw [bind_apply]
    cases eq : x m with
    | ok a m' => exact (next a).goes m'
    | error h m' =>
      rw [eq] at goes
      cases h <;> exact goes

theorem pure (a : α) : Quietly (Pure.pure a : Run α) := ⟨fun _ _ => rfl, Quiet.refl, fun _ h => h⟩

theorem failWith (cause : Cause) : Quietly (failWith cause : Run α) :=
  ⟨fun _ _ => rfl, Quiet.refl, fun _ h => h⟩

theorem endless (ty : Ty) : Quietly (throw (.endless ty) : Run α) :=
  ⟨fun _ _ => rfl, Quiet.refl, fun _ h => h⟩

theorem activation : Quietly activation := ⟨fun _ _ => rfl, Quiet.refl, fun _ h => h⟩

theorem context : Quietly context := ⟨fun _ _ => rfl, Quiet.refl, fun _ h => h⟩

theorem modifyActivation {f : Activation → Activation}
    (skeleton : ∀ a, (f a).skeleton = a.skeleton := by exact fun _ => rfl)
    (stmts : ∀ a, (f a).routine.stmts = a.routine.stmts := by exact fun _ => rfl) : Quietly (modifyActivation f) :=
  ⟨fun _ _ => rfl, fun m => ⟨skeleton m.act, ⟨[], by simp, stmts m.act⟩, rfl, rfl, Iff.rfl,
    fun _ => Nat.le_refl _⟩, fun _ h => h⟩

theorem modifyContext {f : Context → Context} (protocol : ∀ c, (f c).protocol = c.protocol)
    (counts : ∀ c func, c.count func ≤ (f c).count func := by exact fun _ _ => Nat.le_refl _) :
    Quietly (modifyContext f) :=
  ⟨fun _ _ => rfl, fun m => ⟨rfl, ⟨[], by simp, rfl⟩, protocol m.context, rfl, Iff.rfl,
    counts m.context⟩, fun _ h => h⟩

theorem addStatement {s : Statement} (elementary : s.Elementary) : Quietly (addStatement s) :=
  ⟨fun _ _ => rfl, fun _ => ⟨rfl, ⟨[s], by simpa using elementary, rfl⟩, rfl, rfl, Iff.rfl,
    fun _ => Nat.le_refl _⟩, fun _ h => h⟩

theorem emit (other : ∀ block, e ≠ .blockRevisited block) : Quietly (emit e) :=
  ⟨fun _ _ => rfl, fun m => .push m other, fun _ h => h⟩

theorem mapM {f : β → Run α} (each : ∀ b, Quietly (f b)) (bs : List β) : Quietly (bs.mapM f) := by
  rw [← List.mapM'_eq_mapM]
  induction bs with
  | nil => exact .pure []
  | cons b rest ih => exact (each b).bind fun a => ih.bind fun as => .pure (a :: as)

end Quietly

theorem Composed.quietly {reach : Reach} {x : Run α} (composed : Composed reach x)
    (straight : ¬ reach.loop) : Quietly x := by
  induction composed with
  | pure a => exact .pure a
  | bind _ _ first next => exact .bind first next
  | failWith cause _ => exact .failWith cause
  | endless ty => exact .endless ty
  | activation => exact .activation
  | context => exact .context
  | modifyActivation skeleton stmts => exact .modifyActivation skeleton stmts
  | modifyContext protocol counts => exact .modifyContext protocol counts
  | addStatement _ elementary => exact .addStatement elementary
  | emit other => exact .emit other
  | changeLoop may => exact absurd may straight

theorem Quietly.of_composed {x : Run α} (composed : Composed ⟨True, True, False, True⟩ x) :
    Quietly x := composed.quietly id

theorem quietly_numberActivation (routine : String) : Quietly (numberActivation routine) :=
  .of_composed (composed_numberActivation routine)

theorem quietly_bindValue (value : String) (i : Instance) : Quietly (bindValue value i) :=
  .of_composed (composed_bindValue value i)

theorem quietly_bindFresh (value : String) (ty : Ty) : Quietly (bindFresh value ty) :=
  .of_composed (composed_bindFresh value ty)

theorem quietly_target (program : Program) (callee : Callee) : Quietly (target program callee) :=
  .of_composed (composed_target program callee)

theorem quietly_bindFreshResult (result : Result) : Quietly (bindFreshResult result) :=
  .of_composed (composed_bindFreshResult result)

theorem quietly_bindForeignResult (types : TypeTable) (routine : String) (result : Result) :
    Quietly (bindForeignResult types routine result) :=
  .of_composed (composed_bindForeignResult types routine result)

theorem quietly_takeResult (types : TypeTable) (callee : Activation) (result : Result) :
    Quietly (takeResult types callee result) :=
  .of_composed (composed_takeResult trivial types callee result)

theorem quietly_callBuiltin (name : String) (args : List Operand) (result : Result) :
    Quietly (callBuiltin name args result) :=
  .of_composed (composed_callBuiltin trivial name args result)

/-! ### All of them -/

/-- Defining a value stays inside the block, unless the value is a phi, a binary operation or a call. -/
theorem define_cases (env : Env) (arrival : Arrival) (value : String) (ty : Ty) (op : ValueOp) :
    (∃ step, Quietly step ∧ ∀ walk, define env walk arrival value ty op = step) ∨
      (∃ edges, op = .phi edges) ∨ (∃ sign x y, op = .binary sign x y) ∨ ∃ c, op = .call c :=
  (composed_define env arrival value ty op).imp_left fun ⟨step, composed, same⟩ => ⟨step,
    composed.quietly id, same⟩

/-- The effects that leave the block, or change more than its values. -/
theorem perform_cases (env : Env) (arrival : Arrival) (effect : Effect) :
    (∃ step, Quietly step ∧ ∀ walk, perform env walk arrival effect = step) ∨ (∃ dst, effect = .jump dst) ∨
      (∃ cond onTrue onFalse, effect = .branch cond onTrue onFalse) ∨ (∃ c, effect = .go c) ∨
      (∃ c, effect = .defer c) ∨ (∃ c, effect = .call c) ∨ effect = .runDefers :=
  (composed_perform env arrival effect).imp_left fun ⟨step, composed, same⟩ => ⟨step, composed.quietly id, same⟩

end ChanFlow.Analysis
