import ChanFlow.Proofs.Turn

/-!
How deep blocks and calls follow one another does not matter, as long as it is more than the budget.

Two steps are `Alike` if they come out the same on machines with little budget. Every edge and every new
activation is paid for, so a step that is given walkers that are alike on less budget is alike on one more.
Being alike includes what holds of every step: it never gains budget, it is metered, and what was passed
over stays in the log.
-/
namespace ChanFlow.Analysis

open Ssa

variable {n' depth : Nat}

variable {α β : Type}

/-! ### Steps that go by others -/

/-- A relation between steps that holds of what related steps are put together to, of the steps inside
a block, and of those that steer the walk. -/
structure Congruent (R : ∀ {α : Type}, Run α → Run α → Prop) : Prop where
  bind {α β : Type} {x y : Run α} {f g : α → Run β} : R x y → (∀ a, R (f a) (g a)) → R (x >>= f) (y >>= g)
  composed {α : Type} {reach : Reach} {x : Run α} : Composed reach x → R x x
  emit (e : Event) : R (emit e) (emit e)
  steer {f : Activation → Activation} (same : ∀ a, (f a).routine = a.routine ∧ (f a).func = a.func ∧
    (f a).callers = a.callers :=
    by exact fun _ => ⟨rfl, rfl, rfl⟩) : R (modifyActivation f) (modifyActivation f)
  addStatement (s : Protocol.Statement) : R (addStatement s) (addStatement s)
  modifyContext (f : Context → Context) : R (modifyContext f) (modifyContext f)

/-- A relation that holds of the steps that build routines as well. -/
structure Thorough (R : ∀ {α : Type}, Run α → Run α → Prop) : Prop extends Congruent R where
  modifyRoutine (f : Protocol.Routine → Protocol.Routine) : R (modifyRoutine f) (modifyRoutine f)
  changeRoutine {α : Type} (f : Protocol.Routine → Except Protocol.Error (α × Protocol.Routine)) :
    R (changeRoutine f) (changeRoutine f)

section

variable {R : ∀ {α : Type}, Run α → Run α → Prop} {walk walk' : Walker}

/-- What a walk does at the ends of its blocks, with one walker and with another. -/
structure Woven (R : ∀ {α : Type}, Run α → Run α → Prop) (p : Program) (walk walk' : Walker) : Prop where
  edge (src dst : Nat) : R (followEdge walk src dst) (followEdge walk' src dst)
  sides (src onTrue onFalse : Nat) : R (walkBothWays walk src onTrue onFalse) (walkBothWays walk' src onTrue onFalse)
  test (src onTrue onFalse : Nat) (site : OpenSelect) (case : Nat) :
    R (walkCaseTest walk src onTrue onFalse site case) (walkCaseTest walk' src onTrue onFalse site case)
  call (c : Call) (result : Result) : R (call p walk c result) (call p walk' c result)
  spawn (c : Call) : R (spawn p c) (spawn p c)

namespace Congruent

variable (r : Congruent R)
include r

theorem inside {α : Type} {x : Run α} (composed : Composed ⟨True, True, True, True⟩ x) : R x x :=
  r.composed composed

theorem activation : R activation activation := r.inside .activation

theorem forM {β : Type} {f g : β → Run Unit} (each : ∀ b, R (f b) (g b)) (bs : List β) :
    R (bs.forM f) (bs.forM g) := by
  induction bs with
  | nil => exact r.inside (.pure ())
  | cons b rest ih => exact r.bind (each b) fun _ => ih

theorem interpret {env : Env} (woven : Woven R env.program walk walk') (arrival : Arrival) (action : Action) :
    R (interpret env walk arrival action) (interpret env walk' arrival action) := by
  cases action with
  | define value ty op =>
    rw [Analysis.interpret, Analysis.interpret]
    obtain ⟨step, composed, same⟩ | ⟨edges, rfl⟩ | ⟨sign, x, y, rfl⟩ | ⟨c, rfl⟩ :=
      composed_define env arrival value ty op
    · rw [same, same]
      exact r.composed composed
    · exact r.inside (composed_phi trivial arrival value edges)
    · exact r.inside (composed_binary trivial _ arrival value ty sign x y)
    · exact woven.call c _
  | perform effect =>
    rw [Analysis.interpret, Analysis.interpret]
    obtain ⟨step, composed, same⟩ | ⟨dst, rfl⟩ | ⟨cond, onTrue, onFalse, rfl⟩ | ⟨c, rfl⟩ | ⟨c, rfl⟩ |
      ⟨c, rfl⟩ | rfl :=
      composed_perform env arrival effect
    · rw [same, same]
      exact r.composed composed
    · exact woven.edge _ dst
    · refine r.bind (r.inside (composed_settleLoop trivial arrival)) fun _ => r.bind r.activation fun a => ?_
      dsimp only
      split
      · exact r.bind (r.emit _) fun _ => woven.edge _ _
      · split
        · exact woven.test _ _ _ _ _
        · exact r.bind (r.inside (composed_noteCommaOk cond)) fun _ => woven.sides _ _ _
    · exact woven.spawn c
    · exact r.steer (f := fun a => { a with defers := a.defers ++ [c] })
    · exact woven.call c none
    · exact r.bind r.activation fun _ => r.forM (fun c => woven.call c none) _

theorem enterBlock {env : Env} {arrival : Arrival}
    (each : ∀ i, R (walkInstr env walk arrival i) (walkInstr env walk' arrival i)) :
    R (enterBlock env walk arrival) (enterBlock env walk' arrival) := by
  refine r.bind r.activation fun a => ?_
  split
  · exact r.inside (.failWith _ nofun)
  · refine r.bind r.steer fun _ => r.bind (r.emit _) fun _ => r.bind r.activation fun _ => ?_
    split
    · exact r.emit _
    · refine r.bind (r.steer fun a => ?_) fun _ => r.forM each _
      unfold Activation.noteVisit
      split <;> exact ⟨rfl, rfl, rfl⟩

theorem walkFunction (entry : R (walk .entry) (walk' .entry)) : R (walkFunction walk) (walkFunction walk') :=
  r.bind (r.emit _) fun _ => r.bind r.activation fun _ => r.bind (r.modifyContext _) fun _ =>
    r.bind entry fun _ => r.bind r.activation fun _ => r.modifyContext _

end Congruent

/-- Related steps, where what is paid for is related by `R'`. -/
structure Paying (R R' : ∀ {α : Type}, Run α → Run α → Prop) : Prop where
  now : Congruent R
  later : Congruent R'
  pay {α : Type} {point : Point} {f g : Unit → Run α} : R' (f ()) (g ()) → R (spend point >>= f) (spend point >>= g)
  within {x y : Run Unit} (inner : Activation) : R' x y → R' (within inner x) (within inner y)
  enqueue (a : Activation) : R' (enqueue a) (enqueue a)

namespace Paying

variable {R' : ∀ {α : Type}, Run α → Run α → Prop} (r : Paying R R')
include r

theorem callee {α : Type} {g g' : Activation → Run α} {types : TypeTable} {f : Function} {args : List Operand}
    {captures : List Instance} {receiver : Option Instance} (next : ∀ a, R' (g a) (g' a)) :
    R (calleeActivation types f args captures receiver >>= g)
      (calleeActivation types f args captures receiver >>= g') := by
  simp only [calleeActivation, bind_assoc, pure_bind]
  exact r.now.bind r.now.activation fun _ => r.now.bind (r.now.inside (composed_numberActivation _)) fun _ =>
    r.now.bind (r.now.inside (.mapM composed_instanceOf? args)) fun _ =>
    r.now.bind (r.now.inside (composed_handAll types _ _ _)) fun a => r.pay (next a)

theorem callTarget (entry : R' (walk .entry) (walk' .entry)) (types : TypeTable) (args : List Operand)
    (result : Result) (t : Target) :
    R (callTarget types walk args result t) (callTarget types walk' args result t) := by
  cases t with
  | external routine =>
    exact r.now.bind (r.now.emit _) fun _ => r.now.inside (composed_bindForeignResult types routine result)
  | routine f captures receiver =>
    refine r.now.bind r.now.activation fun caller => ?_
    split
    · exact r.now.bind (r.now.emit _) fun _ => r.now.inside (composed_bindFreshResult result)
    · exact r.callee fun callee => r.later.bind (r.within callee (r.later.walkFunction entry)) fun callee =>
        r.later.bind (r.later.addStatement _) fun _ => r.later.inside (composed_takeResult trivial types callee result)

theorem call (entry : R' (walk .entry) (walk' .entry)) (p : Program) (c : Call) (result : Result) :
    R (call p walk c result) (call p walk' c result) := by
  unfold Analysis.call
  split
  · exact r.now.inside (composed_callBuiltin trivial _ _ _)
  · exact r.now.bind (r.now.inside (composed_target p _)) fun t => r.callTarget entry _ _ _ t

theorem spawn (p : Program) (c : Call) : R (spawn p c) (spawn p c) := by
  refine r.now.bind (r.now.inside (composed_target p _)) fun t => ?_
  cases t with
  | external name => exact r.now.bind r.now.activation fun _ => r.now.emit _
  | routine f captures receiver =>
    refine r.callee fun spawned => r.later.bind (r.later.addStatement _) fun _ =>
      r.later.bind r.later.activation fun _ => ?_
    split
    · exact r.later.emit _
    · exact r.enqueue spawned

end Paying

namespace Thorough

variable (r : Thorough R)
include r

theorem setRoutine (routine : Protocol.Routine) :
    R (modifyActivation (·.setRoutine routine)) (modifyActivation (·.setRoutine routine)) :=
  r.modifyRoutine fun _ => routine

theorem arriveAt {src dst : Nat} (walks : R (walk (.along src dst)) (walk' (.along src dst))) :
    R (arriveAt walk src dst) (arriveAt walk' src dst) := by
  refine r.bind r.activation fun a => ?_
  split
  · exact r.inside (.failWith _ nofun)
  · split
    · exact walks
    · dsimp only
      split
      · exact r.modifyRoutine _
      · exact r.bind r.steer fun _ => r.bind (r.modifyRoutine _) fun _ => r.bind (r.emit _) fun _ =>
          r.bind (r.modifyContext _) fun _ => r.bind r.activation fun _ => r.bind (r.setRoutine _) fun _ =>
          r.bind walks fun _ => r.bind r.activation fun _ => r.bind (r.setRoutine _) fun _ => r.modifyContext _

variable (edge : ∀ src dst, R (followEdge walk src dst) (followEdge walk' src dst))
include edge

theorem walkBothWays (src onTrue onFalse : Nat) :
    R (walkBothWays walk src onTrue onFalse) (walkBothWays walk' src onTrue onFalse) :=
  r.bind r.activation fun _ => r.bind (r.modifyRoutine _) fun _ => r.bind (edge _ _) fun _ =>
    r.bind (r.modifyRoutine _) fun _ => r.bind r.steer fun _ => r.bind (edge _ _) fun _ =>
    r.bind (r.modifyRoutine _) fun _ => r.bind (r.changeRoutine _) fun _ => r.bind (r.changeRoutine _) fun _ =>
    r.bind (r.changeRoutine _) fun _ => r.bind (r.modifyRoutine _) fun _ => r.modifyRoutine _

theorem collect (src dst : Nat) : R (collect walk src dst) (collect walk' src dst) :=
  r.bind (r.modifyRoutine _) fun _ => r.bind (edge src dst) fun _ => r.changeRoutine _

theorem collectCase (src dst slot case : Nat) :
    R (collectCase walk src dst slot case) (collectCase walk' src dst slot case) :=
  r.bind (r.collect edge src dst) fun _ => r.changeRoutine _

theorem walkCaseTest (src onTrue onFalse : Nat) (site : OpenSelect) (case : Nat) :
    R (walkCaseTest walk src onTrue onFalse site case) (walkCaseTest walk' src onTrue onFalse site case) := by
  refine r.bind r.activation fun a => ?_
  split
  · exact r.bind (r.emit _) fun _ => r.walkBothWays edge _ _ _
  · refine r.bind (r.collectCase edge _ _ _ _) fun _ => r.bind r.steer fun _ => ?_
    split
    · exact r.collectCase edge _ _ _ _
    · exact edge _ _

end Thorough

end

/-! ### Steps that come out the same -/

/-- The steps come out the same on machines with less than `n` in their budget. -/
structure Alike (n : Nat) (x y : Run α) : Prop where
  agree : ∀ m, m.budget < n → x m = y m
  budget : ∀ m, (after (x m)).budget ≤ m.budget
  revisits : ∀ m, m.Revisits → (after (x m)).Revisits
  metered : Metered x

namespace Alike

variable {n : Nat}

theorem of_blind {x : Run α} (blind : Blind x) (revisits : ∀ m, m.Revisits → (after (x m)).Revisits) :
    Alike n x x :=
  ⟨fun _ _ => rfl, fun m => Nat.le_of_eq (blind.budget m), revisits, blind.metered⟩

theorem of_quietly {x : Run α} (quietly : Quietly x) : Alike n x x :=
  of_blind quietly.blind fun m => (quietly.quiet m).revisits.2

theorem mono {x y : Run α} (alike : Alike n x y) (le : n' ≤ n) : Alike n' x y :=
  ⟨fun m less => alike.agree m (Nat.lt_of_lt_of_le less le), alike.budget, alike.revisits, alike.metered⟩

/-- No machine has less than nothing. -/
theorem zero {x y : Run α} (alike : Alike n x y) (z : Run α) : Alike 0 x z :=
  ⟨fun _ less => absurd less (Nat.not_lt_zero _), alike.budget, alike.revisits, alike.metered⟩

theorem stop (point : Point) : Alike n (stop point : Run α) (stop point) :=
  ⟨fun _ _ => rfl, fun m => Nat.le_refl m.budget, fun _ seen => seen, fun _ ends => absurd trivial ends⟩

theorem bind {x y : Run α} {f g : α → Run β} (first : Alike n x y) (next : ∀ a, Alike n (f a) (g a)) :
    Alike n (x >>= f) (y >>= g) := by
  refine ⟨fun m less => ?_, fun m => ?_, fun m seen => ?_, metered_bind first.metered fun a => (next a).metered⟩
  · have budget := first.budget m
    rw [bind_apply, bind_apply, ← first.agree m less]
    cases eq : x m with
    | ok a m' =>
      rw [eq] at budget
      exact (next a).agree m' (Nat.lt_of_le_of_lt budget less)
    | error h m' => rfl
  · have budget := first.budget m
    rw [bind_apply]
    cases eq : x m with
    | ok a m' =>
      rw [eq] at budget
      exact Nat.le_trans ((next a).budget m') budget
    | error h m' =>
      rw [eq] at budget
      exact budget
  · have revisits := first.revisits m seen
    rw [bind_apply]
    cases eq : x m with
    | ok a m' =>
      rw [eq] at revisits
      exact (next a).revisits m' revisits
    | error h m' =>
      rw [eq] at revisits
      exact revisits

theorem located {x y : Run α} (alike : Alike n x y) (pos : Option Position) :
    Alike n (located pos x) (located pos y) := by
  refine ⟨fun m less => ?_, fun m => ?_, fun m seen => ?_, alike.metered.located pos⟩
  · rw [located_apply, located_apply, alike.agree m less]
  · have budget := alike.budget m
    rw [located_apply]
    cases eq : x m <;> rw [eq] at budget <;> exact budget
  · have revisits := alike.revisits m seen
    rw [located_apply]
    cases eq : x m <;> rw [eq] at revisits <;> exact revisits

/-- What follows a payment runs on less budget. -/
theorem spend {point : Point} {f g : Unit → Run α} (next : Alike (n - 1) (f ()) (g ())) :
    Alike n (spend point >>= f) (spend point >>= g) := by
  refine ⟨fun m less => ?_, fun m => ?_, fun m seen => ?_,
    metered_bind (metered_spend point) fun _ => next.metered⟩
  · rw [bind_apply, bind_apply]
    cases eq : m.budget with
    | zero => rw [spend_zero eq]
    | succ k =>
      rw [spend_succ eq]
      exact next.agree { m with budget := k } (Nat.lt_sub_of_add_lt (eq ▸ less))
  · rw [bind_apply]
    cases eq : m.budget with
    | zero =>
      rw [spend_zero eq]
      exact Nat.le_of_eq eq
    | succ k =>
      rw [spend_succ eq]
      exact Nat.le_trans (next.budget { m with budget := k }) (Nat.le_succ k)
  · rw [bind_apply]
    cases eq : m.budget with
    | zero =>
      rw [spend_zero eq]
      exact seen
    | succ k =>
      rw [spend_succ eq]
      exact next.revisits { m with budget := k } seen

theorem pure (a : α) : Alike n (Pure.pure a : Run α) (Pure.pure a) := of_quietly (.pure a)

theorem failWith (cause : Cause) : Alike n (failWith cause : Run α) (Analysis.failWith cause) :=
  of_quietly (.failWith cause)

theorem activation : Alike n activation Analysis.activation := of_quietly .activation

theorem context : Alike n context Analysis.context := of_quietly .context

theorem tasks : Alike n tasks Analysis.tasks := of_blind (fun _ _ => rfl) fun _ seen => seen

theorem setTasks (queue : TaskQueue) : Alike n (setTasks queue) (Analysis.setTasks queue) :=
  of_blind (fun _ _ => rfl) fun _ seen => seen

theorem modifyActivation (f : Activation → Activation) : Alike n (modifyActivation f) (Analysis.modifyActivation f) :=
  of_blind (fun _ _ => rfl) fun _ seen => seen

theorem modifyContext (f : Context → Context) : Alike n (modifyContext f) (Analysis.modifyContext f) :=
  of_blind (fun _ _ => rfl) fun _ seen => seen

theorem modifyRoutine (f : Protocol.Routine → Protocol.Routine) :
    Alike n (modifyRoutine f) (Analysis.modifyRoutine f) := modifyActivation _

theorem addStatement (s : Protocol.Statement) : Alike n (addStatement s) (Analysis.addStatement s) :=
  modifyRoutine _

theorem emit (e : Event) : Alike n (emit e) (Analysis.emit e) :=
  of_blind (fun _ _ => rfl) fun _ seen => seen.imp fun _ member => Array.mem_push_of_mem _ member

theorem changeRoutine (f : Protocol.Routine → Except Protocol.Error (α × Protocol.Routine)) :
    Alike n (changeRoutine f) (Analysis.changeRoutine f) := by
  refine .bind .activation fun a => ?_
  split
  · exact .bind (.modifyActivation _) fun _ => .pure _
  · exact .failWith _

theorem within {x y : Run Unit} (inner : Activation) (alike : Alike n x y) :
    Alike n (within inner x) (Analysis.within inner y) :=
  .bind .activation fun _ => .bind (.modifyActivation _) fun _ => .bind alike fun _ =>
    .bind .activation fun _ => .bind (.modifyActivation _) fun _ => .pure _

end Alike

/-! ### Loops, edges and branches -/

section

variable {n : Nat} {walk walk' : Walker}

/-- Steps that stay inside a block do not look at the budget. -/
theorem Composed.alike {reach : Reach} {x : Run α} (composed : Composed reach x) : Alike n x x := by
  induction composed with
  | pure a => exact .pure a
  | bind _ _ first next => exact .bind first next
  | failWith cause => exact .failWith cause
  | endless => exact .of_blind (fun _ _ => rfl) fun _ => id
  | activation => exact .activation
  | context => exact .context
  | modifyActivation => exact .modifyActivation _
  | modifyContext => exact .modifyContext _
  | addStatement => exact .addStatement _
  | emit => exact .emit _
  | changeLoop _ event =>
    refine .bind .activation fun a => .bind ?_ fun _ => .modifyActivation _
    cases event a.loops.current with
    | none => exact .pure ()
    | some e => exact .emit e

theorem Alike.of_composed {x : Run α} (composed : Composed ⟨True, True, True, True⟩ x) : Alike n x x :=
  composed.alike

theorem thorough_alike (n : Nat) : Thorough fun x y => Alike n x y where
  bind := .bind
  composed := Composed.alike
  emit := .emit
  steer _ := .modifyActivation _
  addStatement := .addStatement
  modifyContext := .modifyContext
  modifyRoutine := .modifyRoutine
  changeRoutine := .changeRoutine

/-- A walker is only asked for what follows once something was paid. -/
def WalkersAlike (n : Nat) (walk walk' : Walker) : Prop := ∀ arrival, Alike (n - 1) (walk arrival) (walk' arrival)

abbrev Regular (walk : Walker) : Prop := WalkersAlike 0 walk walk

section

variable (walkers : WalkersAlike n walk walk')
include walkers

theorem alike_followEdge (src dst : Nat) :
    Alike n (followEdge walk src dst) (followEdge walk' src dst) :=
  .spend ((thorough_alike _).arriveAt (walkers (.along src dst)))

theorem alike_collect (src dst : Nat) : Alike n (collect walk src dst) (collect walk' src dst) :=
  (thorough_alike n).collect (alike_followEdge walkers) src dst

theorem alike_collectCase (src dst slot case : Nat) :
    Alike n (collectCase walk src dst slot case) (collectCase walk' src dst slot case) :=
  (thorough_alike n).collectCase (alike_followEdge walkers) src dst slot case

end

/-! ### Calls -/

theorem alike_walkFunction (walkers : ∀ arrival, Alike n (walk arrival) (walk' arrival)) :
    Alike n (walkFunction walk) (walkFunction walk') := (thorough_alike n).walkFunction (walkers .entry)

/-- What is done with a new activation runs on less budget. -/
theorem paying_alike (n : Nat) : Paying (fun x y => Alike n x y) fun x y => Alike (n - 1) x y where
  now := (thorough_alike n).toCongruent
  later := (thorough_alike (n - 1)).toCongruent
  pay := .spend
  within := .within
  enqueue a := by
    refine .bind .tasks fun queue => ?_
    split
    · exact .setTasks _
    · exact .emit _

theorem alike_call (walkers : WalkersAlike n walk walk') (program : Program) (c : Call) (result : Result) :
    Alike n (call program walk c result) (call program walk' c result) :=
  (paying_alike n).call (walkers .entry) program c result

/-! ### Blocks and programs -/

section

variable (walkers : WalkersAlike n walk walk')
include walkers

theorem WalkersAlike.mono (le : n' ≤ n) :
    WalkersAlike n' walk walk' := fun arrival => (walkers arrival).mono (Nat.sub_le_sub_right le 1)

theorem woven_alike (p : Program) : Woven (fun x y => Alike n x y) p walk walk' where
  edge := alike_followEdge walkers
  sides := (thorough_alike n).walkBothWays (alike_followEdge walkers)
  test := (thorough_alike n).walkCaseTest (alike_followEdge walkers)
  call := alike_call walkers p
  spawn := (paying_alike n).spawn p

theorem alike_walkInstr (env : Env) (arrival : Arrival) (i : Instr) :
    Alike n (walkInstr env walk arrival i) (walkInstr env walk' arrival i) := by
  refine .located (.bind (.emit _) fun _ => .spend ?_) i.pos
  exact (thorough_alike _).interpret (woven_alike (walkers.mono (Nat.sub_le n 1)) _) arrival i.action

theorem alike_enterBlock (env : Env) (arrival : Arrival) :
    Alike n (enterBlock env walk arrival) (enterBlock env walk' arrival) :=
  (thorough_alike n).enterBlock (alike_walkInstr walkers env arrival)

end

/-- Walks of two depths come out the same on machines whose budget is below both. -/
theorem alike_walkBlock (env : Env) {depth' : Nat} (arrival : Arrival) (le : n ≤ depth)
    (le' : n ≤ depth') : Alike n (walkBlock env depth arrival) (walkBlock env depth' arrival) := by
  induction depth generalizing depth' n arrival with
  | zero =>
    obtain rfl : n = 0 := Nat.le_zero.1 le
    exact (Alike.stop (n := 0) (.block arrival)).zero _
  | succ depth ih =>
    cases depth' with
    | zero =>
      obtain rfl : n = 0 := Nat.le_zero.1 le'
      have walkers : WalkersAlike 0 (walkBlock env depth) (walkBlock env depth) :=
        fun a => ih a (Nat.zero_le depth) (Nat.zero_le depth)
      exact (alike_enterBlock walkers env arrival).zero _
    | succ depth' =>
      exact alike_enterBlock (fun a => ih a (Nat.sub_le_of_le_add le) (Nat.sub_le_of_le_add le')) env arrival

section

variable (walkers : ∀ arrival, Alike n (walk arrival) (walk' arrival))
include walkers

theorem alike_drain (count : Nat) :
    Alike n (drain walk count) (drain walk' count) := by
  induction count with
  | zero => exact .stop .nextTask
  | succ count ih =>
    refine .bind .tasks fun queue => ?_
    split
    · exact .pure ()
    · exact .bind (.setTasks _) fun _ => .bind (.within _ (alike_walkFunction walkers)) fun _ => ih

theorem alike_initialise (env : Env) :
    Alike n (initialise env walk) (initialise env walk') := by
  unfold initialise
  split
  · exact .pure ()
  · exact .bind (.emit _) fun _ => .bind (.of_quietly (quietly_numberActivation _)) fun _ =>
      .bind .activation fun _ => .bind (.within _ (walkers _)) fun _ => .modifyActivation _

theorem alike_analyseWith (env : Env) :
    Alike n (analyseWith env walk) (analyseWith env walk') := by
  refine .bind (alike_initialise walkers env) fun _ => .bind (alike_walkFunction walkers) fun _ =>
    .bind (alike_drain walkers _) fun _ => .bind .context fun _ => ?_
  dsimp only
  split
  · exact .bind (.emit _) fun _ => .pure _
  · exact .pure _

end

end

/-- An analysis is a run of any depth above its budget. -/
theorem analyse_eq (env : Env) (m : Machine) (deep : m.budget < depth) :
    analyse env m = analyseWith env (walkBlock env depth) m := by
  have alike : Alike (m.budget + 1) (analyseWith env (walkBlock env (m.budget + 1)))
      (analyseWith env (walkBlock env depth)) :=
    alike_analyseWith (fun a => alike_walkBlock env a (Nat.le_refl _) deep) env
  exact alike.agree m (Nat.lt_succ_self _)

end ChanFlow.Analysis
