import ChanFlow.Proofs.Conduct
import ChanFlow.Proofs.Interpretation

/-!
The analysis as a sequence of small moves.

A `Config` is a machine together with the activations that wait for a call to come back. A `Move` leads from one to
the next; it says exactly what was done where values are concerned, and little where only the walk is steered. What
every move keeps holds in every state that a run comes through (`Invariant.stops`).
-/
namespace ChanFlow.Analysis

open Ssa Protocol

variable {point : Point} {arrival : Arrival}

/-- An instruction that makes calls, with what was left of the budget before it was paid for. -/
structure Doing where
  left : Nat
  instr : Instr

/-- An activation that waits. If it waits for a call, the instruction is known. -/
structure Waiter where
  act : Activation
  doing : Option Doing

structure Config where
  machine : Machine
  doing : Option Doing
  /-- The activations that wait, the innermost first. -/
  stack : List Waiter

/-- The value that an instruction defines by a call. -/
def resultOf : Action → Result
  | .define value ty _ => some (value, ty)
  | .perform _ => none

/-- Only what steers the walk changes. -/
structure Shifted (m m' : Machine) : Prop where
  act : ∃ routine defers loops labels visited, m'.act = { m.act with routine, defers, loops, labels, visited }
  context : ∃ protocol, m'.context = { m.context with protocol }
  tasks : m'.tasks = m.tasks
  budget : m'.budget = m.budget

inductive Move (env : Env) (property : Property) : Config → Config → Prop
  | shift {m m' : Machine} {d : Option Doing} {s : List Waiter} (shifted : Shifted m m') :
    Move env property ⟨m, d, s⟩ ⟨m', d, s⟩
  /-- An edge, or an instruction that steers the walk, is paid for. -/
  | pay {m : Machine} {n : Nat} {point : Point} {s : List Waiter} (pays : m.budget = n + 1)
    (reached : property (n + 1) point (m.withBudget 0))
    (steers : ∀ arrival i, point = .instr arrival i → isSimple i.action = false) :
    Move env property ⟨m, none, s⟩ ⟨m.withBudget n, none, s⟩
  /-- An instruction that stays inside its block is paid for and interpreted. -/
  | simple {m m' : Machine} {n : Nat} {arrival : Arrival} {i : Instr} {walk : Walker} {s : List Waiter}
    (pays : m.budget = n + 1) (reached : property (n + 1) (.instr arrival i) (m.withBudget 0))
    (simple : isSimple i.action) (ends : interpret env walk arrival i.action (m.withBudget n) = .ok () m') :
    Move env property ⟨m, none, s⟩ ⟨m', none, s⟩
  /-- An instruction that makes calls is paid for. -/
  | begins {m : Machine} {n : Nat} {arrival : Arrival} {i : Instr} {s : List Waiter} (pays : m.budget = n + 1)
    (reached : property (n + 1) (.instr arrival i) (m.withBudget 0)) (other : isSimple i.action = false) :
    Move env property ⟨m, none, s⟩ ⟨m.withBudget n, .some ⟨n + 1, i⟩, s⟩
  | ends {m : Machine} {d : Doing} {s : List Waiter} : Move env property ⟨m, some d, s⟩ ⟨m, none, s⟩
  /-- Calls that interpret nothing. -/
  | builtin {m m' : Machine} {d : Doing} {s : List Waiter} {name : String} {args : List Operand}
    (ends : callBuiltin name args (resultOf d.instr.action) m = .ok () m') :
    Move env property ⟨m, some d, s⟩ ⟨m', some d, s⟩
  | foreign {m m₁ m' : Machine} {d : Doing} {s : List Waiter} {callee : Callee} {routine : String} {e : Event}
    (found : target env.program callee m = .ok (.external routine) m₁)
    (ends : bindForeignResult env.program.types routine (resultOf d.instr.action) (m₁.emit e) = .ok () m') :
    Move env property ⟨m, some d, s⟩ ⟨m', some d, s⟩
  | recursive {m m₁ m' : Machine} {d : Doing} {s : List Waiter} {callee : Callee} {t : Target} {e : Event}
    (found : target env.program callee m = .ok t m₁)
    (ends : bindFreshResult (resultOf d.instr.action) (m₁.emit e) = .ok () m') :
    Move env property ⟨m, some d, s⟩ ⟨m', some d, s⟩
  /-- No function is spawned. -/
  | found {m m₁ : Machine} {d : Doing} {s : List Waiter} {callee : Callee} {t : Target}
    (found : target env.program callee m = .ok t m₁) : Move env property ⟨m, some d, s⟩ ⟨m₁, some d, s⟩
  /-- An activation is prepared, and not paid for. -/
  | prepares {m m₁ m₂ : Machine} {d : Doing} {s : List Waiter} {callee : Callee} {f : Function}
    {args : List Operand} {captures : List Instance} {receiver : Option Instance} {a : Activation}
    (found : target env.program callee m = .ok (.routine f captures receiver) m₁)
    (prepared : prepare env.program.types f args captures receiver m₁ = .ok a m₂) :
    Move env property ⟨m, some d, s⟩ ⟨m₂, some d, s⟩
  | calls {m m₁ m₂ : Machine} {d : Doing} {s : List Waiter} {callee : Callee} {f : Function} {args : List Operand}
    {captures : List Instance} {receiver : Option Instance} {a : Activation} {n : Nat}
    (found : target env.program callee m = .ok (.routine f captures receiver) m₁)
    (prepared : prepare env.program.types f args captures receiver m₁ = .ok a m₂) (pays : m₂.budget = n + 1)
    (reached : property (n + 1) (.handOver f.name a.routine.params) (m₂.withBudget 0)) :
    Move env property ⟨m, .some d, s⟩ ⟨{ m₂.withBudget n with act := a }, none, ⟨m₂.act, .some d⟩ :: s⟩
  /-- A call comes back, and its result is taken. -/
  | returns {m m' : Machine} {d : Doing} {s : List Waiter} {caller : Activation} {statement : Statement}
    (ends : takeResult env.program.types m.act (resultOf d.instr.action)
      (Machine.addStatement { m with act := caller } statement) = .ok () m') :
    Move env property ⟨m, none, ⟨caller, some d⟩ :: s⟩ ⟨m', some d, s⟩
  | spawns {m m₁ m₂ : Machine} {d : Doing} {s : List Waiter} {callee : Callee} {f : Function} {args : List Operand}
    {captures : List Instance} {receiver : Option Instance} {a : Activation} {n : Nat} {queue : TaskQueue}
    (found : target env.program callee m = .ok (.routine f captures receiver) m₁)
    (prepared : prepare env.program.types f args captures receiver m₁ = .ok a m₂) (pays : m₂.budget = n + 1)
    (reached : property (n + 1) (.handOver f.name a.routine.params) (m₂.withBudget 0))
    (queued : queue = m₂.tasks ∨ m₂.tasks.enqueue? a = .some queue) :
    Move env property ⟨m, .some d, s⟩ ⟨{ m₂.withBudget n with tasks := queue }, .some d, s⟩
  /-- The initialiser is begun, while the entry function waits. -/
  | initialises {m : Machine} (f : Function) (routine : String) :
    Move env property ⟨m, none, []⟩
      ⟨{ m with
          context := (m.context.numberActivation f.name).2
          act := Activation.start f (m.context.count f.name) [] routine }, none, [⟨m.act, none⟩]⟩
  /-- A spawned function is begun. -/
  | task {m : Machine} {a : Activation} {rest : List Activation} (waits : m.tasks.waiting = a :: rest) :
    Move env property ⟨m, none, []⟩
      ⟨{ m with tasks := { m.tasks with waiting := rest }, act := a }, none, [⟨m.act, none⟩]⟩
  | resumes {m : Machine} {act : Activation} {s : List Waiter} :
    Move env property ⟨m, none, ⟨act, none⟩ :: s⟩ ⟨{ m with act := act }, none, s⟩

/-! ### What every move keeps -/

/-- A property of configurations that every move keeps. -/
def Invariant (env : Env) (property : Property) (holds : Config → Prop) : Prop :=
  ∀ {c c' : Config}, holds c → Move env property c c' → holds c'

section Invariant

variable {env : Env} {property : Property} {holds : Config → Prop} {walk : Walker}
  {m m' : Machine} {s : List Waiter}

/-- What is paid for from the budget. -/
def isPaid : Point → Bool
  | .instr .. | .edge .. | .handOver .. => true
  | .block _ | .nextTask => false

/-- Where the analysis is stopped, there is a configuration with the property. -/
def Found (holds : Config → Prop) (h : Halt) (m : Machine) : Prop :=
  ∀ point, h = .stopped point → (isPaid point → m.budget = 0) ∧ ∃ d s, holds ⟨m, d, s⟩

/-- Where the analysis ends, there is a configuration with the property, but for the events that were noted last. -/
def Closes (holds : Config → Prop) (last : Machine) : Prop :=
  ∃ m, holds ⟨m, none, []⟩ ∧ Quiet m last ∧ last.budget = m.budget

theorem mayFail_found (m : Machine) : MayFail (Found holds) m := fun _ _ goes _ point eq => absurd eq (goes point)

variable {d : Option Doing}

theorem found_of (here : holds ⟨m, d, s⟩) (spent : m.budget = 0) (h : Halt) : Found holds h m :=
  fun _ _ => ⟨fun _ => spent, d, s, here⟩

theorem found_unpaid (here : holds ⟨m, d, s⟩) (unpaid : isPaid point = false) : Found holds (.stopped point) m := by
  rintro _ ⟨⟩
  exact ⟨fun paid => Bool.noConfusion (unpaid.symm.trans paid), d, s, here⟩

/-- A step leads to configurations with the property, over the same activations that wait. -/
abbrev Keeping (property : Property) (holds : Config → Prop) (s : List Waiter) (x : Run Unit) (m : Machine) : Prop :=
  Guided property x m (fun _ m' => holds ⟨m', none, s⟩) (Found holds)

/-- A walk keeps to the property. -/
def Obeys (property : Property) (holds : Config → Prop) (walk : Walker) : Prop :=
  ∀ arrival m s, holds ⟨m, none, s⟩ → Keeping property holds s (walk arrival) m

theorem Settled.shifted {cond : Operand} {onTrue onFalse : Nat}
    (settled : Settled cond onTrue onFalse arrival m m') : Shifted m m' := by
  obtain ⟨l, -, ⟨log, rfl⟩, -⟩ := settled
  exact ⟨⟨_, _, _, _, _, rfl⟩, ⟨_, rfl⟩, rfl, rfl⟩

namespace Invariant

variable (kept : Invariant env property holds)
include kept

/-- A change of what steers the walk, where it can be read off. -/
theorem shift (here : holds ⟨m, d, s⟩) (m' : Machine)
    (act : ∃ routine defers loops labels visited, m'.act = { m.act with routine, defers, loops, labels, visited } :=
      by exact ⟨_, _, _, _, _, rfl⟩)
    (context : ∃ protocol, m'.context = { m.context with protocol } := by exact ⟨_, rfl⟩)
    (tasks : m'.tasks = m.tasks := by rfl) (budget : m'.budget = m.budget := by rfl) :
    holds ⟨m', d, s⟩ := kept here (.shift ⟨act, context, tasks, budget⟩)

section Walks

variable (regular : Regular walk) (obeys : Obeys property holds walk)
include regular obeys

theorem guided_edge (here : holds ⟨m, none, s⟩) (src dst : Nat) :
    Keeping property holds s (followEdge walk src dst) m := by
  refine guided_followEdge (fun spent => found_of here spent _) fun reached n pays => ?_
  rw [pays] at reached
  have paid : holds ⟨m.withBudget n, none, s⟩ := kept here (.pay pays reached fun _ _ eq => nomatch eq)
  refine guided_arriveAt regular (fun _ => mayFail_found _) (fun _ _ _ => obeys _ _ _ paid) ?_ ?_
  · exact fun _ _ _ _ _ _ => kept.shift paid _
  · intro _ _ _ _ _
    have opened := kept.shift paid ((m.withBudget n).openMerge dst)
    exact (obeys _ _ _ opened).imp
      (fun _ _ walked => kept.shift walked _)

section

variable (here : holds ⟨m, none, s⟩)
include here

theorem guided_sides (src onTrue onFalse : Nat) :
    Keeping property holds s (walkBothWays walk src onTrue onFalse) m := by
  refine Analysis.guided_sides regular fun r => ?_
  have aside := kept.shift here (m.setRoutine r)
  refine (kept.guided_edge regular obeys aside src onTrue).imp fun _ m₁ first => ⟨mayFail_found m₁, fun r => ?_⟩
  have again := kept.shift first ((m₁.setRoutine r).resetLoops m.act.loops)
  exact (kept.guided_edge regular obeys again src onFalse).imp fun _ m₂ second => ⟨mayFail_found m₂, fun r =>
    kept.shift second _⟩

theorem guided_case (src dst slot case : Nat) :
    Keeping property holds s (collectCase walk src dst slot case) m := by
  have aside := kept.shift here m.setAside
  refine guided_collectCase regular ((kept.guided_edge regular obeys aside src dst).imp fun _ m₁ first => ?_)
  exact ⟨mayFail_found m₁, fun _ _ _ r _ => kept.shift first (m₁.setRoutine r)⟩

theorem guided_branch (arrival : Arrival) (cond : Operand) (onTrue onFalse : Nat) :
    Keeping property holds s (branch walk arrival cond onTrue onFalse) m := by
  refine Analysis.guided_branch (fun m₀ next settled _ _ => ?_) (fun m₀ site case settled _ => ?_)
    fun m₀ settled => ?_
  · exact kept.guided_edge regular obeys (kept here (.shift settled.shifted)) _ _
  · have start : holds ⟨m₀, none, s⟩ := kept here (.shift settled.shifted)
    refine guided_walkCaseTest regular (fun e => ?_) fun _ => ?_
    · have emitted := kept.shift start (m₀.emit (.strayCase m₀.act.routine.name e))
      exact kept.guided_sides regular obeys emitted _ _ _
    · refine (kept.guided_case regular obeys start _ _ _ _).imp fun _ m₁ first => ?_
      have again := kept.shift first (m₁.resetLoops m₀.act.loops)
      exact ⟨fun _ _ => kept.guided_case regular obeys again _ _ _ _, kept.guided_edge regular obeys again _ _⟩
  · exact kept.guided_sides regular obeys (kept here (.shift settled.shifted)) _ _ _

theorem guided_function :
    Keeping property holds s (walkFunction walk) m := by
  have opened := kept.shift here (m.openRoutine m.act.routine .routineStarted)
  refine guided_walkFunction regular ((obeys .entry _ _ opened).imp fun _ m' walked => ?_)
  exact kept.shift walked _

end

theorem guided_call {d : Doing} (here : holds ⟨m, some d, s⟩) (c : Call) :
    Guided property (call env.program walk c (resultOf d.instr.action)) m (fun _ m' => holds ⟨m', some d, s⟩)
      (Found holds) := by
  refine guided_callExactly regular (mayFail_found m) (fun _ _ _ ends => kept here (.builtin ends))
    (fun _ _ _ _ _ found ends => kept here (.foreign found ends))
    (fun _ _ _ _ _ found ends => kept here (.recursive found ends))
    (fun _ _ _ ⟨found, prepared⟩ spent => found_of (kept here (.prepares found prepared)) spent _) ?_
  intro f a m₂ n _ ⟨found, prepared⟩ _ pays reached
  refine (kept.guided_function regular obeys (kept here (.calls found prepared pays reached))).imp
    fun _ m₃ walked => ?_
  exact ⟨mayFail_found m₃, fun m₄ ends => kept walked (.returns ends)⟩

omit regular obeys in
theorem guided_spawn {d : Doing} (here : holds ⟨m, some d, s⟩) (c : Call) :
    Guided property (spawn env.program c) m (fun _ m' => holds ⟨m', some d, s⟩) (Found holds) := by
  refine guided_spawnExactly (mayFail_found m) (fun t m₁ e _ found => ?_)
    (fun _ _ _ ⟨found, prepared⟩ spent => found_of (kept here (.prepares found prepared)) spent _) ?_
  · exact kept.shift (kept here (.found found)) _
  rintro f a m₂ n ⟨found, prepared⟩ pays reached _ rfl
  refine ⟨fun _ e _ => ?_, fun queue _ enqueued => ?_⟩
  · exact kept.shift (kept here (.spawns found prepared pays reached (.inl rfl))) _
  · exact kept.shift (kept here (.spawns found prepared pays reached (.inr enqueued))) _

omit kept obeys regular in
/-- An instruction that stays inside its block does not stop the analysis. -/
theorem not_stopped_simple {action : Action} (simple : isSimple action) {h : Halt}
    (halts : interpret env walk arrival action m = .error h m') (point : Point) : h ≠ .stopped point := by
  have turns {x : Run Unit} (turning : LeadsTurning x m action arrival) (halts : x m = .error h m') :
      h ≠ .stopped point := (Leads.error turning halts).1 point
  cases action with
  | define value ty op =>
    obtain ⟨step, quiet, eq⟩ | ⟨edges, rfl⟩ | ⟨sign, x, y, rfl⟩ | ⟨c, rfl⟩ :=
      define_cases env arrival value ty op
    · rw [interpret, eq] at halts
      exact ((quiet.leads m).error halts).1 point
    · exact turns leads_phi halts
    · exact turns leads_binary halts
    · cases simple
  | perform effect =>
    obtain ⟨step, quiet, eq⟩ | ⟨dst, rfl⟩ | ⟨cond, onTrue, onFalse, rfl⟩ | ⟨c, rfl⟩ | ⟨c, rfl⟩ |
      ⟨c, rfl⟩ | rfl :=
      perform_cases env arrival effect
    · rw [interpret, eq] at halts
      exact ((quiet.leads m).error halts).1 point
    all_goals cases simple

theorem guided_instr (here : holds ⟨m, none, s⟩) (arrival : Arrival) (i : Instr) :
    Keeping property holds s (walkInstr env walk arrival i) m := by
  have emitted := kept.shift here (m.emit (.instrVisited i))
  refine guided_walkInstr (fun spent => found_of emitted spent _) fun reached n pays => ?_
  rw [pays] at reached
  suffices guided : Keeping property holds s (interpret env walk arrival i.action)
    ((m.emit (.instrVisited i)).withBudget n) by
    refine guided.weaken (fun _ _ => id) fun h m' found => ?_
    cases h with
    | failed e => exact fun _ eq => nomatch eq
    | stopped point => exact found
    | endless ty => exact fun _ eq => nomatch eq
  by_cases simple : isSimple i.action
  · exact .of_leads (leads_of (fun _ _ ends => kept emitted (.simple pays reached simple ends))
      fun h m' halts point eq => absurd eq (not_stopped_simple simple halts point))
  · have other : isSimple i.action = false := Bool.eq_false_iff.2 simple
    have paid : holds ⟨(m.emit (.instrVisited i)).withBudget n, none, s⟩ := by
      refine kept emitted (.pay pays reached fun arrival' i' eq => ?_)
      cases eq
      exact other
    have begun : holds ⟨(m.emit (.instrVisited i)).withBudget n, .some ⟨n + 1, i⟩, s⟩ :=
      kept emitted (.begins pays reached other)
    have finish {m' : Machine} (done : holds ⟨m', .some ⟨n + 1, i⟩, s⟩) : holds ⟨m', none, s⟩ :=
      kept done .ends
    have called (c : Call) {m : Machine} (here : holds ⟨m, .some ⟨n + 1, i⟩, s⟩) :=
      kept.guided_call regular obeys here c
    obtain ⟨action, pos⟩ := i
    cases action with
    | define value ty op =>
      cases op with
      | call c => exact (called c begun).imp fun _ _ => finish
      | _ => exact absurd rfl simple
    | perform effect =>
      cases effect with
      | jump dst => exact kept.guided_edge regular obeys paid _ _
      | branch cond onTrue onFalse => exact kept.guided_branch regular obeys paid _ _ _ _
      | go c => exact (kept.guided_spawn begun c).imp fun _ _ => finish
      | defer c => exact .of_leads (kept.shift paid _)
      | call c => exact (called c begun).imp fun _ _ => finish
      | runDefers =>
        refine .read (.imp (.forM (fun _ m' => holds ⟨m', .some ⟨n + 1, ⟨.perform .runDefers, pos⟩⟩, s⟩)
          (fun c => (alike_call regular _ c none).metered) (fun c _ m' here => called c here) begun)
          (fun _ _ => finish))
      | _ => exact absurd rfl simple

theorem obeys_enterBlock : Obeys property holds (enterBlock env walk) := by
  intro arrival m s here
  refine guided_enterBlock (fun _ => mayFail_found m) (fun block _ _ => ?_) fun block _ _ => ?_
  · exact kept.shift here _
  · obtain ⟨visited, noted⟩ := noteVisit_eq (m.enter block arrival.pred).act block.index
    refine .forM (fun _ m' => holds ⟨m', none, s⟩) (fun i => (alike_walkInstr regular env arrival i).metered)
      (fun i _ m' here => kept.guided_instr regular obeys here arrival i) ?_
    rw [Machine.onAct, noted]
    exact kept.shift here _

end Walks

theorem obeys_walkBlock (depth : Nat) : Obeys property holds (walkBlock env depth) := by
  induction depth with
  | zero => exact fun _ _ _ here => .of_leads (found_unpaid here rfl)
  | succ depth ih => exact kept.obeys_enterBlock (regular_walkBlock env depth) ih

section Programs

variable (regular : Regular walk) (obeys : Obeys property holds walk)
include regular obeys

theorem guided_init (here : holds ⟨m, none, []⟩) :
    Keeping property holds [] (initialise env walk) m := by
  unfold initialise
  split
  · exact .of_leads here
  · next f _ =>
    have emitted := kept.shift here (m.emit (.initialiserStarted f.name))
    refine .emit (.exactly (quietly_numberActivation f.name) (mayFail_found _) ?_)
    rintro seq m₁ ⟨⟩
    refine .read (.within (regular .entry) ((obeys .entry _ _ (kept emitted (.initialises f m.act.func.name))).imp
      (fun _ m₂ walked => .of_leads ?_)))
    have resumed : holds ⟨{ m₂ with act := m.act }, none, []⟩ := kept walked .resumes
    exact kept.shift resumed _

theorem guided_tasks (count : Nat) (here : holds ⟨m, none, []⟩) :
    Keeping property holds [] (drain walk count) m := by
  refine guided_drain (fun _ m => holds ⟨m, none, []⟩) regular (fun m here => found_unpaid here rfl)
    (fun _ m here _ => here) (fun _ m a rest here waits => ?_) here
  exact (kept.guided_function regular obeys (kept here (.task waits))).imp fun _ m' walked => kept walked .resumes

end Programs

theorem guided_analyse (depth : Nat) (here : holds ⟨m, none, []⟩) :
    Guided property (analyseWith env (walkBlock env depth)) m (fun _ => Closes holds) (Found holds) := by
  have regular := regular_walkBlock env depth
  have obeys := kept.obeys_walkBlock depth
  refine guided_analyseWith regular ((kept.guided_init regular obeys here).imp fun _ m₁ ready => ?_)
  refine (kept.guided_function regular obeys ready).imp fun _ m₂ idle => ?_
  exact (kept.guided_tasks regular obeys _ idle).imp fun _ m₃ drained m₄ quiet same => ⟨m₃, drained,
    quiet, same⟩

end Invariant

end Invariant

section Runs

variable {p : Program} {o : Options} {entry : Function} {budget : Nat} {holds : Config → Prop}
  (kept : Invariant ⟨p, o⟩ (History p o entry budget) holds)
  (start : holds ⟨Machine.start p entry budget, none, []⟩)
include kept start

theorem Invariant.leads :
    Leads (analyse ⟨p, o⟩) (Machine.start p entry budget) (fun _ => Closes holds) (Found holds) := by
  refine Guided.analyse_timed (fun n small point m stops => ⟨Nat.sub_le budget n, ?_⟩)
    (kept.guided_analyse (budget + 1) start)
  rw [Nat.sub_sub_self small]
  exact stops

/-- What every move keeps holds in every state that a run comes through. -/
theorem Invariant.stops {m : Machine}
    (stops : analyse ⟨p, o⟩ (Machine.start p entry budget) = .error (.stopped point) m) :
    (isPaid point → m.budget = 0) ∧ ∃ d s, holds ⟨m, d, s⟩ :=
  (kept.leads start).error stops point rfl

end Runs

end ChanFlow.Analysis
