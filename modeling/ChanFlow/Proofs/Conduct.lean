import ChanFlow.Proofs.Guide
import ChanFlow.Proofs.Parts

/-!
What every walk keeps.

A `Conduct` is an invariant of the machine together with a relation between the machines before and after steps
of one activation. It is `Lawful` if each step that leaves a block, or opens or closes a routine, keeps to it. A
lawful conduct is kept by the whole analysis; that induction is made here, once for all of them.

Some facts hold of every analysis and need not be shown again. An activation stays the same one, and its routine
keeps its name, its parameters and the lists that were set aside (`Same`). Activations have different numbers,
and those that wait are of different functions and have not begun (`Tidy`).
-/
open List

namespace ChanFlow.Analysis

open Ssa Protocol

variable {a : Activation} {p : Program} {m : Machine} {entry : Function} {o : Options} {budget : Nat}

/-! ### What holds of every analysis -/

/-- A function of the program that can be interpreted. -/
def Interpretable (p : Program) (f : Function) : Prop := p.function? f.name = some f ∧ f.hasBody

/-- The instruction stands in a block. -/
def Inside (f : Function) (block : Nat) (i : Instr) : Prop := ∃ b, f.block? block = some b ∧ i ∈ b.instrs

/-- An instruction of one block names the other as one to go on with. -/
def Leaves (f : Function) (src dst : Nat) : Prop := ∃ i, Inside f src i ∧ dst ∈ i.successors

/-- A function is entered from the outermost caller down to the activation itself. -/
theorem reenters_iff {name : String} : a.reenters name = true ↔ name ∈ a.callers ++ [a.func.name] := by
  rw [Activation.reenters, Bool.or_eq_true, decide_eq_true_iff, contains_iff_mem, mem_append,
    mem_singleton, or_comm, eq_comm]

/-- Activations are told apart by function and number. -/
def Apart (a b : Activation) : Prop := a.func.name = b.func.name → a.seq ≠ b.seq

structure Tidy (p : Program) (m : Machine) : Prop where
  known : Interpretable p m.act.func
  numbered : m.act.seq < m.context.count m.act.func.name
  unbegun : ∀ a ∈ m.tasks.waiting, Unbegun a ∧ Interpretable p a.func
  taken : ∀ a ∈ m.tasks.waiting, a.seq < m.context.count a.func.name
  apart : ∀ a ∈ m.tasks.waiting, Apart a m.act
  once : (m.tasks.waiting.map (·.func.name)).Nodup
  scheduled : ∀ a ∈ m.tasks.waiting, a.func.name ∈ m.tasks.scheduled

/-- The machine before and after any steps. -/
structure Later (m m' : Machine) : Prop where
  counts : ∀ func, m.context.count func ≤ m'.context.count func
  /-- Activations that were put into the queue meanwhile have new numbers. -/
  tasks : ∀ a ∈ m'.tasks.waiting, a ∈ m.tasks.waiting ∨ m.context.count a.func.name ≤ a.seq

/-- An activation before and after steps that build one routine. -/
structure Abides (a a' : Activation) : Prop where
  func : a'.func = a.func := by rfl
  seq : a'.seq = a.seq := by rfl
  callers : a'.callers = a.callers := by rfl
  name : a'.routine.name = a.routine.name := by rfl

/-- The machine before and after steps of one activation. -/
structure Same (m m' : Machine) : Prop extends Later m m', Abides m.act m'.act where
  params : m'.act.routine.params = m.act.routine.params
  waiting : m'.act.routine.waiting = m.act.routine.waiting

section Same

variable {p : Program} {m m' m'' : Machine}

theorem Later.refl (m : Machine) : Later m m := ⟨fun _ => Nat.le_refl _, fun _ => .inl⟩

theorem Later.trans (one : Later m m') (two : Later m' m'') : Later m m'' where
  counts func := Nat.le_trans (one.counts func) (two.counts func)
  tasks a member := by
    rcases two.tasks a member with old | new
    · exact one.tasks a old
    · exact .inr (Nat.le_trans (one.counts _) new)

theorem Abides.trans {b c : Activation} (one : Abides a b) (two : Abides b c) : Abides a c where
  func := two.func.trans one.func
  seq := two.seq.trans one.seq
  callers := two.callers.trans one.callers
  name := two.name.trans one.name

theorem Same.refl (m : Machine) : Same m m := ⟨.refl m, {}, rfl, rfl⟩

theorem Same.trans (one : Same m m') (two : Same m' m'') : Same m m'' where
  toLater := one.toLater.trans two.toLater
  toAbides := one.toAbides.trans two.toAbides
  params := two.params.trans one.params
  waiting := two.waiting.trans one.waiting

theorem Quiet.seq (quiet : Quiet m m') : m'.act.seq = m.act.seq := congrArg (·.seq) quiet.skeleton

theorem Quiet.same (quiet : Quiet m m') : Same m m' where
  func := quiet.func
  seq := quiet.seq
  callers := quiet.callers
  name := quiet.name
  params := quiet.params
  waiting := quiet.waiting
  counts := quiet.counts
  tasks _ member := .inl (quiet.tasks ▸ member)

theorem Quiet.tidy (quiet : Quiet m m') (tidy : Tidy p m) : Tidy p m' where
  known := quiet.func ▸ tidy.known
  numbered := by
    rw [quiet.func, quiet.seq]
    exact Nat.lt_of_lt_of_le tidy.numbered (quiet.counts _)
  unbegun := quiet.tasks ▸ tidy.unbegun
  taken a member := Nat.lt_of_lt_of_le (tidy.taken a (quiet.tasks ▸ member)) (quiet.counts _)
  apart a member := by
    rw [Apart, quiet.func, quiet.seq]
    exact tidy.apart a (quiet.tasks ▸ member)
  once := quiet.tasks ▸ tidy.once
  scheduled a member := quiet.tasks ▸ tidy.scheduled a (quiet.tasks ▸ member)

/-- An activation with a new number does not wait. -/
theorem Tidy.apart_of_numbered (tidy : Tidy p m) (numbered : Numbered m m' a) :
    ∀ b ∈ m.tasks.waiting, Apart b a := by
  intro b member same number
  have below := tidy.taken b member
  have fresh := numbered.fresh
  rw [same] at below
  omega

/-- An activation with a new number takes over. -/
theorem Tidy.enter (tidy : Tidy p m) (quiet : Quiet m m') (known : Interpretable p a.func)
    (numbered : Numbered m m' a) : Tidy p { m' with act := a } :=
  { quiet.tidy tidy with
    known := known
    numbered := numbered.taken
    apart := fun b member => tidy.apart_of_numbered numbered b (quiet.tasks ▸ member) }

/-- The activation that was interrupted goes on. -/
theorem Tidy.resume (tidy : Tidy p m') (later : Later m m') (before : Tidy p m) : Tidy p { m' with act := m.act } :=
  { tidy with
    known := before.known
    numbered := Nat.lt_of_lt_of_le before.numbered (later.counts _)
    apart := by
      intro b member
      rcases later.tasks b member with old | new
      · exact before.apart b old
      · intro same number
        have numbered := before.numbered
        have same : b.func.name = m.act.func.name := same
        have number : b.seq = m.act.seq := number
        rw [same] at new
        omega }

/-- An activation with a new number is put into the queue. -/
theorem Tidy.enqueue (tidy : Tidy p m) {f : Function} {queue : TaskQueue}
    (quiet : Quiet m m') (known : Interpretable p f) (new : Newcomer m.act f a) (numbered : Numbered m m' a)
    (queued : m.tasks.enqueue? a = some queue) :
    Tidy p { m' with tasks := queue } ∧ Later m { m' with tasks := queue } := by
  obtain ⟨unscheduled, rfl⟩ := TaskQueue.enqueue?_eq_some queued
  have after := quiet.tidy tidy
  have either {b : Activation} (member : b ∈ m.tasks.waiting ++ [a]) : b ∈ m.tasks.waiting ∨ b = a := by
    simpa using member
  refine ⟨⟨after.known, after.numbered, ?_, ?_, ?_, ?_, ?_⟩, quiet.counts, ?_⟩
  · intro b member
    rcases either member with old | rfl
    · exact tidy.unbegun b old
    · exact ⟨new.unbegun, new.func ▸ known⟩
  · intro b member
    rcases either member with old | rfl
    · exact Nat.lt_of_lt_of_le (tidy.taken b old) (quiet.counts _)
    · exact numbered.taken
  · intro b member
    rcases either member with old | rfl
    · exact after.apart b (quiet.tasks ▸ old)
    · intro same number
      have before := tidy.numbered
      have fresh := numbered.fresh
      have same : b.func.name = m'.act.func.name := same
      have number : b.seq = m'.act.seq := number
      rw [same, number, quiet.func, quiet.seq] at fresh
      omega
  · have unused : a.func.name ∉ m.tasks.waiting.map (·.func.name) := by
      intro used
      obtain ⟨b, member, same⟩ := mem_map.1 used
      exact unscheduled (same ▸ tidy.scheduled b member)
    show ((m.tasks.waiting ++ [a]).map (·.func.name)).Nodup
    rw [map_append, nodup_append]
    refine ⟨tidy.once, by simp, fun name used other here same => unused ?_⟩
    obtain rfl : other = a.func.name := by simpa using here
    exact same ▸ used
  · intro b member
    rcases either member with old | rfl
    · exact mem_cons_of_mem _ (tidy.scheduled b old)
    · exact mem_cons_self
  · intro b member
    rcases either member with old | rfl
    · exact .inl old
    · exact .inr numbered.fresh

end Same

/-! ### Conducts -/

/-- An invariant, and a relation between the machines before and after steps of one activation. -/
structure Conduct where
  holds : Machine → Prop
  keeps : Machine → Machine → Prop
  /-- What holds where the analysis is stopped. -/
  stopped : Point → Machine → Prop
  /-- What holds while the instructions of a block are interpreted: of the machine at the entry of the block, the
  instructions that are left and the machine as it is. -/
  during : Machine → Arrival → Block → List Instr → Machine → Prop := fun m₀ _ _ _ m =>
    holds m ∧ keeps m₀ m
  /-- What holds of the machines before and after all that follows from the entry of a block. -/
  walks : Machine → Machine → Prop := fun _ _ => True
  /-- What is known of a case that gets its body: the position of the select and the number of the case. -/
  fills : Machine → Nat → Nat → Prop := fun _ _ _ => True
  /-- What holds before the entry function is interpreted. -/
  ready : Machine → Prop
  /-- What holds before anything is interpreted, the initialiser included. -/
  fresh : Machine → Prop := ready
  /-- What holds between the spawned functions. -/
  idle : Machine → Prop

namespace Conduct

variable (c : Conduct) (p : Program)

structure At (m : Machine) : Prop where
  tidy : Tidy p m
  holds : c.holds m

/-- Where a step leads to. -/
structure Moves (m m' : Machine) : Prop where
  holds : c.holds m'
  keeps : c.keeps m m'

/-- Where a walk of an activation leads to. -/
structure Stays (m m' : Machine) : Prop where
  same : Same m m'
  tidy : Tidy p m'
  holds : c.holds m'
  keeps : c.keeps m m'

theorem Moves.stays {c : Conduct} {p : Program} {m' : Machine} (moves : c.Moves m m') (same : Same m m')
    (tidy : Tidy p m') : c.Stays p m m' := ⟨same, tidy, moves.holds, moves.keeps⟩

/-- The list that was current before is the one set aside last. -/
theorem Stays.stack {c : Conduct} {p : Program} {m₁ : Machine} (first : c.Stays p m.setAside m₁) :
    m₁.act.routine.waiting = m.act.routine.stmts :: m.act.routine.waiting := first.same.waiting

theorem Stays.stackOfSides {c : Conduct} {p : Program} {m₁ m₂ : Machine} (first : c.Stays p m.setAside m₁)
    (second : c.Stays p (m₁.setAside.resetLoops m.act.loops) m₂) :
    m₂.act.routine.waiting = m₁.act.routine.stmts :: m.act.routine.stmts :: m.act.routine.waiting := by
  rw [second.same.waiting]
  exact congrArg (m₁.act.routine.stmts :: ·) first.same.waiting

/-- Where entering a block leads to. -/
structure Walked (m m' : Machine) : Prop extends Stays c p m m' where
  walks : c.walks m m'

end Conduct

namespace Machine

/-- A merge point is begun for the first arrival at it. -/
def openMerge (m : Machine) (dst : Nat) : Machine :=
  (m.addLabel dst).openRoutine (Routine.addParams { name := m.act.mergeLabel dst } m.act.routine.continuationParams)
    (.mergePointStarted (m.act.mergeLabel dst))

/-- A merge point is finished, and the routine that called it goes on. -/
def closeMerge (m m₁ : Machine) (dst : Nat) : Machine := m₁.closeRoutine.setRoutine (m.addLabel dst).act.routine

/-- An activation begins to be interpreted. -/
def openFunction (m : Machine) (a : Activation) : Machine :=
  ({ m with act := a } : Machine).openRoutine a.routine .routineStarted

/-- A function is finished, and the activation that called it goes on. -/
def closeFunction (m m₁ : Machine) (args : List String) : Machine :=
  ({ m₁.closeRoutine with act := m.act } : Machine).addStatement (.call m₁.act.routine.name args)

/-- Both sides of a branch are done, from `m` by way of `m₁` and `m₂`. -/
def joinSides (m m₁ m₂ : Machine) : Machine :=
  m₂.setRoutine (Routine.addBranch
    { m₂.act.routine with stmts := m.act.routine.stmts, waiting := m.act.routine.waiting }
    m₁.act.routine.stmts m₂.act.routine.stmts)

/-- The routine with the list that was current in `m`. -/
def backTo (m m₁ : Machine) : Routine :=
  { m₁.act.routine with stmts := m.act.routine.stmts, waiting := m.act.routine.waiting }

end Machine

theorem labels_openMerge (m : Machine) (n dst : Nat) (key : BlockVisit) (known : (m.act.labels.get? key).isSome) :
    (((m.withBudget n).openMerge dst).act.labels.get? key).isSome := by
  show ((m.act.labels.insert (m.act.key dst) (m.act.mergeLabel dst)).get? key).isSome
  rw [Table.get?_insert]
  split
  · rfl
  · exact known

theorem label_openMerge (m : Machine) (n dst : Nat) :
    (((m.withBudget n).openMerge dst).act.labels.get? (m.act.key dst)).isSome := by
  show ((m.act.labels.insert (m.act.key dst) (m.act.mergeLabel dst)).get? (m.act.key dst)).isSome
  rw [Table.get?_insert, if_pos rfl]
  rfl

namespace Conduct

/-- What has to be shown of each step for a conduct to be kept by the analysis. What is known of the states that
the analysis comes through is `property`. -/
structure Lawful (c : Conduct) (env : Env) (property : Property) : Prop where
  refl : ∀ {m}, c.At env.program m → c.keeps m m := by exact fun _ => trivial
  trans : ∀ {m m' m''}, c.Stays env.program m m' → c.Stays env.program m' m'' → c.keeps m m'' := by
    exact fun _ _ => trivial
  /-- Steps inside a block. -/
  quiet : ∀ {m m'}, c.At env.program m → Quiet m m' → m'.budget = m.budget → c.Moves m m'
  turn : ∀ {m arrival i l}, c.At env.program m → Inside m.act.func arrival.block i →
    Turn m.act arrival i.action l → c.Moves m (m.setLoop l)
  defer : ∀ {m} (call : Call), c.At env.program m →
    c.Moves m (m.onAct fun a => { a with defers := a.defers ++ [call] })
  /-- Following an edge, straight on or to a merge point. -/
  straight : ∀ {m n src dst block}, c.At env.program m → m.budget = n + 1 →
    property (n + 1) (.edge src dst) (m.withBudget 0) → m.act.func.block? dst = some block →
    (block.isMergePoint → m.act.loops.current.repeatsAt dst) → c.Moves m (m.withBudget n)
  again : ∀ {m n src dst block label}, c.At env.program m → m.budget = n + 1 →
    property (n + 1) (.edge src dst) (m.withBudget 0) → m.act.func.block? dst = some block → block.isMergePoint →
    m.act.loops.current.repeatsAt dst = false → m.act.labels.get? (m.act.key dst) = some label →
    c.Moves m
      ((m.withBudget n).addStatement (.call label (m.act.routine.continuationParams.map (·.callee))))
  merge : ∀ {m n src dst block}, c.At env.program m → m.budget = n + 1 →
    property (n + 1) (.edge src dst) (m.withBudget 0) → m.act.func.block? dst = some block → block.isMergePoint →
    m.act.loops.current.repeatsAt dst = false → m.act.labels.get? (m.act.key dst) = none →
    c.holds ((m.withBudget n).openMerge dst) ∧
      ∀ m₁, c.Walked env.program ((m.withBudget n).openMerge dst) m₁ →
        c.Moves m ((m.withBudget n).closeMerge m₁ dst)
  /-- The sides of a branch, and the cases of a select. -/
  aside : ∀ {m}, c.At env.program m → c.holds m.setAside
  between : ∀ {m m₁}, c.At env.program m → c.Stays env.program m.setAside m₁ →
    c.holds (m₁.setAside.resetLoops m.act.loops)
  join : ∀ {m m₁ m₂}, c.At env.program m → c.Stays env.program m.setAside m₁ →
    c.Stays env.program (m₁.setAside.resetLoops m.act.loops) m₂ → c.Moves m (m.joinSides m₁ m₂)
  test : ∀ {m m₀ arrival i cond onTrue onFalse site case}, c.At env.program m →
    property (m.budget + 1) (.instr arrival i) (m.withBudget 0) →
      i.action = .perform (.branch cond onTrue onFalse) →
    Settled cond onTrue onFalse arrival m m₀ → selectTest? m₀.act cond = some (site, case) →
    site.routine = m₀.act.routine.name ∧ m₀.act.routine.isSelectAt site.slot →
    c.fills m₀ site.slot case ∧ ∀ m₁, c.Stays env.program m₀ m₁ → case + 1 = site.cases →
      site.blocking = false → c.fills m₁ site.slot site.cases := by exact 
    fun _ _ _ _ _ _ => ⟨trivial, fun _ _ _ _ => trivial⟩
  case : ∀ {m m₁ slot case r}, c.At env.program m → c.fills m slot case →
    c.Stays env.program m.setAside m₁ → (m.backTo m₁).extendCaseOf slot case m₁.act.routine.stmts = .ok r →
    c.Moves m (m₁.setRoutine r)
  reset : ∀ {m m₁}, c.At env.program m → c.Stays env.program m m₁ →
    c.Moves m (m₁.resetLoops m.act.loops)
  /-- Calls and spawns. -/
  call : ∀ {m m' n f a}, c.At env.program m → Quiet m m' → m'.budget = n + 1 → m.budget = n + 1 →
    Interpretable env.program f → m.act.reenters f.name = false → Newcomer m.act f a → Numbered m m' a →
    property (n + 1) (.handOver f.name a.routine.params) (m'.withBudget 0) →
    c.holds ((m'.withBudget n).openFunction a) ∧
      ∀ m₁, c.Walked env.program ((m'.withBudget n).openFunction a) m₁ →
        c.Moves m (m'.closeFunction m₁ (a.routine.params.map (·.caller)))
  spawn : ∀ {m m' n f a}, c.At env.program m → Quiet m m' → m'.budget = n + 1 → m.budget = n + 1 →
    Interpretable env.program f → Newcomer m.act f a → Numbered m m' a →
    property (n + 1) (.handOver f.name a.routine.params) (m'.withBudget 0) →
    (m.act.reenters f.name ∨ m.tasks.enqueue? a = none →
      c.Moves m ((m'.withBudget n).addStatement (.spawn f.name (a.routine.params.map (·.caller))))) ∧
    ∀ queue, m.act.reenters f.name = false → m.tasks.enqueue? a = some queue →
      c.Moves m
        { (m'.withBudget n).addStatement (.spawn f.name (a.routine.params.map (·.caller))) with tasks := queue }
  /-- Blocks. -/
  revisit : ∀ {m : Machine} {arrival : Arrival} {block : Block}, c.At env.program m →
    m.act.func.block? arrival.block = some block →
    (m.enter block arrival.pred).act.hasVisited block.index →
    c.Moves m ((m.enter block arrival.pred).emit (.blockRevisited block.index)) ∧
      c.walks m ((m.enter block arrival.pred).emit (.blockRevisited block.index))
  visit : ∀ {m : Machine} {arrival : Arrival} {block : Block} {visited : List BlockVisit}, c.At env.program m →
    m.act.func.block? arrival.block = some block →
    (m.enter block arrival.pred).act.hasVisited block.index = false →
    (m.enter block arrival.pred).act.noteVisit block.index = { (m.enter block arrival.pred).act with visited } →
    c.during m arrival block block.instrs
      { m.enter block arrival.pred with act := { (m.enter block arrival.pred).act with visited } }
  instr : ∀ {m₀ m arrival block i rest}, c.during m₀ arrival block (i :: rest) m → Same m₀ m →
    Tidy env.program m →
    m.act.func.block? arrival.block = some block → (i :: rest) <:+ block.instrs →
    (m.budget = 0 → c.stopped (.instr arrival i) (m.emit (.instrVisited i))) ∧
    ∀ n, m.budget = n + 1 → property (n + 1) (.instr arrival i) ((m.emit (.instrVisited i)).withBudget 0) →
      c.holds ((m.emit (.instrVisited i)).withBudget n) ∧
      ∀ m', c.Stays env.program ((m.emit (.instrVisited i)).withBudget n) m' → c.during m₀ arrival block rest m'
  ends : ∀ {m₀ m arrival block}, c.during m₀ arrival block [] m → Same m₀ m → Tidy env.program m →
    m.act.func.block? arrival.block = some block → c.Moves m₀ m ∧ c.walks m₀ m
  /-- Being stopped elsewhere. -/
  stopEdge : ∀ {m src dst}, c.At env.program m → m.budget = 0 → Leaves m.act.func src dst →
    c.stopped (.edge src dst) m := by exact fun _ _ _ => trivial
  stopHandOver : ∀ {m func channels}, c.At env.program m → m.budget = 0 →
    c.stopped (.handOver func channels) m := by exact fun _ _ => trivial
  stopBlock : ∀ {m arrival}, c.At env.program m → c.stopped (.block arrival) m := by exact fun _ => trivial
  /-- The parts of a program: the initialiser, the entry function and the spawned ones. -/
  skip : ∀ {m}, c.fresh m → c.ready m
  init : ∀ {m m' f seq}, Tidy env.program m → c.fresh m →
    (env.program.function? env.options.init).filter (·.hasBody) = some f → Quiet m m' → m'.budget = m.budget →
    Numbered m m' (Activation.start f seq [] m.act.func.name) →
    c.holds { m' with act := Activation.start f seq [] m.act.func.name } ∧
      ∀ m₁, c.Walked env.program { m' with act := Activation.start f seq [] m.act.func.name } m₁ →
        c.ready { m₁ with act := m'.act.setRoutine m₁.act.routine }
  entry : ∀ {m}, Tidy env.program m → c.ready m →
    c.holds (m.openFunction m.act) ∧
      ∀ m₁, c.Walked env.program (m.openFunction m.act) m₁ → c.idle m₁.closeRoutine
  task : ∀ {m a rest}, Tidy env.program m → c.idle m → m.tasks.waiting = a :: rest →
    c.holds (({ m with tasks := { m.tasks with waiting := rest } } : Machine).openFunction a) ∧
      ∀ m₁, c.Walked env.program
          (({ m with tasks := { m.tasks with waiting := rest } } : Machine).openFunction a) m₁ →
        c.idle { m₁.closeRoutine with act := m.act }
  stopTask : ∀ {m}, c.idle m → c.stopped .nextTask m := by exact fun _ => trivial

/-- A conduct that only speaks of where a run is stopped. -/
def stopping (stopped : Point → Machine → Prop) : Conduct where
  holds _ := True
  keeps _ _ := True
  stopped := stopped
  ready _ := True
  idle _ := True

theorem lawful_stopping {env : Env} {stopped : Point → Machine → Prop} (property : Property)
    (instr : ∀ {m arrival i}, Tidy env.program m → Inside m.act.func arrival.block i →
      stopped (.instr arrival i) m)
    (edge : ∀ {m src dst}, Tidy env.program m → Leaves m.act.func src dst → stopped (.edge src dst) m)
    (handOver : ∀ {m func channels}, Tidy env.program m → stopped (.handOver func channels) m)
    (block : ∀ {m arrival}, stopped (.block arrival) m) (nextTask : ∀ {m}, stopped .nextTask m) :
    (stopping stopped).Lawful env property where
  quiet _ _ _ := ⟨trivial, trivial⟩
  turn _ _ _ := ⟨trivial, trivial⟩
  defer _ _ := ⟨trivial, trivial⟩
  straight _ _ _ _ _ := ⟨trivial, trivial⟩
  again _ _ _ _ _ _ _ := ⟨trivial, trivial⟩
  merge _ _ _ _ _ _ _ := ⟨trivial, fun _ _ => ⟨trivial, trivial⟩⟩
  aside _ := trivial
  between _ _ := trivial
  join _ _ _ := ⟨trivial, trivial⟩
  case _ _ _ _ := ⟨trivial, trivial⟩
  reset _ _ := ⟨trivial, trivial⟩
  call _ _ _ _ _ _ _ _ _ := ⟨trivial, fun _ _ => ⟨trivial, trivial⟩⟩
  spawn _ _ _ _ _ _ _ _ := ⟨fun _ => ⟨trivial, trivial⟩, fun _ _ _ => ⟨trivial, trivial⟩⟩
  revisit _ _ _ := ⟨⟨trivial, trivial⟩, trivial⟩
  visit _ _ _ _ := ⟨trivial, trivial⟩
  instr _ _ tidy found rest := ⟨fun _ => instr { tidy with } ⟨_, found, rest.subset List.mem_cons_self⟩,
    fun _ _ _ => ⟨trivial, fun _ _ => ⟨trivial, trivial⟩⟩⟩
  ends _ _ _ _ := ⟨⟨trivial, trivial⟩, trivial⟩
  stopEdge here _ leaves := edge here.tidy leaves
  stopHandOver here _ := handOver here.tidy
  stopBlock _ := block
  skip := id
  init _ _ _ _ _ _ := ⟨trivial, fun _ _ => trivial⟩
  entry _ _ := ⟨trivial, fun _ _ => trivial⟩
  task _ _ _ := ⟨trivial, fun _ _ => trivial⟩
  stopTask _ := nextTask

/-! ### Walks keep to a lawful conduct -/

/-- What is shown of a halt: only being stopped matters. -/
def Halted (c : Conduct) (h : Halt) (m : Machine) : Prop := ∀ point, h = .stopped point → c.stopped point m

theorem mayFail (c : Conduct) (m : Machine) : MayFail c.Halted m := fun _ _ goes _ point eq => absurd eq (goes point)

theorem halted_stopped {c : Conduct} {point : Point} (stopped : c.stopped point m) : c.Halted (.stopped point) m := by
  rintro _ ⟨⟩
  exact stopped

section Walks

variable {c : Conduct} {env : Env} {property : Property} {walk : Walker} {m m' m'' : Machine}

theorem Stays.at (stays : c.Stays env.program m m') : c.At env.program m' := ⟨stays.tidy, stays.holds⟩

/-- A walk keeps to the conduct. -/
def Follows (c : Conduct) (env : Env) (property : Property) (walk : Walker) : Prop :=
  ∀ arrival m, c.At env.program m →
    Guided property (walk arrival) m (fun _ m' => c.Walked env.program m m') c.Halted

/-- A step of an activation keeps to it. -/
abbrev Guides (c : Conduct) (env : Env) (property : Property) (x : Run Unit) (m : Machine) : Prop :=
  Guided property x m (fun _ m' => c.Stays env.program m m') c.Halted

namespace Lawful

variable (lawful : c.Lawful env property)
include lawful

theorem stays_refl (here : c.At env.program m) : c.Stays env.program m m :=
  ⟨.refl m, here.tidy, here.holds, lawful.refl here⟩

theorem stays_trans (one : c.Stays env.program m m') (two : c.Stays env.program m' m'') : c.Stays env.program m m'' :=
  ⟨one.same.trans two.same, two.tidy, two.holds, lawful.trans one two⟩

theorem stays_quiet (here : c.At env.program m) (quiet : Quiet m m') (budget : m'.budget = m.budget) :
    c.Stays env.program m m' := (lawful.quiet here quiet budget).stays quiet.same (quiet.tidy here.tidy)

theorem stays_turned {arrival : Arrival} {i : Instr} (here : c.At env.program m)
    (inside : Inside m.act.func arrival.block i) (turned : Turned i.action arrival m m')
    (budget : m'.budget = m.budget) : c.Stays env.program m m' := by
  obtain ⟨l, turn, quiet⟩ := turned
  have turned : c.Stays env.program m (m.setLoop l) :=
    (lawful.turn here inside turn).stays { Same.refl m with } { here.tidy with }
  exact lawful.stays_trans turned (lawful.stays_quiet turned.at quiet budget)

section

variable (regular : Regular walk) (follows : c.Follows env property walk) (here : c.At env.program m)
include regular follows here

theorem guided_edge {src dst : Nat} (leaves : Leaves m.act.func src dst) :
    c.Guides env property (followEdge walk src dst) m := by
  refine guided_followEdge (fun spent => halted_stopped (lawful.stopEdge here spent leaves)) fun reached n pays => ?_
  rw [pays] at reached
  refine guided_arriveAt regular (fun _ => c.mayFail _) ?_ ?_ ?_
  · intro block found straight
    have paid : c.Stays env.program m (m.withBudget n) :=
      (lawful.straight here pays reached found straight).stays { Same.refl m with } { here.tidy with }
    exact (follows _ _ paid.at).imp fun _ _ walked => lawful.stays_trans paid walked.toStays
  · intro block label found merge fresh known
    exact (lawful.again here pays reached found merge fresh known).stays { Same.refl m with } { here.tidy with }
  · intro block found merge fresh unknown
    obtain ⟨opened, closes⟩ := lawful.merge here pays reached found merge fresh unknown
    have begun : c.At env.program ((m.withBudget n).openMerge dst) := ⟨{ here.tidy with }, opened⟩
    refine (follows _ _ begun).imp fun _ m₁ walked => ?_
    exact (closes m₁ walked).stays { walked.same with name := rfl, params := rfl, waiting := rfl }
      { walked.tidy with }

theorem guided_sides {src onTrue onFalse : Nat} (leavesTrue : Leaves m.act.func src onTrue)
    (leavesFalse : Leaves m.act.func src onFalse) :
    c.Guides env property (walkBothWays walk src onTrue onFalse) m := by
  have aside : c.At env.program m.setAside := ⟨{ here.tidy with }, lawful.aside here⟩
  refine guided_walkBothWays regular ((lawful.guided_edge regular follows aside leavesTrue).imp ?_)
  intro _ m₁ first
  have again : c.At env.program (m₁.setAside.resetLoops m.act.loops) :=
    ⟨{ first.tidy with }, lawful.between here first⟩
  have func : m₁.act.func = m.act.func := first.same.func
  refine (lawful.guided_edge regular follows again (func ▸ leavesFalse)).imp fun _ m₂ second => ?_
  refine ⟨c.mayFail m₂, fun thenBody before rest waits => ?_⟩
  obtain ⟨rfl, rfl, rfl⟩ : thenBody = m₁.act.routine.stmts ∧ before = m.act.routine.stmts ∧
      rest = m.act.routine.waiting := by simpa using waits.symm.trans (first.stackOfSides second)
  have one : Later m m₁ := { first.same with }
  have two : Later m₁ m₂ := { second.same with }
  have abides : Abides m.act m₂.act := .trans (b := m₁.act) { first.same with } { second.same with }
  have same : Same m (m.joinSides m₁ m₂) :=
    { one.trans two, abides with
      params := second.same.params.trans first.same.params
      waiting := rfl }
  exact (lawful.join here first second).stays same { second.tidy with }

theorem guided_case {src dst slot case : Nat} (leaves : Leaves m.act.func src dst) (fills : c.fills m slot case) :
    c.Guides env property (collectCase walk src dst slot case) m := by
  have aside : c.At env.program m.setAside := ⟨{ here.tidy with }, lawful.aside here⟩
  refine guided_collectCase regular ((lawful.guided_edge regular follows aside leaves).imp ?_)
  refine fun _ m₁ first => ⟨c.mayFail m₁, fun before rest waits r extended => ?_⟩
  obtain ⟨rfl, rfl⟩ : before = m.act.routine.stmts ∧ rest = m.act.routine.waiting := by
    simpa using waits.symm.trans first.stack
  have header : r.name = m₁.act.routine.name ∧
      r.params = m₁.act.routine.params ∧ r.waiting = m.act.routine.waiting := by
    obtain ⟨cases, -, rfl⟩ := Routine.extendCaseOf_eq extended
    exact ⟨rfl, rfl, rfl⟩
  have same : Same m (m₁.setRoutine r) :=
    { first.same with
      name := header.1.trans first.same.name
      params := header.2.1.trans first.same.params
      waiting := header.2.2 }
  exact (lawful.case here fills first extended).stays same { first.tidy with }

end

theorem stays_reset {m₁ : Machine} (here : c.At env.program m) (stays : c.Stays env.program m m₁) :
    c.Stays env.program m (m₁.resetLoops m.act.loops) :=
  (lawful.reset here stays).stays { stays.same with } { stays.tidy with }

section

variable (regular : Regular walk) (follows : c.Follows env property walk) (here : c.At env.program m)
include regular follows here

theorem guided_branch {arrival : Arrival} {i : Instr} {cond : Operand} {onTrue onFalse : Nat}
    (inside : Inside m.act.func arrival.block i) (action : i.action = .perform (.branch cond onTrue onFalse))
    (reached : property (m.budget + 1) (.instr arrival i) (m.withBudget 0)) :
    c.Guides env property (branch walk arrival cond onTrue onFalse) m := by
  have leaves (next : Nat) (either : next = onTrue ∨ next = onFalse) : Leaves m.act.func arrival.block next :=
    ⟨i, inside, by simpa [Instr.successors, action, Effect.successors] using either⟩
  have settle {m₀ : Machine} (settled : Settled cond onTrue onFalse arrival m m₀) : c.Stays env.program m m₀ :=
    lawful.stays_turned here inside (action ▸ settled.turned) settled.budget
  refine Analysis.guided_branch (fun m₀ next settled _ either => ?_) (fun m₀ site case settled found => ?_)
    fun m₀ settled => ?_
  · have start := settle settled
    exact (lawful.guided_edge regular follows start.at (start.same.func ▸ leaves next either)).imp
      (fun _ _ stays => lawful.stays_trans start stays)
  · have start := settle settled
    have leaves (next : Nat) (either : next = onTrue ∨ next = onFalse) : Leaves m₀.act.func arrival.block next :=
      start.same.func ▸ leaves next either
    refine guided_walkCaseTest regular (fun e => ?_) fun atHand => ?_
    · have emitted := lawful.stays_quiet start.at
        (.push m₀ (e := .strayCase m₀.act.routine.name e) fun _ eq => nomatch eq) rfl
      exact (lawful.guided_sides regular follows emitted.at (leaves _ (.inl rfl)) (leaves _ (.inr rfl))).imp
        (fun _ _ stays => lawful.stays_trans (lawful.stays_trans start emitted) stays)
    · obtain ⟨first, default⟩ := lawful.test here reached action settled found atHand
      refine (lawful.guided_case regular follows start.at (leaves _ (.inl rfl)) first).imp ?_
      intro _ m₁ stays
      have again := lawful.stays_reset start.at stays
      have onward : Leaves (m₁.resetLoops m₀.act.loops).act.func arrival.block onFalse :=
        again.same.func ▸ leaves _ (.inr rfl)
      have back := lawful.stays_trans start again
      exact ⟨fun last isOpen => (lawful.guided_case regular follows again.at onward (default _ again last isOpen)).imp
          (fun _ _ stays => lawful.stays_trans back stays),
        (lawful.guided_edge regular follows again.at onward).imp
          (fun _ _ stays => lawful.stays_trans back stays)⟩
  · have start := settle settled
    exact (lawful.guided_sides regular follows start.at (start.same.func ▸ leaves _ (.inl rfl))
      (start.same.func ▸ leaves _ (.inr rfl))).imp fun _ _ stays => lawful.stays_trans start stays

theorem guided_call (call : Call) (result : Result) :
    c.Guides env property (Analysis.call env.program walk call result) m := by
  refine Analysis.guided_call regular (c.mayFail m) (fun spent _ _ m' quiet budget => ?_)
    (fun _ quiet budget => lawful.stays_quiet here quiet budget) ?_
  · exact halted_stopped (lawful.stopHandOver (lawful.stays_quiet here quiet budget).at (budget.trans spent))
  intro f a m' n _ ⟨quiet, budget, known, new, numbered⟩ pays fresh reached
  obtain ⟨opened, closes⟩ := lawful.call here quiet (budget.trans pays) pays known fresh new numbered
    (pays ▸ reached)
  have entered := here.tidy.enter quiet (new.func ▸ known) numbered
  have begun : c.At env.program ((m'.withBudget n).openFunction a) := ⟨{ entered with }, opened⟩
  refine guided_walkFunction regular ((follows .entry _ begun).imp fun _ m₁ walked => ?_)
  refine ⟨c.mayFail _, fun m₂ quiet₂ budget₂ => ?_⟩
  have later : Later m' m₁ := { walked.same with }
  have resumed := walked.tidy.resume later (quiet.tidy here.tidy)
  have same : Same m (m'.closeFunction m₁ (a.routine.params.map (·.caller))) :=
    { quiet.same with toLater := { quiet.same.toLater.trans later with } }
  have back : c.Stays env.program m _ := (closes m₁ walked).stays same { resumed with }
  exact lawful.stays_trans back (lawful.stays_quiet back.at quiet₂ budget₂)

end

theorem guided_spawn (here : c.At env.program m) (call : Call) :
    c.Guides env property (Analysis.spawn env.program call) m := by
  refine Analysis.guided_spawn (c.mayFail m) (fun spent _ _ m' quiet budget => ?_)
    (fun _ quiet budget => lawful.stays_quiet here quiet budget) ?_
  · exact halted_stopped (lawful.stopHandOver (lawful.stays_quiet here quiet budget).at (budget.trans spent))
  rintro f a m' n ⟨quiet, budget, known, new, numbered⟩ pays reached m₁ rfl
  obtain ⟨dropped, queued⟩ := lawful.spawn here quiet (budget.trans pays) pays known new numbered (pays ▸ reached)
  have tasks : m'.tasks = m.tasks := quiet.tasks
  have after := quiet.tidy here.tidy
  rw [new.name]
  refine ⟨fun reason m₂ quiet₂ budget₂ => ?_, fun queue fresh enqueued => ?_⟩
  · have spawned : c.Stays env.program m _ :=
      (dropped (reason.imp_right fun full => tasks ▸ full)).stays { quiet.same with } { after with }
    exact lawful.stays_trans spawned (lawful.stays_quiet spawned.at quiet₂ budget₂)
  · have enqueued : m.tasks.enqueue? a = Option.some queue := tasks ▸ enqueued
    obtain ⟨tidy, later⟩ := here.tidy.enqueue quiet known new numbered enqueued
    exact (queued queue fresh enqueued).stays { quiet.same with toLater := { later with } } { tidy with }

section

variable (regular : Regular walk) (follows : c.Follows env property walk)
include regular follows

theorem guided_action
    (here : c.At env.program m) {arrival : Arrival} {i : Instr} (inside : Inside m.act.func arrival.block i)
    (reached : property (m.budget + 1) (.instr arrival i) (m.withBudget 0)) :
    c.Guides env property (interpret env walk arrival i.action) m := by
  refine guided_interpret (c.mayFail m) (fun _ turned same => lawful.stays_turned here inside turned
    same) ?_ ?_ ?_ ?_ ?_ ?_
  · exact fun call result _ => lawful.guided_call regular follows here call result
  · refine fun dst jump => lawful.guided_edge regular follows here ⟨i, inside, ?_⟩
    rw [Instr.successors, jump]
    exact mem_cons_self
  · exact fun _ _ _ branch => lawful.guided_branch regular follows here inside branch reached
  · exact fun call _ => lawful.guided_spawn here call
  · exact fun call _ => (lawful.defer call here).stays { Same.refl m with } { here.tidy with }
  · refine fun _ =>
      .read (.forM (fun _ m' => c.Stays env.program m m') (fun c => (alike_call regular _ c none).metered) ?_
      (lawful.stays_refl here))
    intro call _ m' stays
    exact (lawful.guided_call regular follows stays.at call none).imp fun _ _ => lawful.stays_trans stays

theorem follows_enterBlock : c.Follows env property (enterBlock env walk) := by
  intro arrival m here
  refine guided_enterBlock (fun _ => c.mayFail m) (fun block found seen => ?_) fun block found fresh => ?_
  · obtain ⟨moves, walks⟩ := lawful.revisit here found seen
    exact ⟨moves.stays { Same.refl m with } { here.tidy with }, walks⟩
  -- The instructions that are left are always the last ones of the block.
  refine .imp (.forM (fun rest m' => c.during m arrival block rest m' ∧ Same m m' ∧ Tidy env.program m' ∧
    rest <:+ block.instrs) (fun i => (alike_walkInstr regular env arrival i).metered) ?_ ?_) ?_
  · rintro i rest m₁ ⟨during, same, tidy, suffix⟩
    have found : m₁.act.func.block? arrival.block = some block := same.func ▸ found
    obtain ⟨stop, goes⟩ := lawful.instr during same tidy found suffix
    refine guided_walkInstr (fun spent => halted_stopped (stop spent)) fun reached n pays => ?_
    rw [pays] at reached
    obtain ⟨holds, continues⟩ := goes n pays reached
    have inside : Inside m₁.act.func arrival.block i := ⟨block, found, suffix.subset mem_cons_self⟩
    have here : c.At env.program ((m₁.emit (.instrVisited i)).withBudget n) := ⟨{ tidy with }, holds⟩
    refine (lawful.guided_action regular follows here inside reached).weaken (fun _ m₂ stays => ?_)
      fun h m₂ halted => ?_
    · have onward : Same m₁ m₂ := { stays.same with }
      exact ⟨continues m₂ stays, same.trans onward, stays.tidy, (suffix_cons i rest).trans suffix⟩
    · cases h with
      | failed e => exact fun _ eq => nomatch eq
      | stopped point => exact halted
      | endless ty => exact fun _ eq => nomatch eq
  · obtain ⟨visited, noted⟩ := noteVisit_eq (m.enter block arrival.pred).act block.index
    rw [Machine.onAct, noted]
    exact ⟨lawful.visit here found fresh noted, { Same.refl m with }, { here.tidy with }, suffix_refl _⟩
  · rintro _ m₁ ⟨during, same, tidy, -⟩
    obtain ⟨moves, walks⟩ := lawful.ends during same tidy (same.func ▸ found)
    exact ⟨moves.stays same tidy, walks⟩

end

theorem follows_walkBlock (depth : Nat) : c.Follows env property (walkBlock env depth) := by
  induction depth with
  | zero => exact fun _ _ here => .of_leads (halted_stopped (lawful.stopBlock here))
  | succ depth ih => exact lawful.follows_enterBlock (regular_walkBlock env depth) ih

section

variable (regular : Regular walk) (follows : c.Follows env property walk)
include regular follows

theorem guided_init (tidy : Tidy env.program m) (fresh : c.fresh m) :
    Guided property (initialise env walk) m (fun _ m' => Tidy env.program m' ∧ c.ready m') c.Halted := by
  refine guided_initialise regular (fun _ => ⟨tidy, lawful.skip fresh⟩)
    fun init seq m' found quiet budget numbered => ?_
  obtain ⟨holds, returns⟩ := lawful.init tidy fresh found quiet budget numbered
  obtain ⟨known, body⟩ := Option.filter_eq_some_iff.1 found
  have known : Interpretable env.program init := ⟨(Program.function?_name known).symm ▸ known, body⟩
  refine (follows .entry _ ⟨tidy.enter quiet known numbered, holds⟩).imp
    fun _ m₁ stays => ⟨?_, returns m₁ stays⟩
  have later : Later m' m₁ := { stays.same with }
  exact { stays.tidy.resume later (quiet.tidy tidy) with }

theorem guided_entry (tidy : Tidy env.program m) (ready : c.ready m) :
    Guided property (walkFunction walk) m (fun _ m' => Tidy env.program m' ∧ c.idle m') c.Halted := by
  obtain ⟨holds, ends⟩ := lawful.entry tidy ready
  have begun : c.At env.program (m.openFunction m.act) := ⟨{ tidy with }, holds⟩
  refine guided_walkFunction regular ((follows .entry _ begun).imp fun _ m₁ stays => ?_)
  exact ⟨{ stays.tidy with }, ends m₁ stays⟩

theorem guided_tasks (count : Nat) (tidy : Tidy env.program m) (idle : c.idle m) :
    Guided property (drain walk count) m
      (fun _ m' => Tidy env.program m' ∧ c.idle m' ∧ m'.tasks.waiting = []) c.Halted := by
  refine guided_drain (fun _ m => Tidy env.program m ∧ c.idle m) regular
    (fun m inv => halted_stopped (lawful.stopTask inv.2))
      (fun _ m inv drained => ⟨inv.1, inv.2, drained⟩) ?_ ⟨tidy, idle⟩
  rintro _ m a rest ⟨tidy, idle⟩ waits
  obtain ⟨holds, ends⟩ := lawful.task tidy idle waits
  have first : a ∈ m.tasks.waiting := waits ▸ mem_cons_self
  have others {b : Activation} (member : b ∈ rest) : b ∈ m.tasks.waiting := waits ▸ mem_cons_of_mem a member
  have once := tidy.once
  rw [waits, map_cons, nodup_cons] at once
  have begun : Tidy env.program { m with tasks := { m.tasks with waiting := rest }, act := a } :=
    { known := (tidy.unbegun a first).2
      numbered := tidy.taken a first
      unbegun := fun b member => tidy.unbegun b (others member)
      taken := fun b member => tidy.taken b (others member)
      apart := fun b member same => absurd (mem_map.2 ⟨b, member, same⟩) once.1
      once := once.2
      scheduled := fun b member => tidy.scheduled b (others member) }
  have here : c.At env.program
      (({ m with tasks := { m.tasks with waiting := rest } } : Machine).openFunction a) := ⟨{ begun with }, holds⟩
  refine guided_walkFunction regular ((follows .entry _ here).imp fun _ m₁ stays => ⟨?_, ends m₁ stays⟩)
  have later : Later m m₁ :=
    { counts := stays.same.counts
      tasks := fun b member => (stays.same.tasks b member).imp_left others }
  exact { stays.tidy.resume later tidy with }

end

/-- The analysis keeps to a lawful conduct. -/
theorem guided_analyse (depth : Nat) (tidy : Tidy env.program m) (fresh : c.fresh m) :
    Guided property (analyseWith env (walkBlock env depth)) m
      (fun protocol last => ∃ m', Tidy env.program m' ∧ c.idle m' ∧ m'.tasks.waiting = [] ∧
        last.budget = m'.budget ∧
        protocol = if env.options.cleanUp then m'.context.protocol.cleanUp env.options.entry
          else m'.context.protocol)
      c.Halted := by
  have regular := regular_walkBlock env depth
  have follows := lawful.follows_walkBlock depth
  refine guided_analyseWith regular ((lawful.guided_init regular follows tidy fresh).imp ?_)
  rintro _ m₁ ⟨tidy, ready⟩
  refine (lawful.guided_entry regular follows tidy ready).imp ?_
  rintro _ m₂ ⟨tidy, idle⟩
  refine (lawful.guided_tasks regular follows _ tidy idle).imp ?_
  rintro _ m₃ ⟨tidy, idle, drained⟩ _ _ budget
  exact ⟨m₃, tidy, idle, drained, budget, rfl⟩

end Lawful

end Walks

end Conduct

/-! ### Runs from the start -/

theorem Tidy.start {name : String} (found : Enters p name entry) (budget : Nat) :
    Tidy p (Machine.start p entry budget) := by
  obtain ⟨known, body⟩ := Option.filter_eq_some_iff.1 found
  have counted := (Context.ofProgram p).count_numberActivation entry.name entry.name
  rw [if_pos rfl] at counted
  exact
    { known := ⟨(Program.function?_name known).symm ▸ known, body⟩
      numbered := Nat.lt_of_lt_of_eq (Nat.lt_succ_self _) counted.symm
      unbegun := fun _ waits => nomatch waits
      taken := fun _ waits => nomatch waits
      apart := fun _ waits => nomatch waits
      once := nodup_nil
      scheduled := fun _ waits => nomatch waits }

/-- The states that the run with a budget comes through, each with what is left of the budget there. They are the
states in which smaller budgets stop it. -/
def History (p : Program) (o : Options) (entry : Function) (budget left : Nat) (point : Point) (m : Machine) : Prop :=
  left ≤ budget ∧ analyse ⟨p, o⟩ (Machine.start p entry (budget - left)) = .error (.stopped point) m

/-- The run with a budget is stopped in a state. -/
def StopsAt (p : Program) (o : Options) (budget : Nat) (point : Point) (m : Machine) : Prop :=
  ∃ entry, (p.function? o.entry).filter (·.hasBody) = some entry ∧
    analyse ⟨p, o⟩ (Machine.start p entry budget) = .error (.stopped point) m

theorem exists_stopsAt (found : Enters p o.entry entry)
    (stops : Stops (analyse ⟨p, o⟩ (Machine.start p entry budget))) :
    ∃ point, StopsAt p o budget point (after (analyse ⟨p, o⟩ (Machine.start p entry budget))) := by
  cases result : analyse ⟨p, o⟩ (Machine.start p entry budget) with
  | ok protocol m =>
    rw [result] at stops
    exact stops.elim
  | error h m =>
    rw [result] at stops
    cases h with
    | failed e => exact stops.elim
    | endless ty => exact stops.elim
    | stopped point => exact ⟨point, entry, found, result⟩

/-- The instruction that a run is about to interpret. -/
def instrAhead? : Point → Option Instr
  | .instr _ i => some i
  | _ => none

/-- The state in which a budget stops the run. -/
def stop? (p : Program) (o : Options) (budget : Nat) : Option (Point × Machine) := do
  let entry ← (p.function? o.entry).filter (·.hasBody)
  match analyse ⟨p, o⟩ (Machine.start p entry budget) with
  | .error (.stopped point) m => some (point, m)
  | _ => none

theorem stop?_eq_some {n : Nat} {point : Point} : stop? p o n = some (point, m) ↔ StopsAt p o n point m := by
  unfold stop? StopsAt
  cases (p.function? o.entry).filter (·.hasBody) with
  | none => simp
  | some entry =>
    simp only [Option.bind_eq_bind, Option.bind_some, Option.some.injEq, exists_eq_left']
    split
    · next point' m' result => simp [result]
    · next other => exact ⟨(fun eq => nomatch eq), fun stops => absurd stops (other point m)⟩

/-- Where a run is stopped is found by running. -/
theorem exists_stop {n : Nat} {point : Point} {P : Machine → Prop} [DecidablePred P]
    (found : (stop? p o n).any fun s => s.1 = point ∧ P s.2) : ∃ m, StopsAt p o n point m ∧ P m := by
  obtain ⟨⟨_, m⟩, stops, same⟩ := (Option.any_eq_true ..).1 found
  obtain ⟨rfl, holds⟩ := of_decide_eq_true same
  exact ⟨m, stop?_eq_some.1 stops, holds⟩

/-- All states of a run that ends are checked by running it with every smaller budget. -/
theorem StopsAt.checked {n : Nat} {point : Point} {check : Nat → Point × Machine → Bool}
    (stops : StopsAt p o n point m)
    (found : Enters p o.entry entry) (ends : ¬ Stops (analyse ⟨p, o⟩ (Machine.start p entry budget)))
    (below : ∀ n < budget, (stop? p o n).all (check n)) : check n (point, m) := by
  have ⟨entry', found', stops'⟩ := stops
  obtain rfl := Option.mem_unique found found'
  have passes := below n (lt_of_stops ends stops')
  rwa [stop?_eq_some.2 stops] at passes

/-- What is left of a budget that is enough was left over in every state before. -/
theorem stops_before {n : Nat} {protocol : Protocol}
    {point : Point} {last : Machine} (ends : analyse ⟨p, o⟩ (Machine.start p entry budget) = .ok protocol last)
    (stops : analyse ⟨p, o⟩ (Machine.start p entry n) = .error (.stopped point) m) : n + last.budget < budget := by
  rw [analyse_eq ⟨p, o⟩ (Machine.start p entry budget) (Nat.lt_succ_of_le (Nat.le_add_right budget n))] at ends
  rw [analyse_eq ⟨p, o⟩ (Machine.start p entry n) (Nat.lt_succ_of_le (Nat.le_add_left n budget))] at stops
  have metered := (alike_analyseWith (regular_walkBlock ⟨p, o⟩ (budget + n + 1)) ⟨p, o⟩).metered
  obtain ⟨spent, total, again⟩ := metered (Machine.start p entry budget) (ends ▸ id)
  rw [ends] at total again
  have total : budget = spent + last.budget := total
  refine Nat.lt_of_not_le fun more => ?_
  obtain ⟨left, rfl⟩ : ∃ left, n = spent + left := ⟨n - spent, by omega⟩
  exact nomatch stops.symm.trans (again left)

/-- A run from the start keeps to a lawful conduct. -/
theorem Conduct.Lawful.leads {c : Conduct} (lawful : c.Lawful ⟨p, o⟩ (History p o entry budget))
    (found : Enters p o.entry entry) (fresh : c.fresh (Machine.start p entry budget)) :
    Leads (analyse ⟨p, o⟩) (Machine.start p entry budget)
      (fun protocol last => ∃ m', Tidy p m' ∧ c.idle m' ∧ m'.tasks.waiting = [] ∧ last.budget = m'.budget ∧
        protocol = if o.cleanUp then m'.context.protocol.cleanUp o.entry else m'.context.protocol)
      c.Halted := by
  refine Guided.analyse_timed (fun n small point m stops => ⟨Nat.sub_le budget n, ?_⟩)
    (lawful.guided_analyse (budget + 1) (.start found budget) fresh)
  rw [Nat.sub_sub_self small]
  exact stops

theorem exists_of_inferred {protocol : Protocol} (inferred : (infer budget p o).result = .ok protocol) :
    ∃ entry m, Enters p o.entry entry ∧
      analyse ⟨p, o⟩ (Machine.start p entry budget) = .ok protocol m := by
  unfold infer at inferred
  split at inferred
  · exact nomatch inferred
  · next entry known =>
    split at inferred
    · next m ends =>
      obtain rfl := Except.ok.inj inferred
      exact ⟨entry, m, known, ends⟩
    · exact nomatch inferred

end ChanFlow.Analysis
