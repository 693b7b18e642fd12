import ChanFlow.Proofs.Guide
import ChanFlow.Proofs.Visits

/-!
What an analysis costs.

A function is interpreted inside another only if it is not being interpreted already, and is queued only once.
Inside a function every block is interpreted once for each visit. So where no visit has more than so many
index values, some budget is enough. The proof keeps an account: the budget covers what the visits, calls and
tasks still to come cost at most.
-/
open List

namespace ChanFlow.Analysis

open Ssa Protocol

variable {f : Function} {a : Activation} {left' credit' : Nat} {arrival : Arrival} {block : Block} {i : Instr}
  {env : Env}

/-! ### Functions being interpreted -/

/-- A function that is being interpreted, with those on the way to it. -/
structure Frame (p : Program) where
  func : Function
  callers : List String
  member : func ∈ p.functions
  distinct : (callers ++ [func.name]).Nodup
  known : ∀ name ∈ callers, name ∈ p.functions.map (·.name)

namespace Frame

variable {p : Program} (frame : Frame p)

/-- How many functions are not being interpreted yet. -/
def left : Nat := p.functions.length - (frame.callers.length + 1)

theorem chain_subset : frame.callers ++ [frame.func.name] ⊆ p.functions.map (·.name) := by
  intro name member
  rcases mem_append.1 member with caller | self
  · exact frame.known name caller
  · exact mem_map.2 ⟨frame.func, frame.member, (mem_singleton.1 self).symm⟩

theorem length_callers_lt : frame.callers.length < p.functions.length := by
  have short := (frame.distinct.subperm frame.chain_subset).length_le
  rw [length_append, length_map] at short
  exact short

/-- The frame of an initialiser, of the entry function or of a function without callers. -/
def outermost {f : Function} (member : f ∈ p.functions) : Frame p :=
  ⟨f, [], member, nodup_singleton f.name, nofun⟩

/-- The frame of a function called from this one. -/
def enter {f : Function} (member : f ∈ p.functions)
    (fresh : f.name ∉ frame.callers ++ [frame.func.name]) : Frame p where
  func := f
  callers := frame.callers ++ [frame.func.name]
  member := member
  distinct := by
    refine nodup_append.2 ⟨frame.distinct, nodup_singleton f.name, ?_⟩
    rintro name caller _ self rfl
    exact fresh (mem_singleton.1 self ▸ caller)
  known := fun _ caller => frame.chain_subset caller

theorem left_enter (member : f ∈ p.functions)
    (fresh : f.name ∉ frame.callers ++ [frame.func.name]) : frame.left = (frame.enter member fresh).left + 1 := by
  have short := (frame.enter member fresh).length_callers_lt
  simp only [enter, length_append, length_singleton] at short
  simp only [left, enter, length_append, length_singleton]
  omega

end Frame

/-- An activation that has not visited anything yet. -/
structure Begins {p : Program} (frame : Frame p) (a : Activation) : Prop where
  func : a.func = frame.func
  callers : a.callers = frame.callers
  loops : a.loops = {}
  visited : a.visited = []
  defers : a.defers = []

/-- The queue after `taken` tasks were taken from it. -/
structure Queued (p : Program) (taken : Nat) (q : TaskQueue) : Prop where
  begins : ∀ a ∈ q.waiting, ∃ frame : Frame p, Begins frame a
  distinct : q.scheduled.Nodup
  known : ∀ name ∈ q.scheduled, name ∈ p.functions.map (·.name)
  count : q.scheduled.length = taken + q.waiting.length

section Queued

variable {p : Program} {taken : Nat} {q : TaskQueue}

theorem Queued.taken_le (queued : Queued p taken q) : taken + q.waiting.length ≤ p.functions.length := by
  have short := (queued.distinct.subperm queued.known).length_le
  rw [queued.count, length_map] at short
  exact short

theorem Queued.enqueue (queued : Queued p taken q) {q' : TaskQueue} {frame : Frame p}
    (begins : Begins frame a) (enqueued : q.enqueue? a = some q') : Queued p taken q' := by
  obtain ⟨new, rfl⟩ := TaskQueue.enqueue?_eq_some enqueued
  refine ⟨fun b member => ?_, nodup_cons.2 ⟨new, queued.distinct⟩, fun name member => ?_, ?_⟩
  · rcases mem_append.1 member with old | one
    · exact queued.begins b old
    · exact ⟨frame, mem_singleton.1 one ▸ begins⟩
  · rcases mem_cons.1 member with rfl | old
    · exact mem_map.2 ⟨frame.func, frame.member, congrArg (·.name) begins.func.symm⟩
    · exact queued.known name old
  · have count := queued.count
    simp only [length_cons, length_append, length_nil]
    omega

theorem Queued.next {rest : List Activation} (queued : Queued p taken q)
    (waits : q.waiting = a :: rest) : Queued p (taken + 1) { q with waiting := rest } := by
  refine ⟨fun b member => queued.begins b (waits ▸ mem_cons_of_mem a member), queued.distinct, queued.known, ?_⟩
  rw [queued.count, waits, length_cons]
  exact (Nat.succ_add_eq_add_succ taken rest.length).symm

end Queued

/-! ### The account -/

/-- How much there is to do in a program where no visit has more index values than `bound`. -/
structure Limits (p : Program) (bound : Nat) where
  visits : Nat
  size : Nat
  ends : ∀ keys : List BlockVisit, keys.Nodup → (∀ key ∈ keys, key ∈ Visits p bound) →
    keys.length ≤ visits
  instrs : ∀ block ∈ allBlocks p, block.instrs.length ≤ size

theorem exists_limits (p : Program) (bound : Nat) : Nonempty (Limits p bound) := by
  obtain ⟨visits, ends⟩ := exists_bound_visits p bound
  refine ⟨⟨visits, ((allBlocks p).flatMap (·.instrs)).length, ends, fun block member => ?_⟩⟩
  have inside : block.instrs ∈ (allBlocks p).map (·.instrs) := mem_map.2 ⟨block, member, rfl⟩
  exact (sublist_flatten_of_mem inside).length_le

namespace Limits

variable {p : Program} {bound : Nat} (limits : Limits p bound)

/-- What a call costs at most, where so many functions are not being interpreted yet. -/
def calling : Nat → Nat
  | 0 => 1
  | left + 1 => 1 + limits.visits * (limits.size * (3 + (1 + limits.size * limits.visits) * calling left))

/-- What an instruction costs at most: itself, two edges, a call, and all deferred calls. -/
def cost (left : Nat) : Nat := 3 + (1 + limits.size * limits.visits) * limits.calling left

/-- What a visit costs at most, without the visits it leads to. -/
def visit (left : Nat) : Nat := limits.size * limits.cost left

theorem visit_le {left : Nat} (le : limits.calling left ≤ limits.calling left') :
    limits.visit left ≤ limits.visit left' :=
  Nat.mul_le_mul_left _ (Nat.add_le_add_left (Nat.mul_le_mul_left _ le) 3)

theorem calling_succ (left : Nat) : limits.calling (left + 1) = 1 + limits.visits * limits.visit left := rfl

theorem calling_pos (left : Nat) : 0 < limits.calling left := by
  cases left with
  | zero => exact Nat.one_pos
  | succ left => exact Nat.lt_add_right _ Nat.one_pos

theorem calling_mono {left : Nat} (le : left ≤ left') : limits.calling left ≤ limits.calling left' := by
  induction left' generalizing left with
  | zero => rw [Nat.le_zero.1 le]
  | succ left' ih =>
    cases left with
    | zero => exact limits.calling_pos _
    | succ left =>
      rw [calling_succ, calling_succ]
      exact Nat.add_le_add_left (Nat.mul_le_mul_left _ (limits.visit_le (ih (Nat.le_of_succ_le_succ le)))) 1

end Limits

/-- What of a machine an account is about. -/
structure Standing where
  func : Function
  callers : List String
  loops : Nest
  visited : List BlockVisit
  defers : List Call
  tasks : TaskQueue
  budget : Nat

def Machine.standing (m : Machine) : Standing :=
  ⟨m.act.func, m.act.callers, m.act.loops, m.act.visited, m.act.defers, m.tasks, m.budget⟩

/-- What an activation may cost: it is that of a frame, and so many tasks were taken from the queue. -/
structure Account {p : Program} {bound : Nat} (limits : Limits p bound) where
  frame : Frame p
  taken : Nat

namespace Account

variable {p : Program} {bound : Nat} {limits : Limits p bound} (k : Account limits)

/-- What a visit costs here at most. -/
abbrev visit : Nat := limits.visit k.frame.left

/-- What a call costs here at most. -/
abbrev calling : Nat := limits.calling k.frame.left

/-- The budget covers all visits still to come in this activation, with `credit` to spare. Of the instructions in
the blocks visited, `room` are still to come or did not defer a call. -/
structure Solvent (depth credit room : Nat) (s : Standing) : Prop where
  func : s.func = k.frame.func
  callers : s.callers = k.frame.callers
  ranged : ∀ l ∈ s.loops.loops, Ranged p l
  distinct : s.visited.Nodup
  visits : ∀ key ∈ s.visited, key ∈ Visits p bound
  queued : Queued p k.taken s.tasks
  deep : s.budget < depth
  funds : credit + k.visit * limits.visits ≤ s.budget + k.visit * s.visited.length
  defers : room + s.defers.length ≤ limits.size * s.visited.length

end Account

/-- Every block is reached with at most `bound` index values. -/
def Shallow (bound : Nat) (_ : Point) (m : Machine) : Prop := m.act.signature.length ≤ bound

/-- The analysis was not stopped. -/
def Unstopped (h : Halt) (_ : Machine) : Prop := ∀ point, h ≠ .stopped point

/-- A step leaves the activation with so much to spare. -/
abbrev Account.Leaves {p : Program} {bound : Nat} {limits : Limits p bound} (k : Account limits)
    (depth credit room : Nat) (x : Run Unit) (m : Machine) : Prop :=
  Guided (Shallow bound) x m (fun _ m' => k.Solvent depth credit room m'.standing) Unstopped

/-- A walk stays within its account. -/
def Affords {p : Program} {bound : Nat} (limits : Limits p bound) (depth : Nat) (walk : Walker) : Prop :=
  ∀ (k : Account limits) credit room arrival m, k.Solvent depth credit room m.standing →
    m.act.signature.length ≤ bound → k.Leaves depth credit room (walk arrival) m

theorem mayFail_unstopped (m : Machine) : MayFail Unstopped m := fun _ _ failed _ => failed

theorem Quiet.standing {m m' : Machine} (quiet : Quiet m m') (same : m'.budget = m.budget) :
    m'.standing = m.standing := by
  rw [Machine.standing, quiet.func, quiet.callers, quiet.loops, quiet.visited, quiet.defers, quiet.tasks, same]
  rfl

section

variable {p : Program} {bound : Nat} {limits : Limits p bound} {k : Account limits} {depth credit room : Nat}
  {walk : Walker} {m m' : Machine}

namespace Account.Solvent

variable {s : Standing}

section

variable (solvent : k.Solvent depth credit room s)
include solvent

theorem length_visited_le :
    s.visited.length ≤ limits.visits := limits.ends s.visited solvent.distinct solvent.visits

/-- What is to spare is there. -/
theorem credit_le : credit ≤ s.budget := by
  have funds := solvent.funds
  have spent := Nat.mul_le_mul_left k.visit solvent.length_visited_le
  omega

theorem mono {room' : Nat}
    (less : credit' ≤ credit) (fewer : room' ≤ room) : k.Solvent depth credit' room' s :=
  { solvent with
    funds := Nat.le_trans (Nat.add_le_add_right less _) solvent.funds
    defers := Nat.le_trans (Nat.add_le_add_right fewer _) solvent.defers }

theorem deepen : k.Solvent (depth + 1) credit room s :=
  { solvent with deep := Nat.lt_succ_of_lt solvent.deep }

end

theorem pay (solvent : k.Solvent (depth + 1) (credit + 1) room m.standing) {n : Nat}
    (pays : m.budget = n + 1) : k.Solvent depth credit room (m.withBudget n).standing := by
  have deep : m.budget < depth + 1 := solvent.deep
  have funds : credit + 1 + _ ≤ m.budget + k.visit * m.act.visited.length := solvent.funds
  exact { solvent with
    deep := show n < depth by omega
    funds := show credit + _ ≤ n + k.visit * m.act.visited.length by omega }

theorem budget_ne_zero (solvent : k.Solvent depth (credit + 1) room m.standing) : m.budget ≠ 0 := by
  have enough : credit + 1 ≤ m.budget := solvent.credit_le
  omega

theorem quiet (solvent : k.Solvent depth credit room m.standing) (quiet : Quiet m m')
    (same : m'.budget = m.budget) : k.Solvent depth credit room m'.standing :=
  quiet.standing same ▸ solvent

theorem resetLoops (solvent : k.Solvent depth credit room m.standing) {loops : Nest}
    (ranged : ∀ l ∈ loops.loops, Ranged p l) :
    k.Solvent depth credit room (m.resetLoops loops).standing :=
  { solvent with ranged }

theorem turned (solvent : k.Solvent depth credit room m.standing) (inside : block ∈ allBlocks p)
    (one : i ∈ block.instrs) (turned : Turned i.action arrival m m') (same : m'.budget = m.budget) :
    k.Solvent depth credit room m'.standing := by
  obtain ⟨l, turn, quiet⟩ := turned
  obtain ⟨current, outer⟩ := forall_mem_cons.1 solvent.ranged
  have changed : k.Solvent depth credit room (m.setLoop l).standing :=
    { solvent with ranged := forall_mem_cons.2 ⟨turn.ranged inside one current, outer⟩ }
  exact changed.quiet quiet same

end Account.Solvent

/-! ### Edges and branches -/

section

variable (regular : Regular walk) (affords : Affords limits depth walk)
include regular affords

theorem guided_affordEdge (solvent : k.Solvent depth (credit + 1) room m.standing) (src dst : Nat) :
    k.Leaves depth credit room (followEdge walk src dst) m := by
  refine guided_followEdge (fun spent => absurd spent solvent.budget_ne_zero) fun shallow n pays => ?_
  have paid := solvent.deepen.pay pays
  refine guided_arriveAt regular (fun _ => mayFail_unstopped _) ?_ ?_ ?_
  · intro block _ _
    exact affords k credit room _ _ paid shallow
  · exact fun _ _ _ _ _ _ => paid
  · intro block _ _ _ _
    exact .imp (affords k credit room _ _ paid shallow) (fun _ _ ends => ends)

theorem guided_affordBranch (solvent : k.Solvent depth (credit + 2) room m.standing) (inside : block ∈ allBlocks p)
    (one : i ∈ block.instrs) {cond : Operand} {onTrue onFalse : Nat}
    (action : i.action = .perform (.branch cond onTrue onFalse)) :
    k.Leaves depth credit room (branch walk arrival cond onTrue onFalse) m := by
  refine guided_branchSides regular (fun m₀ next turned same _ => ?_) fun m₀ r turned same => ?_
  · have settled := solvent.turned inside one (action ▸ turned) same
    exact guided_affordEdge regular affords (settled.mono (Nat.le_succ _) (Nat.le_refl room)) _ next
  · have settled := solvent.turned inside one (action ▸ turned) same
    refine (guided_affordEdge (m := m₀.setRoutine r) regular affords settled _ onTrue).imp fun _ m₁ first => ?_
    refine ⟨mayFail_unstopped m₁, fun r' => ?_⟩
    have again := Account.Solvent.resetLoops (m := m₁.setRoutine r') first settled.ranged
    exact (guided_affordEdge regular affords again _ onFalse).imp fun _ m₂ second =>
      ⟨mayFail_unstopped m₂, fun _ => second⟩

end

/-! ### Calls -/

/-- Between functions: the budget covers `credit`. -/
structure Covered (p : Program) (taken depth credit : Nat) (m : Machine) : Prop where
  queued : Queued p taken m.tasks
  deep : m.budget < depth
  funds : credit ≤ m.budget

theorem guided_affordEntry (affords : Affords limits depth walk) (begins : Begins k.frame m.act)
    (covered : Covered p k.taken depth (credit + limits.visits * k.visit) m) :
    Guided (Shallow bound) (walk .entry) m (fun _ m' => Covered p k.taken depth credit m') Unstopped := by
  have funds := covered.funds
  have start : k.Solvent depth credit 0 m.standing := by
    refine ⟨begins.func, begins.callers, ?_, ?_, ?_, covered.queued, covered.deep, ?_, ?_⟩
    · intro l member
      rw [show m.standing.loops = {} from begins.loops] at member
      exact mem_singleton.1 member ▸ ranged_of_uncounted rfl rfl
    · rw [show m.standing.visited = [] from begins.visited]
      exact nodup_nil
    · rw [show m.standing.visited = [] from begins.visited]
      exact nofun
    · rw [Nat.mul_comm]
      exact Nat.le_trans funds (Nat.le_add_right m.budget _)
    · rw [show m.standing.defers = [] from begins.defers]
      exact Nat.zero_le _
  have shallow : m.act.signature.length ≤ bound := by
    rw [Activation.signature, begins.loops]
    exact Nat.zero_le bound
  exact (affords k credit 0 .entry m start shallow).imp
    (fun _ m' ends => ⟨ends.queued, ends.deep, ends.credit_le⟩)

theorem guided_affordFunction (regular : Regular walk) (affords : Affords limits depth walk)
    (begins : Begins k.frame m.act) (covered : Covered p k.taken depth (credit + limits.visits * k.visit) m) :
    Guided (Shallow bound) (walkFunction walk) m (fun _ m' => Covered p k.taken depth credit m') Unstopped := by
  refine guided_walkFunction regular ?_
  exact .imp (guided_affordEntry affords ⟨begins.func, begins.callers, begins.loops, begins.visited, begins.defers⟩
    ⟨covered.queued, covered.deep, covered.funds⟩) (fun _ m' ends => ⟨ends.queued, ends.deep, ends.funds⟩)

/-- A function that is called or spawned here, and is not being interpreted yet, gets a frame of its own. -/
theorem Account.Solvent.enter (solvent : k.Solvent depth credit room m.standing)
    (found : p.function? f.name = some f) (fresh : m.act.reenters f.name = false) (new : Newcomer m.act f a) :
    ∃ inner : Frame p, Begins inner a ∧ k.frame.left = inner.left + 1 := by
  have func : m.act.func = k.frame.func := solvent.func
  have callers : m.act.callers = k.frame.callers := solvent.callers
  have member : f ∈ p.functions := mem_of_find?_eq_some found
  have absent : f.name ∉ k.frame.callers ++ [k.frame.func.name] := by
    simp only [Activation.reenters, Bool.or_eq_false_iff, decide_eq_false_iff_not, contains_eq_mem] at fresh
    rw [← callers, ← func, mem_append, mem_singleton, not_or]
    exact ⟨fresh.2, fun eq => fresh.1 eq.symm⟩
  refine ⟨k.frame.enter member absent, ⟨new.func, ?_, new.unbegun.loops, new.unbegun.visited,
    congrArg (·.defers) new.unbegun.start⟩, k.frame.left_enter member absent⟩
  rw [new.callers, callers, func]
  rfl

theorem guided_affordCall (regular : Regular walk) (affords : Affords limits depth walk)
    (solvent : k.Solvent depth (credit + k.calling) room m.standing) (c : Call) (result : Result) :
    k.Leaves depth credit room (call p walk c result) m := by
  have positive : 0 < k.calling := limits.calling_pos _
  have payable : k.Solvent depth (credit + 1) room m.standing := solvent.mono (by omega) (Nat.le_refl room)
  refine guided_call regular (mayFail_unstopped m) (fun spent => absurd spent payable.budget_ne_zero)
    (fun _ quiet same => (payable.mono (Nat.le_succ _) (Nat.le_refl room)).quiet quiet same) ?_
  intro f callee m' n _ ⟨quiet, _, ⟨found, _⟩, new, _⟩ pays fresh _
  obtain ⟨inner, begins, left⟩ := solvent.enter found fresh new
  -- The callee may spend what a call costs, and the visits of the caller stay covered.
  have price : k.calling = 1 + limits.visits * limits.visit inner.left :=
    (congrArg limits.calling left).trans (limits.calling_succ inner.left)
  have funds : credit + k.calling + k.visit * limits.visits ≤ m.budget + k.visit * m.act.visited.length :=
    solvent.funds
  have spent : k.visit * m.act.visited.length ≤ k.visit * limits.visits :=
    Nat.mul_le_mul_left _ solvent.length_visited_le
  have deep : m.budget < depth := solvent.deep
  have covered : Covered p k.taken depth (n - limits.visits * limits.visit inner.left +
      limits.visits * limits.visit inner.left) { m'.withBudget n with act := callee } :=
    ⟨quiet.tasks ▸ solvent.queued, show n < depth by omega, show _ ≤ n by omega⟩
  refine (guided_affordFunction (k := ⟨inner, k.taken⟩) regular affords begins covered).imp fun _ m₁ ends => ?_
  refine ⟨mayFail_unstopped m₁, fun m₂ quiet₂ same₂ => ?_⟩
  have enough := ends.funds
  have before : k.Solvent depth (credit + k.calling) room (m'.withBudget m.budget).standing :=
    solvent.quiet { quiet with } rfl
  have resumed : k.Solvent depth credit room
      (({ m₁ with act := m'.act } : Machine).addStatement
        (.call m₁.act.routine.name (callee.routine.params.map (·.caller)))).standing :=
    { before with
      queued := ends.queued
      deep := ends.deep
      funds := by
        show credit + k.visit * limits.visits ≤ m₁.budget + k.visit * m'.act.visited.length
        rw [quiet.visited]
        omega }
  exact resumed.quiet quiet₂ same₂

theorem guided_affordSpawn (solvent : k.Solvent depth (credit + 1) room m.standing) (c : Call) :
    k.Leaves depth credit room (spawn p c) m := by
  refine guided_spawn (mayFail_unstopped m) (fun spent => absurd spent solvent.budget_ne_zero)
    (fun _ quiet same => (solvent.mono (Nat.le_succ _) (Nat.le_refl room)).quiet quiet same) ?_
  rintro f a m' n ⟨quiet, -, ⟨found, -⟩, new, -⟩ pays - m₁ rfl
  have before : k.Solvent depth (credit + 1) room (m'.withBudget m.budget).standing :=
    solvent.quiet { quiet with } rfl
  have paid : k.Solvent depth credit room (m'.withBudget n).standing := before.deepen.pay pays
  refine ⟨fun _ m₂ quiet₂ same₂ => quiet₂.standing same₂ ▸ paid, fun queue fresh enqueued => ?_⟩
  obtain ⟨inner, begins, -⟩ := solvent.enter found fresh new
  exact { paid with queued := paid.queued.enqueue begins enqueued }

/-! ### Instructions and blocks -/

section

variable (regular : Regular walk) (affords : Affords limits depth walk)
include regular affords

theorem guided_affordDeferred
    (solvent : k.Solvent depth (credit + limits.size * limits.visits * k.calling) room m.standing) :
    k.Leaves depth credit room (runDeferred p walk) m := by
  have few : m.act.defers.length ≤ limits.size * limits.visits := by
    have defers : room + m.act.defers.length ≤ limits.size * m.act.visited.length := solvent.defers
    have visited : limits.size * m.act.visited.length ≤ _ := Nat.mul_le_mul_left limits.size solvent.length_visited_le
    omega
  refine .read (.imp (.forM (fun rest m' =>
    k.Solvent depth (credit + rest.length * k.calling) room m'.standing)
    (fun c => (alike_call regular p c none).metered) ?_ ?_)
      (fun _ m' ends => ends.mono (Nat.le_add_right ..) (Nat.le_refl room)))
  · intro c rest m' solvent
    refine guided_affordCall regular affords (solvent.mono ?_ (Nat.le_refl room)) c none
    rw [length_cons, Nat.succ_mul, Nat.add_assoc]
  · rw [length_reverse]
    exact solvent.mono (Nat.add_le_add_left (Nat.mul_le_mul_right _ few) credit) (Nat.le_refl room)

theorem guided_affordAction (program : env.program = p)
    (solvent : k.Solvent depth (credit + 2 + (1 + limits.size * limits.visits) * k.calling) (room + 1) m.standing)
    (arrival : Arrival) (inside : block ∈ allBlocks p) (one : i ∈ block.instrs) :
    k.Leaves depth credit room (interpret env walk arrival i.action) m := by
  rw [Nat.add_mul, Nat.one_mul] at solvent
  have less {credit' : Nat} (le : credit' ≤ credit + 2 +
      (k.calling + limits.size * limits.visits * k.calling)) :
      k.Solvent depth credit' room m.standing := solvent.mono le (Nat.le_succ room)
  have kept : k.Solvent depth credit room m.standing := less (by omega)
  subst program
  refine guided_interpret (mayFail_unstopped m) (fun _ turned same => kept.turned inside one turned
    same) ?_ ?_ ?_ ?_ ?_ ?_
  · exact fun c result _ => guided_affordCall regular affords (less (by omega)) c result
  · exact fun dst _ => guided_affordEdge regular affords (less (by omega)) _ dst
  · exact fun cond onTrue onFalse action => guided_affordBranch regular affords (less (by omega)) inside one action
  · exact fun c _ => guided_affordSpawn (less (by omega)) c
  · refine fun c _ => { kept with defers := ?_ }
    have defers : room + 1 + m.act.defers.length ≤ limits.size * m.act.visited.length := solvent.defers
    show room + (m.act.defers ++ [c]).length ≤ limits.size * m.act.visited.length
    rw [length_append, length_singleton]
    omega
  · exact fun _ => guided_affordDeferred regular affords (less (by omega))

end

/-- A visit that is not made yet is one of those the budget covers. -/
theorem Account.Solvent.visit (solvent : k.Solvent depth credit room m.standing) (inside : block ∈ allBlocks p)
    (shallow : m.act.signature.length ≤ bound) (fresh : m.act.hasVisited block.index = false) :
    k.Solvent depth (credit + k.visit) (room + limits.size)
      (m.onAct (·.noteVisit block.index)).standing := by
  have noted : m.act.noteVisit block.index = { m.act with visited := m.act.key block.index :: m.act.visited } :=
    if_neg (Bool.eq_false_iff.1 fresh)
  have new : m.act.key block.index ∉ m.act.visited := by simpa [Activation.hasVisited] using fresh
  have visit : m.act.key block.index ∈ Visits p bound := by
    refine ⟨mem_map.2 ⟨block, inside, rfl⟩, shallow, fun i member => ?_⟩
    obtain ⟨l, around, static, rfl⟩ := Nest.mem_signature member
    exact (solvent.ranged l around).index static
  have funds : _ ≤ m.budget + k.visit * m.act.visited.length := solvent.funds
  have defers : room + m.act.defers.length ≤ limits.size * m.act.visited.length := solvent.defers
  rw [Machine.onAct, noted]
  exact { solvent with
    distinct := nodup_cons.2 ⟨new, solvent.distinct⟩
    visits := forall_mem_cons.2 ⟨visit, solvent.visits⟩
    funds := by
      show _ ≤ m.budget + k.visit * (m.act.visited.length + 1)
      rw [Nat.mul_succ]
      omega
    defers := by
      show room + limits.size + m.act.defers.length ≤ limits.size * (m.act.visited.length + 1)
      rw [Nat.mul_succ]
      omega }

theorem affords_enterBlock (regular : Regular walk) (affords : Affords limits depth walk)
    (program : env.program = p) : Affords limits (depth + 1) (enterBlock env walk) := by
  intro k credit room arrival m solvent shallow
  have entered (block : Block) : k.Solvent (depth + 1) credit room (m.enter block arrival.pred).standing :=
    solvent.resetLoops (Ranged.enter solvent.ranged block.index block.role)
  refine guided_enterBlock (fun _ => mayFail_unstopped m) (fun block _ _ => entered block) fun block found fresh => ?_
  have member : block ∈ m.act.func.blocks := mem_of_getElem? found
  have inside : block ∈ allBlocks p := by
    rw [show m.act.func = k.frame.func from solvent.func] at member
    exact mem_flatMap.2 ⟨k.frame.func, k.frame.member, member⟩
  have start := (entered block).visit inside (Nat.le_trans (Nest.length_signature_enter ..) shallow) fresh
  have instrs := limits.instrs block inside
  -- Each instruction has its share of what the visit costs, and may defer one call.
  refine .imp (.forM (fun rest m' => (∀ i ∈ rest, i ∈ block.instrs) ∧
      k.Solvent (depth + 1) (credit + rest.length * limits.cost k.frame.left) (room + rest.length)
        m'.standing) (fun i => (alike_walkInstr regular env arrival i).metered) ?_ ?_) ?_
  · rintro i rest m' ⟨all, solvent⟩
    obtain ⟨one, others⟩ := forall_mem_cons.1 all
    have share : credit + (i :: rest).length * limits.cost k.frame.left = credit + rest.length *
      limits.cost k.frame.left +
        2 + (1 + limits.size * limits.visits) * k.calling + 1 := by
      rw [length_cons, Nat.succ_mul, Limits.cost, Account.calling]
      omega
    rw [share] at solvent
    refine guided_walkInstr (fun spent => absurd spent solvent.budget_ne_zero) fun _ n pays => ?_
    have paid : k.Solvent depth _ _ ((m'.emit (.instrVisited i)).withBudget n).standing := solvent.pay pays
    refine (guided_affordAction regular affords program paid arrival inside one).weaken
      (fun _ m'' ends => ⟨others, ends.deepen⟩) fun h m'' goes point eq => ?_
    cases h with
    | stopped point' => exact goes point' rfl
    | failed e => exact nomatch eq
    | endless ty => exact nomatch eq
  · refine ⟨fun _ => id, start.mono ?_ (Nat.add_le_add_left instrs room)⟩
    exact Nat.add_le_add_left (Nat.mul_le_mul_right _ instrs) credit
  · exact fun _ m' ends => ends.2.mono (Nat.le_add_right ..) (Nat.le_refl room)

theorem affords_walkBlock (limits : Limits p bound) (program : env.program = p) (depth : Nat) :
    Affords limits depth (walkBlock env depth) := by
  induction depth with
  | zero => exact fun _ _ _ _ _ solvent _ => absurd solvent.deep (Nat.not_lt_zero _)
  | succ depth ih => exact affords_enterBlock (regular_walkBlock env depth) ih program

/-! ### Programs -/

/-- What a whole function costs at most. -/
def Limits.total (limits : Limits p bound) : Nat := limits.visits * limits.visit p.functions.length

theorem Limits.whole_le (limits : Limits p bound) (frame : Frame p) :
    limits.visits * limits.visit frame.left ≤ limits.total :=
  Nat.mul_le_mul_left _ (limits.visit_le (limits.calling_mono (Nat.sub_le ..)))

theorem Covered.spare {taken : Nat} (covered : Covered p taken depth credit m) (less : credit' ≤ credit) :
    Covered p taken depth credit' m := { covered with funds := Nat.le_trans less covered.funds }

section

variable (regular : Regular walk) (affords : Affords limits depth walk)
include regular affords

theorem guided_affordTasks {count taken : Nat}
    (covered : Covered p taken depth (count * limits.total) m) (all : taken + count = p.functions.length + 1) :
    Guided (Shallow bound) (drain walk count) m (fun _ _ => True) Unstopped := by
  refine guided_drain (fun count m => ∃ taken, taken + count = p.functions.length + 1 ∧
    Covered p taken depth (count * limits.total) m) regular ?_ (fun _ _ _ _ => trivial) ?_ ⟨taken, all, covered⟩
  · rintro m ⟨taken, all, covered⟩
    have few := covered.queued.taken_le
    omega
  · rintro count m a rest ⟨taken, all, covered⟩ waits
    obtain ⟨frame, begins⟩ := covered.queued.begins a (waits ▸ mem_cons_self)
    have taken' : Covered p (taken + 1) depth (count * limits.total + limits.visits * limits.visit frame.left)
        { m with tasks := { m.tasks with waiting := rest }, act := a } := by
      refine ⟨covered.queued.next waits, covered.deep, Nat.le_trans ?_ covered.funds⟩
      rw [Nat.succ_mul]
      exact Nat.add_le_add_left (limits.whole_le frame) _
    refine (guided_affordFunction (k := ⟨frame, taken + 1⟩) regular affords begins taken').imp fun _ m' ends => ?_
    exact ⟨taken + 1, by omega, ends.queued, ends.deep, ends.funds⟩

theorem guided_affordInit {frame : Frame p} {taken : Nat} (program : env.program = p) (begins : Begins frame m.act)
    (covered : Covered p taken depth (credit + limits.total) m) :
    Guided (Shallow bound) (initialise env walk) m
      (fun _ m' => Begins frame m'.act ∧ Covered p taken depth credit m') Unstopped := by
  refine guided_initialise regular (fun _ => ⟨begins, covered.spare (Nat.le_add_right ..)⟩) ?_
  intro init seq m' found quiet same _
  have member : init ∈ p.functions := program ▸ mem_of_find?_eq_some (Option.filter_eq_some_iff.1 found).1
  have start : Covered p taken depth (credit + limits.visits * limits.visit (Frame.outermost member).left)
      { m' with act := Activation.start init seq [] m.act.func.name } := by
    refine ⟨quiet.tasks ▸ covered.queued, same ▸ covered.deep, Nat.le_trans ?_ (same ▸ covered.funds)⟩
    exact Nat.add_le_add_left (limits.whole_le _) credit
  refine (guided_affordEntry (k := ⟨.outermost member, taken⟩) affords ⟨rfl, rfl, rfl, rfl, rfl⟩
    start).imp fun _ m₁ ends => ⟨?_, ?_⟩
  · exact ⟨quiet.func.trans begins.func, quiet.callers.trans begins.callers, quiet.loops.trans begins.loops,
      quiet.visited.trans begins.visited, quiet.defers.trans begins.defers⟩
  · exact ⟨ends.queued, ends.deep, ends.funds⟩

end

end

/-- Where no more than `bound` static loops come to stand around a block, some budget is enough. -/
theorem exists_enough {p : Program} {o : Options} {entry : Function} {bound : Nat}
    (found : Enters p o.entry entry)
    (shallow : ∀ point m, Reachable p o point m → m.act.signature.length ≤ bound) :
    ∃ budget, ¬ Stops (analyse ⟨p, o⟩ (Machine.start p entry budget)) := by
  obtain ⟨limits⟩ := exists_limits p bound
  obtain ⟨budget, enough⟩ : ∃ budget, (p.functions.length + 1) * limits.total + limits.total +
    limits.total ≤ budget :=
    ⟨_, Nat.le_refl _⟩
  have regular := regular_walkBlock ⟨p, o⟩ (budget + 1)
  have affords : Affords limits (budget + 1) (walkBlock ⟨p, o⟩ (budget + 1)) := affords_walkBlock limits rfl _
  have member : entry ∈ p.functions := mem_of_find?_eq_some (Option.filter_eq_some_iff.1 found).1
  have begins : Begins (Frame.outermost member) (Machine.start p entry budget).act := ⟨rfl, rfl, rfl, rfl, rfl⟩
  have queued : Queued p 0 {} := ⟨forall_mem_nil _, nodup_nil, forall_mem_nil _, rfl⟩
  have covered : Covered p 0 (budget + 1) ((p.functions.length + 1) * limits.total + limits.total + limits.total)
      (Machine.start p entry budget) := ⟨queued, Nat.lt_succ_self budget, enough⟩
  have led : Leads (analyse ⟨p, o⟩) (Machine.start p entry budget) (fun _ _ => True) Unstopped := by
    refine Guided.analyse found shallow (guided_analyseWith regular ?_)
    refine (guided_affordInit regular affords rfl begins covered).imp fun _ m₁ first => ?_
    have whole := Nat.add_le_add_left (limits.whole_le (Frame.outermost member))
      ((p.functions.length + 1) * limits.total)
    refine (guided_affordFunction (k := ⟨.outermost member, 0⟩) regular affords first.1 (first.2.spare whole)).imp
      fun _ m₂ second => ?_
    exact (guided_affordTasks regular affords second (Nat.zero_add _)).imp fun _ _ _ _ _ _ => trivial
  refine ⟨budget, fun stops => ?_⟩
  cases result : analyse ⟨p, o⟩ (Machine.start p entry budget) with
  | ok protocol m =>
    rw [result] at stops
    exact stops
  | error h m =>
    have goes := led.error result
    rw [result] at stops
    cases h with
    | stopped point => exact goes point rfl
    | failed e => exact stops
    | endless ty => exact stops

end ChanFlow.Analysis
