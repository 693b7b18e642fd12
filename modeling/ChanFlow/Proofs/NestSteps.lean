import ChanFlow.Proofs.Exactness
import ChanFlow.Proofs.LoopNest

/-!
The steps of a walk through a nest of counted loops.

Each step comes to its end, or is stopped with no more static loops around than the nest has (`CutOff`). The
operations of a block add their statements (`Worked`); the instructions of a header note the index and the
comparison, or move the index on, and the branch goes on as the loop counts.
-/
open List

namespace ChanFlow.Analysis

open Ssa Protocol

variable {a : Activation} {bound src dst entry back j maxUnroll : Nat} {i : Instr} {halted : Halt → Machine → Prop}
  {block : Block} {x : String} {op : ChanOp} {env : Env} {walk : Walker} {arrival : Arrival}
  {done : Unit → Machine → Prop} {is rest : List Instr} {l : Counter}

/-- The analysis was stopped, with no more than so many static loops around. -/
def CutOff (bound : Nat) (h : Halt) (m : Machine) : Prop :=
  (∃ point, h = .stopped point) ∧ m.act.signature.length ≤ bound

theorem length_signature_le {n : Nest} (shallow : n.outer.length < bound) : n.signature.length ≤ bound := by
  have filtered := length_filter_le (·.isStatic) (n.outer.reverse ++ [n.current])
  rw [length_append, length_reverse, length_singleton] at filtered
  rw [Nest.signature, length_map]
  omega

section

variable {env : Env} {walk : Walker} {arrival : Arrival} {m : Machine} {bound : Nat} {done : Unit → Machine → Prop}

theorem leads_instr (short : m.act.loops.signature.length ≤ bound)
    (goes : ∀ n,
      Leads (interpret env walk arrival i.action) ((m.emit (.instrVisited i)).withBudget n) done (CutOff bound)) :
    Leads (walkInstr env walk arrival i) m done (CutOff bound) := by
  rw [walkInstr, leads_located, leads_bind, leads_emit, leads_bind, leads_spend]
  refine ⟨fun _ => ⟨⟨_, rfl⟩, short⟩, fun n _ => ?_⟩
  refine (goes n).weaken (fun _ _ => id) ?_
  rintro _ _ ⟨⟨point, rfl⟩, short⟩
  exact ⟨⟨point, rfl⟩, short⟩

theorem leads_edge (short : m.act.loops.signature.length ≤ bound)
    (goes : ∀ n, Leads (arriveAt walk src dst) (m.withBudget n) done (CutOff bound)) :
    Leads (followEdge walk src dst) m done (CutOff bound) := by
  rw [followEdge, leads_bind, leads_spend]
  exact ⟨fun _ => ⟨⟨_, rfl⟩, short⟩, fun n _ => goes n⟩

theorem leads_straight (found : m.act.func.block? dst = some block)
    (straight : block.isMergePoint = false ∨ m.act.loops.current.repeatsAt dst = true)
    (goes : Leads (walk (.along src dst)) m done halted) : Leads (arriveAt walk src dst) m done halted := by
  have onward : (!block.isMergePoint || m.act.loops.current.repeatsAt dst) = true := by simpa using straight
  rw [arriveAt, leads_bind, leads_activation, found]
  dsimp only
  rw [if_pos onward]
  exact goes

/-- A merge point that has no label as yet gets one, and a routine. -/
theorem leads_merge
    (regular : Regular walk) (found : m.act.func.block? dst = some block) (merge : block.isMergePoint = true)
    (other : m.act.loops.current.repeatsAt dst = false) (new : m.act.labels.get? (m.act.key dst) = none)
    (goes : Leads (walk (.along src dst))
      ((m.addLabel dst).openRoutine
        (Routine.addParams { name := m.act.mergeLabel dst } m.act.routine.continuationParams)
        (.mergePointStarted (m.act.mergeLabel dst)))
      (fun _ m' => done () (m'.closeRoutine.setRoutine (m.addLabel dst).act.routine)) halted) :
    Leads (arriveAt walk src dst) m done halted := by
  refine Guided.leads (guided_arriveAt regular (fun absent => ?_) ?_ ?_ fun _ _ _ _ _ => .of_leads goes)
  · cases found.symm.trans absent
  · intro block' found' straight
    obtain rfl := Option.mem_unique found found'
    exact absurd (straight merge) (Bool.eq_false_iff.1 other)
  · intro block' label found' _ _ known
    cases new.symm.trans known

/-- A block that was not visited with the current index values. -/
theorem leads_enterBlock (found : m.act.func.block? arrival.block = some block)
    (fresh : (m.enter block arrival.pred).act.key block.index ∉ m.act.visited)
    (goes : Leads (block.instrs.forM (walkInstr env walk arrival))
      ((m.enter block arrival.pred).onAct fun a => { a with visited := a.key block.index :: a.visited }) done halted) :
    Leads (enterBlock env walk arrival) m done halted := by
  refine Guided.leads (guided_enterBlock (fun absent => ?_) (fun block' found' seen => ?_)
    fun block' found' new => .of_leads ?_)
  · cases found.symm.trans absent
  · obtain rfl := Option.mem_unique found found'
    exact absurd (contains_iff_mem.1 seen) fresh
  · obtain rfl := Option.mem_unique found found'
    have noted : (m.enter block arrival.pred).act.noteVisit block.index =
        { (m.enter block arrival.pred).act with
          visited := (m.enter block arrival.pred).act.key block.index :: m.act.visited } :=
      if_neg (Bool.eq_false_iff.1 new)
    rw [Machine.onAct, noted]
    exact goes

end

/-! ### Instructions of a block -/

/-- These values are channels, each known by its own name. -/
structure Holds (chans : List String) (a : Activation) : Prop where
  names : a.names = {}
  locals : ∀ x ∈ chans, ∃ routine seq index ty, a.resolve? x = some (.value ⟨routine, x⟩ seq index ty)

/-- The machine after some instructions of a block, which performed these operations. -/
structure Worked (chans : List String) (loops : Nest) (ops : List ChanOp) (m m' : Machine) : Prop where
  func : m'.act.func = m.act.func
  holds : Holds chans m'.act
  loops : m'.act.loops = loops
  visited : m'.act.visited = m.act.visited
  labels : m'.act.labels = m.act.labels
  selects : m'.act.selects = m.act.selects
  routine : m'.act.routine = { m.act.routine with stmts := m.act.routine.stmts ++ ops.map (·.statement) }
  isOpen : m'.Open
  protocol : m'.context.protocol = m.context.protocol
  tasks : m'.tasks = m.tasks

/-- All values but these are known as before. -/
def Keeps (defined : List String) (m m' : Machine) : Prop := ∀ x ∉ defined, m'.act.resolve? x = m.act.resolve? x

/-- The machine with a new binding, and with this as its current loop. -/
def Rebinds (x : String) (loop : Loop) (m m' : Machine) : Prop :=
  ∃ v log, m' = { m with act := (m.act.setLoop loop).bind x v, log }

section

variable {chans : List String} {m m' m'' : Machine} {loops loops' : Nest} {ops ops' : List ChanOp}

theorem Holds.bind (holds : Holds chans a) (other : x ∉ chans) (v : Instance) : Holds chans (a.bind x v) := by
  refine ⟨holds.names, fun y member => ?_⟩
  have different : x ≠ y := fun same => other (same ▸ member)
  obtain ⟨routine, seq, index, ty, bound⟩ := holds.locals y member
  refine ⟨routine, seq, index, ty, ?_⟩
  rw [Activation.resolve?, Activation.bind, Table.get?_insert, if_neg different]
  exact bound

theorem Worked.refl (holds : Holds chans m.act) (isOpen : m.Open) : Worked chans m.act.loops [] m m :=
  ⟨rfl, holds, rfl, rfl, rfl, rfl, by simp, isOpen, rfl, rfl⟩

theorem Worked.trans {chans' : List String} (first : Worked chans loops ops m m')
    (second : Worked chans' loops' ops' m' m'') : Worked chans' loops' (ops ++ ops') m m'' where
  func := second.func.trans first.func
  holds := second.holds
  loops := second.loops
  visited := second.visited.trans first.visited
  labels := second.labels.trans first.labels
  selects := second.selects.trans first.selects
  routine := by simp [second.routine, first.routine]
  isOpen := second.isOpen
  protocol := second.protocol.trans first.protocol
  tasks := second.tasks.trans first.tasks

theorem Keeps.trans {xs ys : List String} (first : Keeps xs m m') (second : Keeps ys m' m'') :
    Keeps (xs ++ ys) m m'' := by
  intro x other
  rw [mem_append, not_or] at other
  exact (second x other.2).trans (first x other.1)

theorem Worked.paid (worked : Worked chans loops ops m m') (e : Event) (n : Nat) :
    Worked chans loops ops m ((m'.emit e).withBudget n) := { worked with }

/-- The next instruction of a block is paid for, and interpreted. -/
theorem Worked.leads_next (worked : Worked chans loops ops m m')
    (short : loops.signature.length ≤ bound) {action : Action} (does : i.action = action)
    (goes : ∀ n, Worked chans loops ops m ((m'.emit (.instrVisited i)).withBudget n) →
      Leads (interpret env walk arrival action) ((m'.emit (.instrVisited i)).withBudget n)
        (fun _ m₁ => Leads (rest.forM (walkInstr env walk arrival)) m₁ done (CutOff bound)) (CutOff bound)) :
    Leads ((i :: rest).forM (walkInstr env walk arrival)) m' done (CutOff bound) := by
  subst does
  exact leads_forM_cons.2 (leads_instr (worked.loops ▸ short) fun n => goes n (worked.paid _ n))

theorem Worked.rebinds (worked : Worked chans loops ops m m') (other : x ∉ chans) {loop : Loop}
    (rebinds : Rebinds x loop m' m'') : Worked chans ⟨loop, loops.outer⟩ ops m m'' := by
  obtain ⟨v, log, rfl⟩ := rebinds
  have holds : Holds chans (m'.act.setLoop loop) := ⟨worked.holds.names, worked.holds.locals⟩
  exact { worked with
    holds := holds.bind other v
    loops := congrArg (fun n : Nest => (⟨loop, n.outer⟩ : Nest)) worked.loops }

theorem statement_ne_tau (op : ChanOp) : op.statement ≠ .tau := by cases op <;> simp [ChanOp.statement]

/-- Adding the statement of an operation, and binding what it gives. -/
theorem worked_op (isOpen : m.Open) (op : ChanOp) {log : Array Event} (func : a.func = m.act.func)
    (holds : Holds chans a) (loops : a.loops = m.act.loops) (visited : a.visited = m.act.visited)
    (labels : a.labels = m.act.labels) (selects : a.selects = m.act.selects)
    (routine : a.routine = m.act.routine.addStatement op.statement) :
    Worked chans m.act.loops [op] m { m with act := a, log } := by
  have added : a.routine = { m.act.routine with stmts := m.act.routine.stmts ++ [op.statement] } := by
    rw [routine, Routine.addStatement, append_of_open isOpen]
  exact ⟨func, holds, loops, visited, labels, selects,
    added, by simpa [Machine.Open, added] using statement_ne_tau op, rfl, rfl⟩

theorem plainAction_of_chanOp? (performs : i.chanOp? = some op) : PlainAction i.action (some op) := by
  obtain ⟨action, pos⟩ := i
  unfold Instr.chanOp? at performs
  dsimp only at performs
  split at performs
  · obtain ⟨n, constant, rfl⟩ := Option.map_eq_some_iff.1 performs
    exact .makeChan constant
  all_goals cases performs
  · exact .recv
  · exact .closed
  · exact .close
  · exact .send

theorem Holds.leads_channelOf (holds : Holds chans m.act) {chan : String} (member : chan ∈ chans)
    {done : String → Machine → Prop} (ends : done chan m) : Leads (channelOf (.var chan)) m done halted := by
  obtain ⟨routine, seq, index, ty, bound⟩ := holds.locals chan member
  have name : m.act.channelName (.value ⟨routine, chan⟩ seq index ty) = chan := by
    rw [Activation.channelName, holds.names]
    rfl
  simp only [channelOf, instanceOf, instanceOf?, leads_bind, leads_activation, leads_pure, bound]
  exact name.symm ▸ ends

/-- A channel operation of a block adds its statement. -/
theorem leads_use (performs : i.chanOp? = some op) (uses : op.Uses chans)
    (other : ∀ x, i.name? = some x → x ∉ chans) (holds : Holds chans m.act) (isOpen : m.Open) :
    Leads (interpret env walk arrival i.action) m
      (fun _ m' => Worked chans m.act.loops [op] m m' ∧ Keeps (definedBy [i]) m m') fun _ _ => False := by
  have holds' (s : Statement) : Holds chans (m.addStatement s).act := ⟨holds.names, holds.locals⟩
  have plain := plainAction_of_chanOp? performs
  rw [Instr.name?] at other
  cases eq : i.action with
  | define x ty vop =>
    rw [eq] at plain other
    have apart := other x rfl
    cases plain with
    | makeChan => exact uses.elim
    | @recv _ _ chan commaOk =>
      simp only [interpret, define, recv, leads_bind]
      refine holds.leads_channelOf uses ?_
      have bound := (holds' (.recv chan)).bind apart ((m.addStatement (.recv chan)).act.fresh x ty)
      have others (v : Instance) : ∀ y ∉ definedBy [i], (m.act.bind x v).resolve? y = m.act.resolve? y := by
        intro y other
        refine (Table.get?_insert ..).trans (if_neg ?_)
        rintro rfl
        simp [definedBy, Instr.name?, eq] at other
      rw [leads_addStatement]
      split <;> exact ⟨worked_op isOpen (.recv chan) rfl ⟨bound.names, bound.locals⟩ rfl rfl rfl rfl
        rfl, others _⟩
    | @closed _ _ chan _ =>
      show Leads (close (.var chan)) m _ _
      rw [close, leads_bind]
      exact holds.leads_channelOf uses ⟨worked_op isOpen (.close chan) rfl (holds' _) rfl rfl rfl rfl
        rfl, fun _ _ => rfl⟩
  | perform e =>
    rw [eq] at plain
    cases plain with
    | @close chan _ =>
      show Leads (Analysis.close (.var chan)) m _ _
      rw [Analysis.close, leads_bind]
      exact holds.leads_channelOf uses ⟨worked_op isOpen (.close chan) rfl (holds' _) rfl rfl rfl rfl
        rfl, fun _ _ => rfl⟩
    | @send chan _ =>
      simp only [interpret, perform, send, leads_bind]
      exact holds.leads_channelOf uses ⟨worked_op isOpen (.send chan) rfl (holds' _) rfl rfl rfl rfl
        rfl, fun _ _ => rfl⟩

/-- A new channel is known by its own name. -/
theorem leads_make {n : Int}
    (performs : i.chanOp? = some (.newChan x n)) (holds : Holds chans m.act) (isOpen : m.Open) :
    i.name? = some x ∧
      Leads (interpret env walk arrival i.action) m (fun _ m' => Worked (chans ++ [x]) m.act.loops [.newChan x n] m m')
        fun _ _ => False := by
  have plain := plainAction_of_chanOp? performs
  rw [Instr.name?]
  cases eq : i.action with
  | perform e =>
    rw [eq] at plain
    cases plain
  | define y ty vop =>
    rw [eq] at plain
    cases plain with
    | @makeChan _ _ capacity _ constant =>
      refine ⟨rfl, ?_⟩
      have bound : Holds (chans ++ [x]) (m.act.bind x (m.act.fresh x ty)) := by
        refine ⟨holds.names, fun y member => ?_⟩
        rw [Activation.resolve?, Activation.bind, Table.get?_insert]
        split
        · next same => exact same ▸ ⟨_, _, _, _, rfl⟩
        · next different =>
          rcases mem_append.1 member with old | new
          · exact holds.locals y old
          · exact absurd (mem_singleton.1 new).symm different
      simp only [interpret, define, makeChan, constant, leads_bind]
      exact worked_op isOpen (.newChan x n) rfl ⟨bound.names, bound.locals⟩ rfl rfl rfl rfl rfl

section

variable (worked : Worked chans loops ops m m')
include worked

theorem Worked.leads_returnValues (slot : Nat) (xs : List Operand) :
    Leads (returnValues slot xs) m' (fun _ m'' => Worked chans loops ops m m'' ∧ Keeps [] m' m'')
      fun _ _ => False := by
  induction xs generalizing m' slot with
  | nil => exact ⟨worked, fun _ _ => rfl⟩
  | cons x rest ih =>
    have kept : Leads (instanceOf? x) m' (fun _ m₁ => Worked chans loops ops m m₁ ∧ Keeps [] m' m₁)
      fun _ _ => False := by
      cases x with
      | func name =>
        refine ⟨{ worked with protocol := Eq.trans ?_ worked.protocol }, fun _ _ => rfl⟩
        show (m'.context.valueOfFunction name).2.protocol = m'.context.protocol
        unfold Context.valueOfFunction
        dsimp only
        split <;> rfl
      | _ => exact ⟨worked, fun _ _ => rfl⟩
    rw [returnValues, leads_bind]
    refine kept.imp fun i m₁ ends => ?_
    obtain ⟨worked, keeps⟩ := ends
    cases i with
    | none => exact (ih (worked.paid _ m₁.budget) (slot + 1)).imp fun _ _ ends => ⟨ends.1, keeps.trans ends.2⟩
    | some i =>
      have set : Worked chans loops ops m (m₁.onAct (·.setReturned slot i)) :=
        { worked with holds := ⟨worked.holds.names, worked.holds.locals⟩ }
      exact (ih set (slot + 1)).imp fun _ _ ends => ⟨ends.1, keeps.trans ends.2⟩

/-- A list of channel operations, and what comes after it. -/
theorem Worked.leads_uses (short : loops.signature.length ≤ bound)
    (uses : ∀ i ∈ is, ∃ op, i.chanOp? = some op ∧ op.Uses chans)
    (others : ∀ i ∈ is, ∀ x, i.name? = some x → x ∉ chans)
    (goes : ∀ m'', Worked chans loops (ops ++ is.filterMap (·.chanOp?)) m m'' → Keeps (definedBy is) m' m'' →
      Leads (rest.forM (walkInstr env walk arrival)) m'' done (CutOff bound)) :
    Leads ((is ++ rest).forM (walkInstr env walk arrival)) m' done (CutOff bound) := by
  induction is generalizing ops m' with
  | nil => exact goes m' (by simpa using worked) fun _ _ => rfl
  | cons i is ih =>
    rw [forall_mem_cons] at uses others
    obtain ⟨⟨op, performs, use⟩, uses⟩ := uses
    refine worked.leads_next short rfl fun n paid => ?_
    refine (leads_use performs use others.1 paid.holds paid.isOpen).surely fun _ m₁ ⟨once, keeps⟩ => ?_
    rw [paid.loops] at once
    refine ih (paid.trans once) uses others.2 fun m'' all more => goes m'' ?_ ?_
    · simpa [filterMap_cons_some performs] using all
    · rw [definedBy, ← singleton_append, filterMap_append]
      exact keeps.trans more

/-- A list of new channels, and what comes after it. -/
theorem Worked.leads_makes (short : loops.signature.length ≤ bound)
    (creates : ∀ i ∈ is, ∃ x n, i.chanOp? = some (.newChan x n))
    (goes : ∀ m'', Worked (chans ++ definedBy is) loops (ops ++ is.filterMap (·.chanOp?)) m m'' →
      Leads (rest.forM (walkInstr env walk arrival)) m'' done (CutOff bound)) :
    Leads ((is ++ rest).forM (walkInstr env walk arrival)) m' done (CutOff bound) := by
  induction is generalizing chans ops m' with
  | nil => exact goes m' (by simpa [definedBy] using worked)
  | cons i is ih =>
    rw [forall_mem_cons] at creates
    obtain ⟨⟨x, capacity, performs⟩, creates⟩ := creates
    refine worked.leads_next short rfl fun n paid => ?_
    obtain ⟨name, makes⟩ := leads_make performs paid.holds paid.isOpen
    refine makes.surely fun _ m₁ once => ?_
    rw [paid.loops] at once
    refine ih (paid.trans once) creates fun m'' all => goes m'' ?_
    simpa [definedBy, filterMap_cons_some performs, filterMap_cons_some name] using all

end

end

/-! ### Headers -/

section

variable {m : Machine}

theorem leads_changeLoop_eq (event : Loop → Option Event) (change : Loop → Loop) (m : Machine) :
    Leads (changeLoop event change) m
      (fun _ m' => ∃ log, m' = { m with act := m.act.setLoop (change m.act.loops.current), log })
    fun _ _ => False := by
  rw [changeLoop, leads_bind, leads_activation, leads_bind]
  cases event m.act.loops.current <;> exact ⟨_, rfl⟩

/-- Where nothing is known of a loop as yet, its phi is noted as its index. -/
theorem leads_phi_noted {edges : List PhiEdge} {edge : PhiEdge} {start step : Int} {v : Instance}
    (current : m.act.loops.current = Nest.entered dst)
    (candidate : indexCandidate? m.act.func x edges = some (start, step))
    (taken : edges.find? (·.pred = src) = some edge)
    (known : ∀ m', m'.act.locals = m.act.locals → instanceOf? edge.value m' = .ok (some v) m') :
    Leads (phi (.along src dst) x edges) m
      (fun _ m' => Rebinds x ((Nest.entered dst).noteIndex x start step) m m') fun _ _ => False := by
  have unknown : ¬ (atHeader m.act (.along src dst) && m.act.loops.current.isStatic &&
      m.act.loops.current.indexVar = some x) = true := by
    rw [current]
    simp [Nest.entered, Loop.isStatic]
  have here : (atHeader m.act (.along src dst) && m.act.loops.current.bound = .unknown) = true := by
    simp [atHeader, current, Nest.entered, Arrival.along]
  have along : ((Arrival.along src dst).pred.bind fun pred => edges.find? (·.pred = pred)) = some edge := taken
  rw [phi, leads_bind, leads_activation, along]
  dsimp only
  rw [if_neg unknown, leads_bind, noteCandidate, leads_bind, leads_activation, if_pos here, candidate]
  refine (leads_changeLoop_eq _ _ m).imp fun _ m' changed => ?_
  obtain ⟨log, rfl⟩ := changed
  rw [current, takeEdge, leads_bind, Leads,
    known { m with act := m.act.setLoop ((Nest.entered dst).noteIndex x start step), log } rfl]
  exact ⟨_, _, rfl⟩

/-- On the way back to the header the index moves on. -/
theorem leads_phi_again (current : m.act.loops.current = l.loop .enter j) (other : entry ≠ back) :
    Leads (phi (.along back l.header) l.index (l.edges entry back)) m
      (fun _ m' => Rebinds l.index (l.loop .enter j).advance m m') fun _ _ => False := by
  have static : (atHeader m.act (.along back l.header) && m.act.loops.current.isStatic &&
      m.act.loops.current.indexVar = some l.index) = true := by
    simp [atHeader, current, Counter.loop, Loop.isStatic, Arrival.along]
  have moved : (Arrival.along back l.header).pred ≠ (l.edges entry back).head?.map (·.pred) := by
    simpa [Arrival.along, Counter.edges] using other.symm
  have taken : ((Arrival.along back l.header).pred.bind fun pred =>
      (l.edges entry back).find? (·.pred = pred)) = some ⟨back, .var l.next⟩ := by
    simp [Arrival.along, Counter.edges, other]
  rw [phi, leads_bind, leads_activation, taken]
  dsimp only
  rw [if_pos static, leads_bind, advanceIndex, if_pos moved]
  refine (leads_changeLoop_eq _ _ m).imp fun _ m' changed => ?_
  obtain ⟨log, rfl⟩ := changed
  rw [current]
  exact ⟨_, _, rfl⟩

/-- The comparison settles what kind of loop it is, -/
theorem leads_comparison_first (compares : l.op.isComparison = true) (here : arrival.block = l.header)
    (current : m.act.loops.current = (Nest.entered l.header).noteIndex l.index l.start l.step) :
    Leads (define env walk arrival l.cond l.condTy l.comparison) m
      (fun _ m' => Rebinds l.cond (l.classified env.options.maxUnroll) m m') fun _ _ => False := by
  have noted : (l.op.isComparison && atHeader m.act arrival && m.act.loops.current.bound = .unknown) = true := by
    simp [compares, atHeader, current, here, Nest.entered, Loop.noteIndex]
  have change (event : Loop → Option Event) :
      Leads (changeLoop event (·.noteCondition l.cond (some l.index) l.test (some l.bound) env.options.maxUnroll)) m
        (fun _ m' => ∃ log, m' = { m with act := m.act.setLoop (l.classified env.options.maxUnroll), log })
        fun _ _ => False := by
    have changed := leads_changeLoop_eq event
      (·.noteCondition l.cond (some l.index) l.test (some l.bound) env.options.maxUnroll) m
    rwa [current] at changed
  unfold Counter.comparison
  unfold Counter.test at change
  cases swapped : l.swapped with
  | true | false =>
    rw [swapped] at change
    simp only [Bool.false_eq_true, if_true, if_false]
    rw [define, binary, leads_bind, noteComparison, leads_bind, leads_activation, if_pos noted]
    refine (change _).imp fun _ m' changed => ?_
    obtain ⟨log, rfl⟩ := changed
    exact ⟨_, _, rfl⟩

theorem leads_binary_plain {value : String} {ty : Ty} {op : BinOp} {x y : Operand}
    (settled : op.isComparison = false ∨ m.act.loops.current.bound ≠ .unknown) :
    Leads (binary maxUnroll arrival value ty op x y) m (fun _ m' => Rebinds value m.act.loops.current m m')
      fun _ _ => False := by
  have unnoted : ¬ (op.isComparison && atHeader m.act arrival && m.act.loops.current.bound = .unknown) = true := by
    rcases settled with other | known
    · simp [other]
    · simp [known]
  rw [binary, leads_bind, noteComparison, leads_bind, leads_activation, if_neg unnoted]
  exact ⟨_, _, rfl⟩

/-- once. -/
theorem leads_comparison_again (current : m.act.loops.current = l.loop .enter j) :
    Leads (define env walk arrival l.cond l.condTy l.comparison) m
      (fun _ m' => Rebinds l.cond (l.loop .enter j) m m') fun _ _ => False := by
  have known : m.act.loops.current.bound ≠ .unknown := by simp [current, Counter.loop]
  rw [← current]
  unfold Counter.comparison
  split <;> exact leads_binary_plain (.inr known)

/-- The branch of a static loop goes on as the loop counts. -/
theorem leads_countedEdge
    (static : l.Static maxUnroll) (current : m.act.loops.current = l.loop .enter j) (here : arrival.block = l.header)
    (goes : ∀ log, Leads (followEdge walk l.header (if j < l.rounds then l.body else l.done))
      { m with log } done halted) :
    Leads (branch walk arrival (.var l.cond) l.body l.done) m done halted := by
  have settled : Leads (settleLoop arrival) m (fun _ m' => ∃ log, m' = { m with log }) fun _ _ => False := by
    rw [settleLoop, leads_bind, leads_activation]
    split
    · refine (leads_changeLoop_eq _ _ m).imp fun _ m' changed => ?_
      obtain ⟨log, rfl⟩ := changed
      have same : m.act.loops.current.settle = m.act.loops.current := by
        rw [current]
        rfl
      exact ⟨log, by rw [same]; rfl⟩
    · exact ⟨_, rfl⟩
  rw [branch, leads_bind]
  refine settled.surely fun _ m' same => ?_
  obtain ⟨log, rfl⟩ := same
  have counted : (m.act.loops.current.isStatic && (Operand.var l.cond).var? = m.act.loops.current.condVar) = true := by
    rw [current]
    simp [Counter.loop, Loop.isStatic, Operand.var?]
  rw [leads_bind, leads_activation]
  dsimp only
  rw [if_pos counted, leads_bind, leads_emit, current, static.hasNext_loop, here]
  simpa using goes _

end

end ChanFlow.Analysis
