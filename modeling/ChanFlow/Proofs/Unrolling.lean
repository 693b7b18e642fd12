import ChanFlow.Proofs.Labels
import ChanFlow.Proofs.NestSteps
import ChanFlow.Proofs.Termination

/-!
Nests of static loops are unrolled exactly.

The walk through a perfect nest of static loops makes the tour of the nest: at each stage it adds the operations
that are left on the tour, the first arrival at a header of a loop in a routine of its own. With the calls of
these routines inlined, the routine of the function performs the innermost body once for each combination of
rounds.
-/
open List

namespace ChanFlow

open Ssa Protocol

variable {p : Protocol} {out : List Statement} {around : Rounds} {b depth : Nat} {l : Counter} {stage : Stage}
  {m m' : Machine} {arrival : Arrival}

/-- Puts the statements of routines in the place of their calls. The arguments of such a call are named as the
parameters are. -/
inductive Protocol.Inlines (p : Protocol) : List Statement → List Statement → Prop
  | done : Inlines p [] []
  | keep {rest out : List Statement} (op : ChanOp) (next : Inlines p rest out) :
    Inlines p (op.statement :: rest) (op.statement :: out)
  | call {name : String} {args : List String} {r : Routine} {rest out : List Statement}
    (known : p.routine? name = some r)
    (same : args = r.params.map (·.callee)) (next : Inlines p (r.stmts ++ rest) out) :
    Inlines p (.call name args :: rest) out

theorem Protocol.Inlines.prepend {rest : List Statement} (next : Inlines p rest out)
    (ops : List ChanOp) : Inlines p (ops.map (·.statement) ++ rest) (ops.map (·.statement) ++ out) := by
  induction ops with
  | nil => exact next
  | cons op ops ih => exact ih.keep op

theorem Protocol.Inlines.unique {ss out' : List Statement} (inlines : Inlines p ss out)
    (inlines' : Inlines p ss out') : out = out' := by
  induction inlines generalizing out' with
  | done =>
    cases inlines'
    rfl
  | keep op next ih =>
    generalize eq : op.statement = s at inlines'
    cases inlines' with
    | keep op' next' => rw [ih next']
    | call => cases op <;> cases eq
  | call known same next ih =>
    generalize eq : Statement.call _ _ = s at inlines'
    cases inlines' with
    | keep op => cases op <;> cases eq
    | call known' same' next' =>
      obtain ⟨rfl, rfl⟩ := Statement.call.inj eq
      obtain rfl := Option.mem_unique known known'
      exact ih next'

namespace Analysis

/-! ### Loops around a stage -/

/-- The loops of these rounds, as they stand while their bodies are walked. -/
def Rounds.loops (around : Rounds) : List Loop := around.map fun r => r.1.loop .body r.2

def Rounds.nest : Rounds → Nest
  | [] => {}
  | (l, j) :: around => ⟨l.loop .body j, Rounds.loops around⟩

theorem signature_inside (l : Loop) (around : Rounds) :
    (⟨l, around.loops⟩ : Nest).signature = around.values ++ if l.isStatic then [l.index] else [] := by
  have outer : (around.loops.reverse.filter (·.isStatic)).map (·.index) = around.values := by
    rw [filter_eq_self.2, Rounds.loops, Rounds.values, ← map_reverse, ← map_reverse, map_map]
    · rfl
    · intro l' member
      obtain ⟨r, -, rfl⟩ := mem_map.1 (mem_reverse.1 member)
      rfl
  rw [Nest.signature, filter_append, map_append, outer]
  cases static : l.isStatic <;> simp [static]

@[simp] theorem signature_loop (l : Counter) (state : Loop.State) (j : Nat) (around : Rounds) :
    (⟨l.loop state j, around.loops⟩ : Nest).signature = Rounds.values ((l, j) :: around) := by
  rw [signature_inside, Rounds.values_cons]
  rfl

@[simp] theorem signature_entered (b : Nat) (around : Rounds) :
    (⟨Nest.entered b, around.loops⟩ : Nest).signature = around.values := by
  rw [signature_inside]
  exact append_nil _

@[simp] theorem signature_nest (around : Rounds) : around.nest.signature = around.values := by
  cases around with
  | nil => rfl
  | cons r around => exact signature_loop r.1 .body r.2 around

theorem enter_first (other : ∀ r ∈ around, r.1.header ≠ b) :
    (around.nest.enter b .loopHeader).1 = ⟨Nest.entered b, around.loops⟩ := by
  cases around with
  | nil => rfl
  | cons r around =>
    have different := other r mem_cons_self
    simp [Rounds.nest, Rounds.loops, Nest.enter, Counter.loop, different]

theorem repeatsAt_nest (other : ∀ r ∈ around, r.1.header ≠ b) : around.nest.current.repeatsAt b = false := by
  cases around with
  | nil => rfl
  | cons r around =>
    have different := other r mem_cons_self
    simp [Rounds.nest, Loop.repeatsAt, Counter.loop, different]

theorem enter_again (l : Counter) (j : Nat) (around : Rounds) :
    ((Rounds.nest ((l, j) :: around)).enter l.header .loopHeader).1 = ⟨l.loop .enter j, around.loops⟩ := by
  simp [Rounds.nest, Nest.enter, Counter.loop]

theorem enter_body (l : Counter) (j : Nat) (around : Rounds) :
    ((⟨l.loop .enter j, around.loops⟩ : Nest).enter l.body .loopBody).1 = Rounds.nest ((l, j) :: around) := rfl

theorem enter_outside (l l' : Counter) (n j : Nat) (around : Rounds) :
    ((⟨l'.loop .enter n, Rounds.loops ((l, j) :: around)⟩ : Nest).enter l'.done .loopDone).1 =
      Rounds.nest ((l, j) :: around) := rfl

namespace Stage

def src : Stage → Nat
  | first around _ _ => entryOf around
  | again _ l _ inner => backOf l inner
  | body _ l _ _ | done _ l _ => l.header

def dst : Stage → Nat
  | first _ l _ | again _ l _ _ => l.header
  | body _ l _ _ => l.body
  | done _ l _ => l.done

/-- The loops before the edge is followed. -/
def nest : Stage → Nest
  | first around _ _ => around.nest
  | again around l j _ => Rounds.nest ((l, j) :: around)
  | body around l j _ => ⟨l.loop .enter j, around.loops⟩
  | done around l _ => ⟨l.loop .enter l.rounds, around.loops⟩

/-- All loops of the nest. -/
def levels : Stage → List Counter
  | first around l inner | again around l _ inner | body around l _ inner | done around l inner =>
    wholeNest around l inner

section

variable (around : Rounds) (l : Counter) (j : Nat) (inner : List Counter)

theorem src_turn : (turn around l j inner).src = l.header := by
  unfold turn
  split <;> rfl

theorem dst_turn : (turn around l j inner).dst = if j < l.rounds then l.body else l.done := by
  unfold turn
  split <;> rfl

theorem levels_turn : (turn around l j inner).levels = wholeNest around l inner := by
  unfold turn
  split <;> rfl

end

theorem nest_turn (around : Rounds) {j : Nat} (le : j ≤ l.rounds) (inner : List Counter) :
    (turn around l j inner).nest = ⟨l.loop .enter j, around.loops⟩ := by
  unfold turn
  split
  · rfl
  · obtain rfl : j = l.rounds := by omega
    rfl

end Stage

/-! ### Stages of the walk -/

/-- An activation poised for these visits, with new routines for these merge points. -/
structure Poised (f : Function) (chans : List String) (nest : Nest) (visits merges : List BlockVisit) (a : Activation) :
    Prop where
  func : a.func = f
  holds : Holds chans a
  loops : a.loops = nest
  unvisited : ∀ key ∈ visits, key ∉ a.visited
  unlabelled : ∀ key ∈ merges, a.labels.get? key = none
  distinct : Routine.Distinct a.routine.params
  isOpen : a.routine.stmts.getLast? ≠ some .tau

/-- The machine after a walk: with the routines of these merge points inlined, what it added to the current list
performs these operations. -/
structure Unrolled (f : Function) (keys : List BlockVisit) (ops : List ChanOp) (m m' : Machine) : Prop where
  header : m'.act.routine.header = m.act.routine.header
  tasks : m'.tasks = m.tasks
  others : ∀ name, (∀ key ∈ keys, name ≠ visitLabel f key) →
    m'.context.protocol.routine? name = m.context.protocol.routine? name
  code : ∃ code, m'.act.routine.stmts = m.act.routine.stmts ++ code ∧ ∀ p : Protocol,
    (∀ key ∈ keys, p.routine? (visitLabel f key) = m'.context.protocol.routine? (visitLabel f key)) →
      p.Inlines code (ops.map (·.statement))

section

variable {f : Function} {chans chans' : List String} {nest nest' : Nest} {key : BlockVisit}
  {keys visits merges : List BlockVisit} {ops ops' : List ChanOp} {m m' m'' : Machine}

theorem Poised.worked (poised : Poised f chans nest visits merges m.act) (worked : Worked chans' nest' ops m m') :
    Poised f chans' nest' visits merges m'.act where
  func := worked.func.trans poised.func
  holds := worked.holds
  loops := worked.loops
  unvisited := worked.visited ▸ poised.unvisited
  unlabelled := worked.labels ▸ poised.unlabelled
  distinct := by
    rw [worked.routine]
    exact poised.distinct
  isOpen := worked.isOpen

theorem Poised.begin (poised : Poised f chans nest visits merges m.act) : Worked chans nest [] m m := by
  have worked := Worked.refl poised.holds poised.isOpen
  rwa [poised.loops] at worked

/-- Fewer merge points. -/
theorem Poised.later {a : Activation} (poised : Poised f chans nest visits (key :: merges) a) :
    Poised f chans nest visits merges a :=
  { poised with unlabelled := fun key' member => poised.unlabelled key' (mem_cons_of_mem _ member) }

theorem Unrolled.more (unrolled : Unrolled f keys ops m m') (key : BlockVisit) : Unrolled f (key :: keys) ops m m' := by
  obtain ⟨code, stmts, inlines⟩ := unrolled.code
  refine { unrolled with others := fun name other => ?_, code := ⟨code, stmts, fun p agrees => ?_⟩ }
  · exact unrolled.others name fun key' member => other key' (mem_cons_of_mem _ member)
  · exact inlines p fun key' member => agrees key' (mem_cons_of_mem _ member)

theorem Unrolled.after (unrolled : Unrolled f keys ops' m' m'') (worked : Worked chans nest ops m m') :
    Unrolled f keys (ops ++ ops') m m'' := by
  obtain ⟨code, stmts, inlines⟩ := unrolled.code
  refine ⟨?_, unrolled.tasks.trans worked.tasks, fun name other => ?_, ops.map (·.statement) ++ code, ?_,
    fun p agrees => ?_⟩
  · rw [unrolled.header, worked.routine]
    rfl
  · rw [unrolled.others name other, worked.protocol]
  · simp [stmts, worked.routine]
  · rw [map_append]
    exact (inlines p agrees).prepend ops

/-- A walk that ends with operations only. -/
theorem Worked.unrolled (worked : Worked chans nest ops m m') : Unrolled f [] ops m m' := by
  refine ⟨?_, worked.tasks, fun name _ => by rw [worked.protocol], ops.map (·.statement), ?_, fun p _ => ?_⟩
  · rw [worked.routine]
    rfl
  · rw [worked.routine]
  · simpa using Inlines.done.prepend ops

/-- A merge point that is called, and the routine that was made for it. -/
theorem unrolled_call {dst : Nat} {e : Event} (poised : Poised f chans nest visits merges m.act)
    (here : key = m.act.key dst) (once : key ∉ keys)
    (body : Unrolled f keys ops ((m.addLabel dst).openRoutine
      (Routine.addParams { name := m.act.mergeLabel dst } m.act.routine.continuationParams) e) m') :
    Unrolled f (key :: keys) ops m (m'.closeRoutine.setRoutine (m.addLabel dst).act.routine) := by
  have label : m.act.mergeLabel dst = visitLabel f key := by rw [mergeLabel_eq, poised.func, here]
  have handed : m'.act.routine.params = m.act.routine.continuationParams :=
    (congrArg (·.params) body.header).trans
      (Routine.foldl_addParam (Routine.distinct_continuationParams poised.distinct))
  have name : m'.act.routine.name = visitLabel f key := label ▸ congrArg (·.name) body.header
  have closed := Machine.routine?_closeRoutine name
  obtain ⟨code, stmts, inlines⟩ := body.code
  refine ⟨rfl, body.tasks, fun other away => ?_,
    [.call (visitLabel f key) (m.act.routine.continuationParams.map (·.callee))], ?_, fun p agrees => ?_⟩
  · rw [forall_mem_cons] at away
    refine (closed other).trans ((if_neg away.1.symm).trans ((body.others other away.2).trans ?_))
    exact Protocol.routine?_add_of_ne _ (label ▸ away.1.symm)
  · rw [← label]
    exact append_of_open poised.isOpen _
  · rw [forall_mem_cons] at agrees
    have known : p.routine? (visitLabel f key) = some m'.act.routine := agrees.1.trans ((closed _).trans (if_pos rfl))
    refine .call known (by rw [handed]) ?_
    rw [append_nil, stmts]
    refine inlines p fun key' member => (agrees.2 key' member).trans ((closed _).trans (if_neg fun same => ?_))
    exact once (visitLabel_inj same ▸ member)

section Walks

variable {env : Env} {walk : Walker} {arrival : Arrival} {block : Block} {bound depth src dst : Nat}

/-- Entering a block for a visit, and what its instructions come to. -/
theorem Poised.leads_walkBlock (linked : f.Linked) (found : f.block? arrival.block = some block)
    (poised : Poised f chans nest (key :: keys) keys m.act) (entered : (nest.enter arrival.block block.role).1 = nest')
    (here : key = (arrival.block, nest'.signature)) (once : key ∉ keys) (shallow : nest.outer.length < bound)
    (goes : ∀ depth m₀, Poised f chans nest' keys keys m₀.act →
      Leads (block.instrs.forM (walkInstr env (walkBlock env depth) arrival)) m₀
        (fun _ m' => Unrolled f keys ops m₀ m') (CutOff bound)) :
    Leads (walkBlock env depth arrival) m (fun _ m' => Unrolled f keys ops m m') (CutOff bound) := by
  cases depth with
  | zero => exact ⟨⟨_, rfl⟩, length_signature_le (poised.loops ▸ shallow)⟩
  | succ depth =>
    have index := linked.index_eq found
    have loops : (m.enter block arrival.pred).act.loops = nest' := by
      show (m.act.loops.enter block.index block.role).1 = nest'
      rw [poised.loops, index, entered]
    have visit : (m.enter block arrival.pred).act.key block.index = key := by
      rw [Activation.key, Activation.signature, loops, index, here]
    refine leads_enterBlock (poised.func.symm ▸ found) ?_
      ((goes depth _ ?_).imp fun _ m' unrolled => { unrolled with })
    · rw [visit]
      exact poised.unvisited key mem_cons_self
    · refine { poised with
        holds := ⟨poised.holds.names, poised.holds.locals⟩
        loops := loops
        unvisited := fun key' member => ?_ }
      refine not_mem_cons_of_ne_of_not_mem ?_ (poised.unvisited key' (mem_cons_of_mem _ member))
      rintro rfl
      exact once (visit ▸ member)

/-- A block that is walked in the current routine. -/
theorem Poised.leads_passed (linked : f.Linked) (found : f.block? dst = some block)
    (straight : block.isMergePoint = false ∨ nest.current.repeatsAt dst = true)
    (poised : Poised f chans nest (key :: keys) (key :: keys) m.act) (entered : (nest.enter dst block.role).1 = nest')
    (here : key = (dst, nest'.signature)) (once : key ∉ keys) (shallow : nest.outer.length < bound)
    (goes : ∀ depth m₀, Poised f chans nest' keys keys m₀.act →
      Leads (block.instrs.forM (walkInstr env (walkBlock env depth) (.along src dst))) m₀
        (fun _ m' => Unrolled f keys ops m₀ m') (CutOff bound)) :
    Leads (arriveAt (walkBlock env depth) src dst) m (fun _ m' => Unrolled f (key :: keys) ops m m')
      (CutOff bound) := by
  refine leads_straight (poised.func.symm ▸ found) (poised.loops ▸ straight) ?_
  exact (poised.later.leads_walkBlock linked found entered here once shallow goes).imp
    (fun _ _ unrolled => unrolled.more key)

/-- A header that is come to from outside gets a routine of its own. -/
theorem Poised.leads_called (regular : Regular walk) (found : f.block? dst = some block)
    (merge : block.isMergePoint = true) (other : nest.current.repeatsAt dst = false)
    (poised : Poised f chans nest (key :: keys) (key :: keys) m.act) (here : key = (dst, nest.signature))
    (once : key ∉ keys)
    (goes : ∀ m₀, Poised f chans nest (key :: keys) keys m₀.act →
      Leads (walk (.along src dst)) m₀ (fun _ m' => Unrolled f keys ops m₀ m') (CutOff bound)) :
    Leads (arriveAt walk src dst) m (fun _ m' => Unrolled f (key :: keys) ops m m') (CutOff bound) := by
  have here : key = m.act.key dst := by rw [here, Activation.key, Activation.signature, poised.loops]
  refine leads_merge regular (poised.func.symm ▸ found) merge (poised.loops.symm ▸ other)
    (here ▸ poised.unlabelled key mem_cons_self) ((goes _ ?_).imp fun _ m' body => ?_)
  · refine { poised with
      holds := ⟨poised.holds.names, poised.holds.locals⟩
      unlabelled := fun key' member => ?_
      distinct := Routine.Distinct.foldl (f := id) (show Routine.Distinct [] from nodup_nil) _
      isOpen := by simp [Machine.openRoutine, Activation.setRoutine, Routine.addParams] }
    refine (Table.get?_insert _ _ _ _).trans ((if_neg ?_).trans (poised.unlabelled key' (mem_cons_of_mem _ member)))
    rintro rfl
    exact once (here ▸ member)
  · exact unrolled_call poised here once body

/-- The walk from a stage unrolls what is left. -/
def Walks (env : Env) (f : Function) (chans : List String) (bound : Nat) (stage : Stage) (keys : List BlockVisit)
    (ops : List ChanOp) : Prop :=
  ∀ depth m, Poised f chans stage.nest keys keys m.act →
    Leads (arriveAt (walkBlock env depth) stage.src stage.dst) m (fun _ m' => Unrolled f keys ops m m') (CutOff bound)

/-- The last step of a block on the way to a stage. -/
theorem Walks.leads_next (next : Walks env f chans bound stage keys ops')
    (poised : Poised f chans' nest keys keys m.act) (worked : Worked chans stage.nest ops m m')
    (shallow : stage.nest.outer.length < bound) :
    Leads (followEdge (walkBlock env depth) stage.src stage.dst) m' (fun _ m'' => Unrolled f keys (ops ++ ops') m m'')
      (CutOff bound) := by
  refine leads_edge (worked.loops ▸ length_signature_le shallow) fun n => ?_
  have paid : Worked chans stage.nest ops m (m'.withBudget n) := { worked with }
  exact (next depth _ (poised.worked paid)).imp fun _ _ unrolled => unrolled.after paid

end Walks

end

theorem Stage.length_outer_lt (stage : Stage) : stage.nest.outer.length < stage.levels.length := by
  cases stage with
  | first around l inner =>
    cases around with
    | nil => simp [Stage.nest, Rounds.nest, Stage.levels, wholeNest]
    | cons r around => simp [Stage.nest, Rounds.nest, Rounds.loops, Stage.levels, wholeNest]
  | again around l j inner => simp [Stage.nest, Rounds.nest, Rounds.loops, Stage.levels, wholeNest]
  | body around l j inner => simp [Stage.nest, Rounds.loops, Stage.levels, wholeNest]
  | done around l inner => simp [Stage.nest, Rounds.loops, Stage.levels, wholeNest]

theorem isComparison_of_static {maxUnroll : Nat} (static : l.Static maxUnroll) : l.op.isComparison = true := by
  have last := static.last
  unfold Counter.test at last
  cases op : l.op <;> cases swapped : l.swapped <;>
    simp [op, swapped, BinOp.flip, Loop.lastIndex?, BinOp.isComparison] at last ⊢

/-- The protocol of the function performs these operations, with all calls inlined. -/
def Spreads (protocol : Protocol) (name : String) (ops : List ChanOp) : Prop :=
  ∃ r, protocol.routine? name = some r ∧ ∀ out, protocol.Inlines r.stmts out ↔ out = ops.map (·.statement)

theorem spreads_closeRoutine {f : Function} {keys : List BlockVisit} {ops : List ChanOp}
    (routine : m.act.routine = { name := f.name }) (unrolled : Unrolled f keys ops m m') :
    Spreads m'.closeRoutine.context.protocol f.name ops := by
  have name : m'.act.routine.name = f.name := by
    rw [show m'.act.routine.name = m.act.routine.name from congrArg (·.name) unrolled.header, routine]
  have closed := Machine.routine?_closeRoutine name
  obtain ⟨code, stmts, inlines⟩ := unrolled.code
  have inlined := inlines m'.closeRoutine.context.protocol fun key _ =>
    (closed _).trans (if_neg (visitLabel_ne f key).symm)
  rw [routine, nil_append] at stmts
  rw [← stmts] at inlined
  refine ⟨m'.act.routine, (closed _).trans (if_pos rfl), fun out => ⟨fun other => other.unique inlined, ?_⟩⟩
  exact fun eq => eq ▸ inlined

/-- The loops around a stage are some of the nest. -/
theorem shallow_of_whole {ls inner : List Counter} (whole : ls = wholeNest around l inner) :
    around.loops.length < ls.length :=
  whole ▸ Stage.length_outer_lt (.body around l 0 inner)

theorem mem_of_whole {ls inner : List Counter} (whole : ls = wholeNest around l inner) : l ∈ ls := by
  simp [whole, wholeNest]

section Stages

variable {p : Program} {o : Options} {f : Function} {l : Counter} {inner : List Counter} {makes work final : List Instr}
  (perfect : PerfectNest f l inner makes work final)
    (static : ∀ l' ∈ l :: inner, (l'.classified o.maxUnroll).isStatic)
  {around : Rounds} {l' l'' : Counter} {inner' : List Counter} {keys : List BlockVisit}
    {ops ops' : List ChanOp} {j : Nat}

variable (p o f l inner makes) in
/-- The walk from a stage of the nest. -/
abbrev Goes (stage : Stage) (keys : List BlockVisit) (ops : List ChanOp) : Prop :=
  Walks ⟨p, o⟩ f (definedBy makes) (l :: inner).length stage keys ops

include static

/-- The branch of a header leads to the next stage. -/
theorem leads_turn (whole : l :: inner = wholeNest around l' inner') (le : j ≤ l'.rounds)
    (next : Goes p o f l inner makes (.turn around l' j inner') keys ops) {i : Instr}
    (branches : i.action = .perform (.branch (.var l'.cond) l'.body l'.done)) (here : arrival.block = l'.header)
    {nest : Nest} (poised : Poised f (definedBy makes) nest keys keys m.act)
    (worked : Worked (definedBy makes) ⟨l'.loop .enter j, around.loops⟩ [] m m') :
    Leads ([i].forM (walkInstr ⟨p, o⟩ (walkBlock ⟨p, o⟩ depth) arrival)) m'
      (fun _ m'' => Unrolled f keys ops m m'') (CutOff (l :: inner).length) := by
  have member := mem_of_whole whole
  obtain ⟨counts, -⟩ := Counter.static_of_classified (static l' member)
  have turned := Stage.nest_turn around le inner'
  have shallow : (Stage.turn around l' j inner').nest.outer.length < (l :: inner).length := by
    rw [whole, ← Stage.levels_turn around l' j inner']
    exact Stage.length_outer_lt _
  refine worked.leads_next (length_signature_le (shallow_of_whole whole)) branches fun n worked => ?_
  refine leads_countedEdge counts (congrArg (·.current) worked.loops) here fun log => ?_
  rw [← Stage.src_turn around l' j inner', ← Stage.dst_turn around l' j inner']
  rw [← turned] at worked
  have logged : Worked (definedBy makes) (Stage.turn around l' j inner').nest [] m
    { (m'.emit (.instrVisited i)).withBudget n with log } := { worked with }
  exact next.leads_next poised logged shallow

include perfect

theorem walks_first (whole : l :: inner = wholeNest around l' inner') (once : (l'.header, around.values) ∉ keys)
    (next : Goes p o f l inner makes (.turn around l' 0 inner') keys ops) :
    Goes p o f l inner makes (.first around l' inner') ((l'.header, around.values) :: keys) ops := by
  intro depth m poised
  have member := mem_of_whole whole
  obtain ⟨counts, classified⟩ := Counter.static_of_classified (static l' member)
  obtain ⟨block, index, cond, last, found, role, instrs, isPhi, compares, branches, free, free'⟩ :=
    perfect.header_instrs whole
  have candidate := perfect.indexCandidate?_eq whole counts.step_ne_zero (entryOf around) (backOf l' inner')
  have other := perfect.header_ne whole
  have shallow : around.nest.outer.length < (l :: inner).length :=
    whole ▸ Stage.length_outer_lt (.first around l' inner')
  have deeper := shallow_of_whole whole
  refine poised.leads_called (regular_walkBlock _ depth) found (perfect.isMergePoint_header whole found)
    (repeatsAt_nest other) (by simp [Stage.dst]) once fun m₀ poised => ?_
  refine poised.leads_walkBlock perfect.linked found (role ▸ enter_first other)
    (by simp [Stage.dst, Arrival.along]) once shallow fun depth m₁ poised => ?_
  rw [instrs]
  refine poised.begin.leads_next (length_signature_le deeper) isPhi fun n worked => ?_
  have taken : (l'.edges (entryOf around) (backOf l' inner')).find? (·.pred = entryOf around) =
      some ⟨entryOf around, .const (.int l'.start)⟩ := by simp [Counter.edges]
  refine (leads_phi_noted (congrArg (·.current) worked.loops) (poised.func.symm ▸ candidate) taken
    fun _ _ => rfl).surely fun _ m₂ noted => ?_
  have worked := worked.rebinds free noted
  refine worked.leads_next (length_signature_le deeper) compares fun n worked => ?_
  refine (leads_comparison_first (isComparison_of_static counts) rfl (congrArg (·.current) worked.loops)).weaken
    (fun _ m₃ settled => ?_) fun _ _ => False.elim
  have worked := worked.rebinds free' settled
  rw [classified] at worked
  exact leads_turn static whole (Nat.zero_le _) next branches rfl poised worked

theorem walks_again (whole : l :: inner = wholeNest around l' inner') (less : j < l'.rounds)
    (once : (l'.header, Rounds.values ((l', j) :: around)) ∉ keys)
    (next : Goes p o f l inner makes (.turn around l' (j + 1) inner') keys ops) :
    Goes p o f l inner makes (.again around l' j inner')
      ((l'.header, Rounds.values ((l', j) :: around)) :: keys) ops := by
  intro depth m poised
  have member := mem_of_whole whole
  obtain ⟨counts, -⟩ := Counter.static_of_classified (static l' member)
  obtain ⟨block, index, cond, last, found, role, instrs, isPhi, compares, branches, free, free'⟩ :=
    perfect.header_instrs whole
  have back : (l'.loop .body j).repeatsAt l'.header = true := by simp [Loop.repeatsAt, Counter.loop, Loop.isStatic]
  have shallow := shallow_of_whole whole
  refine poised.leads_passed perfect.linked found (.inr back) (role ▸ enter_again l' j around)
    (by simp [Stage.dst]) once shallow fun depth m₁ poised => ?_
  rw [instrs]
  refine poised.begin.leads_next (length_signature_le shallow) isPhi fun n worked => ?_
  refine (leads_phi_again (congrArg (·.current) worked.loops) (perfect.entryOf_ne_backOf whole)).surely
    fun _ m₂ moved => ?_
  have worked := worked.rebinds free moved
  rw [counts.advance_loop (perfect.starts l' member) .enter less] at worked
  refine worked.leads_next (length_signature_le shallow) compares fun n worked => ?_
  refine (leads_comparison_again (congrArg (·.current) worked.loops)).surely fun _ m₃ same => ?_
  exact leads_turn static whole less next branches rfl poised (worked.rebinds free' same)

omit static

/-- The way back to a header counts on. -/
theorem leads_back (whole : l :: inner = wholeNest around l' inner')
    (next : Goes p o f l inner makes (.again around l' j inner') keys ops') {block : Block}
    {first rest : List Instr} (found : f.block? (backOf l' inner') = some block) (instrs : block.instrs = first ++ rest)
    (counts : rest.map (·.action) = backActions l') (here : arrival.block = backOf l' inner')
    {nest : Nest} (poised : Poised f (definedBy makes) nest keys keys m.act)
    (worked : Worked (definedBy makes) (Rounds.nest ((l', j) :: around)) ops m m') :
    Leads (rest.forM (walkInstr ⟨p, o⟩ (walkBlock ⟨p, o⟩ depth) arrival)) m'
      (fun _ m'' => Unrolled f keys (ops ++ ops') m m'') (CutOff (l :: inner).length) := by
  have shallow := shallow_of_whole whole
  obtain ⟨step, rest, rfl, adds, ends⟩ := map_eq_cons_iff.1 counts
  obtain ⟨last, rfl, jumps⟩ := map_eq_singleton_iff.1 ends
  have free : l'.next ∉ definedBy makes :=
    perfect.not_mem_channels found (perfect.backOf_ne_zero whole) (i := step) (by simp [instrs])
      (by rw [Instr.name?, adds])
  refine worked.leads_next (length_signature_le shallow) adds fun n paid => ?_
  refine (leads_binary_plain (.inl rfl)).surely fun _ m₁ bound => ?_
  have worked := paid.rebinds free bound
  rw [paid.loops] at worked
  refine worked.leads_next (length_signature_le shallow) jumps fun n worked => ?_
  rw [interpret, perform, here]
  exact next.leads_next poised worked shallow

/-- A body around another loop leads to its header. -/
theorem walks_inside (whole : l :: inner = wholeNest around l' (l'' :: inner'))
    (once : (l'.body, Rounds.values ((l', j) :: around)) ∉ keys)
    (next : Goes p o f l inner makes (.first ((l', j) :: around) l'' inner') keys ops) :
    Goes p o f l inner makes (.body around l' j (l'' :: inner'))
      ((l'.body, Rounds.values ((l', j) :: around)) :: keys) ops := by
  intro depth m poised
  have member := mem_of_whole whole
  have shallow := shallow_of_whole whole
  obtain ⟨-, ⟨block, instrs, found, role, eq, actions⟩, -⟩ := nested_at (whole ▸ perfect.nested)
  obtain ⟨last, rfl, jumps⟩ := map_eq_singleton_iff.1 actions
  refine poised.leads_passed perfect.linked found (.inl (perfect.not_isMergePoint member (.inl rfl) found))
    (role ▸ enter_body l' j around) (by simp [Stage.dst, Rounds.nest]) once shallow fun depth m₁ poised => ?_
  rw [eq]
  exact poised.begin.leads_next (length_signature_le shallow) jumps fun n worked =>
    next.leads_next poised worked shallow

/-- The innermost body does its work. -/
theorem walks_work (whole : l :: inner = wholeNest around l' [])
    (once : (l'.body, Rounds.values ((l', j) :: around)) ∉ keys)
    (next : Goes p o f l inner makes (.again around l' j []) keys ops) :
    Goes p o f l inner makes (.body around l' j [])
      ((l'.body, Rounds.values ((l', j) :: around)) :: keys) (work.filterMap (·.chanOp?) ++ ops) := by
  intro depth m poised
  have member := mem_of_whole whole
  have shallow := shallow_of_whole whole
  obtain ⟨-, block, ends, found, role, instrs, actions⟩ := nested_at (whole ▸ perfect.nested)
  refine poised.leads_passed perfect.linked found (.inl (perfect.not_isMergePoint member (.inl rfl) found))
    (role ▸ enter_body l' j around) (by simp [Stage.dst, Rounds.nest]) once shallow fun depth m₁ poised => ?_
  rw [instrs]
  refine poised.begin.leads_uses (length_signature_le shallow)
    (fun i inside => perfect.uses i (mem_append_left _ inside))
    (fun i inside x name => ?_) fun m₂ worked _ => leads_back perfect whole next found instrs actions
      rfl poised worked
  have other := perfect.blocks_ne_zero member (b := l'.body) (by simp [Counter.blocks])
  exact perfect.not_mem_channels found other (by simp [instrs, inside]) name

/-- The way out of an inner loop is the way back of the loop around it. -/
theorem walks_outside (whole : l :: inner = wholeNest around l' (l'' :: inner'))
    (once : (l''.done, Rounds.values ((l', j) :: around)) ∉ keys)
    (next : Goes p o f l inner makes (.again around l' j (l'' :: inner')) keys ops) :
    Goes p o f l inner makes (.done ((l', j) :: around) l'' inner')
      ((l''.done, Rounds.values ((l', j) :: around)) :: keys) ops := by
  intro depth m poised
  have inside := whole.trans (wholeNest_cons around l' l'' j inner').symm
  have member := mem_of_whole inside
  have shallow := shallow_of_whole inside
  obtain ⟨-, -, ⟨block, ends, found, role, instrs, actions⟩, -⟩ := nested_at (whole ▸ perfect.nested)
  refine poised.leads_passed perfect.linked found (.inl (perfect.not_isMergePoint member (.inr rfl) found))
    (role ▸ enter_outside l' l'' l''.rounds j around) (by simp [Stage.dst]) once shallow fun depth m₁ poised => ?_
  rw [instrs]
  exact leads_back perfect whole next found instrs actions rfl poised poised.begin

/-- After the outermost loop the function ends. -/
theorem walks_final : Goes p o f l inner makes (.done [] l inner)
    [(l.done, [l.value l.rounds])] (final.filterMap (·.chanOp?)) := by
  intro depth m poised
  have shallow : 0 < (l :: inner).length := by simp
  obtain ⟨results, block, ends, found, role, instrs, actions⟩ := perfect.leaves
  obtain ⟨last, rfl, returns⟩ := map_eq_singleton_iff.1 actions
  have entered : ((⟨l.loop .enter l.rounds, Rounds.loops []⟩ : Nest).enter l.done .loopDone).1 =
      ⟨l.loop .exit l.rounds, Rounds.loops []⟩ := rfl
  refine poised.leads_passed perfect.linked found (.inl (perfect.not_isMergePoint mem_cons_self (.inr rfl) found))
    (role ▸ entered) (by simp [Stage.dst]) (by simp) shallow fun depth m₁ poised => ?_
  rw [instrs]
  refine poised.begin.leads_uses (length_signature_le shallow)
    (fun i inside => perfect.uses i (mem_append_right _ inside))
    (fun i inside x name => ?_) fun m₂ worked _ => ?_
  · have other := perfect.blocks_ne_zero mem_cons_self (b := l.done) (by simp [Counter.blocks])
    exact perfect.not_mem_channels found other (by simp [instrs, inside]) name
  · refine worked.leads_next (length_signature_le shallow) returns fun n paid => ?_
    exact (paid.leads_returnValues 0 results).surely fun _ m₃ ends => ends.1.unrolled

include static

/-- The walk makes the tour of the nest. -/
theorem walks_tour (tour : Tour (work.filterMap (·.chanOp?)) (final.filterMap (·.chanOp?)) stage keys ops)
    (whole : l :: inner = stage.levels) (once : keys.Nodup) :
    Goes p o f l inner makes stage keys ops := by
  induction tour with
  | first next ih =>
    rw [nodup_cons] at once
    exact walks_first perfect static whole once.1 (ih (whole.trans (Stage.levels_turn _ _ _ _).symm) once.2)
  | again less next ih =>
    rw [nodup_cons] at once
    exact walks_again perfect static whole less once.1 (ih (whole.trans (Stage.levels_turn _ _ _ _).symm) once.2)
  | inside next ih =>
    rw [nodup_cons] at once
    exact walks_inside perfect whole once.1 (ih (whole.trans (wholeNest_cons _ _ _ _ _).symm) once.2)
  | work next ih =>
    rw [nodup_cons] at once
    exact walks_work perfect whole once.1 (ih whole once.2)
  | outside next ih =>
    rw [nodup_cons] at once
    have whole := whole.trans (wholeNest_cons _ _ _ _ _)
    exact walks_outside perfect whole once.1 (ih whole once.2)
  | final =>
    obtain ⟨rfl, rfl⟩ := List.cons.inj whole
    exact walks_final perfect

/-- The visits of the whole nest. -/
def nestKeys (l : Counter) (inner : List Counter) : List BlockVisit :=
  keysOf [] (l :: inner) ++ [(l.done, [l.value l.rounds])]

theorem nodup_nestKeys : ((0, []) :: nestKeys l inner).Nodup := by
  obtain ⟨zero, apart⟩ := nodup_cons.1 perfect.apart
  have moves : ∀ l' ∈ l :: inner, l'.step ≠ 0 := fun l' member =>
    (Counter.static_of_classified (static l' member)).1.step_ne_zero
  rw [nestKeys, nodup_cons, nodup_append]
  refine ⟨fun member => ?_, nodup_keysOf apart moves, by simp, fun key member key' last same => ?_⟩
  · rcases mem_append.1 member with inside | last
    · exact zero (block_of_mem_keysOf apart inside).1
    · have first : 0 = l.done := congrArg Prod.fst (mem_singleton.1 last)
      exact perfect.blocks_ne_zero mem_cons_self (by simp [Counter.blocks]) first.symm
  · obtain rfl := mem_singleton.1 last
    exact (block_of_mem_keysOf apart member).2 (congrArg Prod.fst same)

/-- The walk of the function. -/
theorem leads_nest (poised : Poised f [] {} ((0, []) :: nestKeys l inner) (nestKeys l inner) m.act) :
    Leads (walkBlock ⟨p, o⟩ depth .entry) m
      (fun _ m' => Unrolled f (nestKeys l inner) (makes.filterMap (·.chanOp?) ++
        ((List.replicate ((l :: inner).map (·.rounds)).prod (work.filterMap (·.chanOp?))).flatten ++
          final.filterMap (·.chanOp?))) m m')
      (CutOff (l :: inner).length) := by
  have once := nodup_cons.1 (nodup_nestKeys perfect static)
  have next := walks_tour (p := p) perfect static (tour_first [] l inner .final) rfl once.2
  obtain ⟨block, ends, found, role, instrs, actions⟩ := perfect.entry
  obtain ⟨last, rfl, jumps⟩ := map_eq_singleton_iff.1 actions
  have entered : (({} : Nest).enter 0 .plain).1 = {} := rfl
  have shallow : ({} : Nest).outer.length < (l :: inner).length := by simp
  refine poised.leads_walkBlock perfect.linked found (role ▸ entered) rfl once.1 shallow fun depth m₁ poised => ?_
  rw [instrs]
  refine poised.begin.leads_makes (length_signature_le shallow) perfect.creates fun m₂ worked => ?_
  exact worked.leads_next (length_signature_le shallow) jumps fun n worked => next.leads_next poised worked shallow

end Stages

/-- The analysis of a perfect nest of static loops comes to an end, and gives a protocol that creates the channels,
does the work of the innermost body once for each combination of rounds, and then what comes after the loops. -/
theorem nest_unrolled {p : Program} {o : Options} {f : Function} {l : Counter} {inner : List Counter}
    {makes work final : List Instr} (entry : p.function? o.entry = some f)
    (alone : (p.function? o.init).filter (·.hasBody) = none) (asFound : o.cleanUp = false)
    (perfect : PerfectNest f l inner makes work final)
    (static : ∀ l' ∈ l :: inner, (l'.classified o.maxUnroll).isStatic) :
    ∃ protocol budget, (∀ n ≥ budget, (infer n p o).result = .ok protocol) ∧
      ∃ counts, List.Forall₂ Counter.Counts (l :: inner) counts ∧
        Spreads protocol o.entry (makes.filterMap (·.chanOp?) ++
          ((List.replicate counts.prod (work.filterMap (·.chanOp?))).flatten ++ final.filterMap (·.chanOp?))) := by
  obtain ⟨block, -, found, -⟩ := perfect.entry
  have walked (budget : Nat) : Leads (walkBlock ⟨p, o⟩ (budget + 1) .entry)
      ((Machine.start p f budget).openRoutine { name := f.name } .routineStarted) _ _ := leads_nest perfect static
    ⟨rfl, ⟨rfl, by simp⟩, rfl, fun _ _ => not_mem_nil, fun _ _ => rfl, nodup_nil, open_of_nil rfl⟩
  obtain ⟨protocol, budget, enough, spreads⟩ :=
    exists_inferred (P := (Spreads · f.name _)) (enters_of_block entry found) alone fun budget =>
    (walked budget).imp fun _ m' unrolled => by
      rw [if_neg (by simp [asFound])]
      exact ⟨congrArg (·.waiting) unrolled.tasks, spreads_closeRoutine rfl unrolled⟩
  refine ⟨protocol, budget, enough, (l :: inner).map (·.rounds), ?_, ?_⟩
  · rw [forall₂_map_right_iff, forall₂_same]
    exact fun l' member => (Counter.static_of_classified (static l' member)).1.counts
  · rwa [← Program.function?_name entry]

/-! ### A nest of two loops -/

/-- Counts two rounds up, -/
def rising : Counter where
  header := 1
  body := 2
  done := 6
  index := "i"
  indexTy := .basic "int"
  cond := "c"
  condTy := .basic "bool"
  next := "i1"
  nextTy := .basic "int"
  start := 0
  step := 1
  op := .lt
  bound := 2
  swapped := false

/-- and in each of them three rounds down. -/
def falling : Counter where
  header := 3
  body := 4
  done := 5
  index := "j"
  indexTy := .basic "int"
  cond := "d"
  condTy := .basic "bool"
  next := "j1"
  nextTy := .basic "int"
  start := 7
  step := -3
  op := .le
  bound := 0
  swapped := true

def roundingMakes : List Instr := [
  .define "a" .intChan (.makeChan (.int 1)),
  .define "b" .intChan (.makeChan (.int 0))]

def roundingWork : List Instr := [
  .perform (.send (.var "a") (.var "j")),
  .define "v" .int (.recv (.var "b") false)]

def roundingFinal : List Instr := [.perform (.call ⟨.builtin "close", [.var "a"]⟩)]

def instrOf (action : Action) : Instr := { action }

def rounding : Function := .closed "main.main" [
  { index := 0, tag := none, preds := [], succs := [1], instrs := roundingMakes ++ [instrOf (.perform (.jump 1))] },
  { index := 1, tag := some "for.loop", preds := [0, 5], succs := [2, 6],
    instrs := (headerActions rising 0 5).map instrOf },
  .of 2 (some "for.body") [1] [3] [instrOf (.perform (.jump 3))],
  { index := 3, tag := some "for.loop", preds := [2, 4], succs := [4, 5],
    instrs := (headerActions falling 2 4).map instrOf },
  { index := 4, tag := some "for.body", preds := [3], succs := [3],
    instrs := roundingWork ++ (backActions falling).map instrOf },
  { index := 5, tag := some "for.done", preds := [3], succs := [1], instrs := (backActions rising).map instrOf },
  { index := 6, tag := some "for.done", preds := [1], succs := [],
    instrs := roundingFinal ++ [instrOf (.perform (.ret []))] }]

theorem rounding_perfect : PerfectNest rounding rising [falling] roundingMakes roundingWork roundingFinal where
  linked := ⟨rounding.draft, rfl⟩
  entry := ⟨_, _, rfl, rfl, rfl, rfl⟩
  nested := ⟨⟨_, _, rfl, rfl, rfl, rfl⟩, ⟨_, _, rfl, rfl, rfl, rfl⟩, ⟨_, _, rfl, rfl, rfl, rfl⟩,
    ⟨_, _, rfl, rfl, rfl, rfl⟩, ⟨_, _, rfl, rfl, rfl, rfl⟩⟩
  leaves := ⟨[], _, _, rfl, rfl, rfl, rfl⟩
  apart := by decide
  only := by
    intro b block found
    obtain ⟨less, -⟩ := List.getElem?_eq_some_iff.1 found
    exact (by decide : ∀ b < 7, b ∈ 0 :: [rising, falling].flatMap Counter.blocks) b less
  names := by decide
  creates := by simp [roundingMakes, Instr.chanOp?, Operand.int?, Literal.int?]
  uses := by simp [roundingMakes, roundingWork, roundingFinal, Instr.chanOp?, ChanOp.Uses, definedBy, Instr.name?]
  starts := by decide

theorem rounding_unrolled :
    ∃ protocol budget,
      (∀ n ≥ budget, (infer n { functions := [rounding] } { cleanUp := false }).result = .ok protocol) ∧
      Spreads protocol "main.main" ([.newChan "a" 1, .newChan "b" 0] ++
        ((List.replicate 6 [.send "a", .recv "b"]).flatten ++ [.close "a"])) := by
  have static : ∀ l ∈ [rising, falling], (l.classified 1000).isStatic := by decide
  obtain ⟨protocol, budget, enough, counts, exactly, spreads⟩ :=
    nest_unrolled (p := { functions := [rounding] }) (o := { cleanUp := false }) rfl rfl rfl rounding_perfect static
  refine ⟨protocol, budget, enough, ?_⟩
  have two : rising.Counts 2 := (Counter.static_of_classified (static rising (by simp))).1.counts
  have three : falling.Counts 3 := (Counter.static_of_classified (static falling (by simp))).1.counts
  cases exactly with
  | cons first rest =>
    cases rest with
    | cons second rest =>
      cases rest
      obtain rfl := first.unique two
      obtain rfl := second.unique three
      exact spreads

end Analysis

end ChanFlow
