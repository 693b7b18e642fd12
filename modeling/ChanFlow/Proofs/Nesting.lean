import ChanFlow.Proofs.ChannelNames
import Mathlib.Data.List.Perm.Subperm

/-!
How deep calls go into one another, and how many functions are spawned.

No function is interpreted inside itself: the functions an activation is inside of, with its own, are
all different. They all have a body, so calls are never nested deeper than there are functions with a
body, and a walk that refuses to go deeper comes out the same. The queue takes each function once and
gives the functions back in the order in which they came.
-/
open List

namespace ChanFlow

open Ssa Protocol

variable {a : Activation} {m : Machine}

/-- How many functions can be interpreted. -/
def Ssa.Program.bodies (p : Program) : Nat := (p.functions.filter (·.hasBody)).length

namespace Analysis

/-- The functions that an activation is inside of, the outermost first, and its own last. -/
def Activation.chain (a : Activation) : List String := a.callers ++ [a.func.name]

/-- Functions with a body, none of them twice. -/
structure Strict (p : Program) (names : List String) : Prop where
  distinct : names.Nodup
  known : ∀ name ∈ names, ∃ f, Interpretable p f ∧ f.name = name

section Strict

variable {p : Program} {names : List String}

theorem Strict.length_le (strict : Strict p names) : names.length ≤ p.bodies := by
  have subset : names ⊆ (p.functions.filter (·.hasBody)).map (·.name) := by
    intro name member
    obtain ⟨f, ⟨found, body⟩, rfl⟩ := strict.known name member
    have inside : f ∈ p.functions := mem_of_find?_eq_some found
    exact mem_map_of_mem (mem_filter.2 ⟨inside, body⟩)
  have short := (strict.distinct.subperm subset).length_le
  rwa [length_map] at short

theorem Strict.one {f : Function} (known : Interpretable p f) : Strict p [f.name] :=
  ⟨by simp, fun name member => ⟨f, known, (mem_singleton.1 member).symm⟩⟩

theorem Strict.append {f : Function} (strict : Strict p names) (known : Interpretable p f) (fresh : f.name ∉ names) :
    Strict p (names ++ [f.name]) := by
  constructor
  · rw [nodup_append]
    refine ⟨strict.distinct, by simp, fun name member other one same => fresh ?_⟩
    rwa [← mem_singleton.1 one, ← same]
  · intro name member
    rcases mem_append.1 member with old | new
    · exact strict.known name old
    · exact ⟨f, known, (mem_singleton.1 new).symm⟩

end Strict

/-! ### The queue -/

/-- What spawning makes of a queue: activations of functions that were not queued before come behind the others. -/
structure Appended (p : Program) (q : TaskQueue) (added : List Activation) (q' : TaskQueue) : Prop where
  waiting : q'.waiting = q.waiting ++ added
  scheduled : q'.scheduled = (added.map (·.func.name)).reverse ++ q.scheduled
  distinct : q.scheduled.Nodup → q'.scheduled.Nodup
  strict : ∀ a ∈ added, Strict p a.chain

def Queues (p : Program) (q q' : TaskQueue) : Prop := ∃ added, Appended p q added q'

section Queues

variable {p : Program} {q q' q'' : TaskQueue}

theorem Queues.refl (q : TaskQueue) : Queues p q q := ⟨[], by simp, by simp, id, by simp⟩

theorem Queues.trans (first : Queues p q q') (second : Queues p q' q'') : Queues p q q'' := by
  obtain ⟨added, first⟩ := first
  obtain ⟨more, second⟩ := second
  refine ⟨added ++ more, ?_, ?_, fun distinct => second.distinct (first.distinct distinct), fun a member => ?_⟩
  · rw [second.waiting, first.waiting, append_assoc]
  · simp [second.scheduled, first.scheduled]
  · rcases mem_append.1 member with old | new
    · exact first.strict a old
    · exact second.strict a new

theorem Queues.enqueue (strict : Strict p a.chain) (queued : q.enqueue? a = some q') : Queues p q q' := by
  obtain ⟨unused, rfl⟩ := TaskQueue.enqueue?_eq_some queued
  exact ⟨[a], rfl, rfl, fun distinct => nodup_cons.2 ⟨unused, distinct⟩, by simpa using strict⟩

end Queues

/-! ### Steps inside one activation -/

/-- Where a step inside the functions of a chain halts: it was not stopped for the number of tasks, and
the current activation is inside no function twice. -/
structure Checked (p : Program) (q : TaskQueue) (h : Halt) (m : Machine) : Prop where
  going : h ≠ .stopped .nextTask
  strict : Strict p m.act.chain
  grows : Queues p q m.tasks

/-- Two steps come out the same inside the functions of a chain, and the activation stays what it is. -/
def Tallies (p : Program) (chain : List String) {α : Type} (x y : Run α) : Prop :=
  ∀ m, m.act.chain = chain → y m = x m ∧
    Leads x m (fun _ m' => m'.act.chain = chain ∧ Queues p m.tasks m'.tasks) (Checked p m.tasks)

/-- Neither the activation nor the queue is another. -/
def Unmoved (m m' : Machine) : Prop := m'.act.chain = m.act.chain ∧ m'.tasks = m.tasks

def StaysPut {α : Type} (x : Run α) : Prop :=
  ∀ m, Leads x m (fun _ m' => Unmoved m m') fun h m' => h ≠ .stopped .nextTask ∧ Unmoved m m'

section Steps

variable {α β : Type} {p : Program} {chain : List String}

theorem Quiet.unmoved {m' : Machine} (quiet : Quiet m m') : Unmoved m m' :=
  ⟨by rw [Activation.chain, quiet.func, quiet.callers, Activation.chain], quiet.tasks⟩

theorem Quietly.staysPut {x : Run α} (quietly : Quietly x) : StaysPut x := fun m =>
  (quietly.leads m).weaken (fun _ _ led => led.1.unmoved) fun _ _ led => ⟨led.1 _, led.2.unmoved⟩

theorem staysPut_spend {point : Point} (other : point ≠ .nextTask) : StaysPut (spend point) := by
  intro m
  rw [leads_spend]
  exact ⟨fun _ => ⟨by simpa using other, rfl, rfl⟩, fun _ _ => ⟨rfl, rfl⟩⟩

theorem staysPut_changeRoutine (f : Routine → Except Protocol.Error (α × Routine)) :
    StaysPut (changeRoutine f) := by
  intro m
  rw [leads_changeRoutine]
  split
  · exact ⟨rfl, rfl⟩
  · exact ⟨nofun, rfl, rfl⟩

theorem within_apply (inner : Activation) (x : Run Unit) (m : Machine) :
    within inner x m =
      match x { m with act := inner } with
      | .ok _ m' => .ok m'.act { m' with act := m.act }
      | .error h m' => .error h m' := by
  show (x >>= fun _ => activation >>= fun a => (modifyActivation fun _ => m.act) >>= fun _ => pure a)
    { m with act := inner } = _
  rw [bind_apply]
  cases x { m with act := inner } <;> rfl

theorem Leads.after {x : Run α} {done : α → Machine → Prop} {halted : Halt → Machine → Prop}
    {P : Machine → Prop}
    (leads : Leads x m done halted) (ok : ∀ a m', done a m' → P m') (error : ∀ h m', halted h m' → P m') :
    P (Analysis.after (x m)) := by
  cases eq : x m with
  | ok a m' => exact ok a m' (leads.ok eq)
  | error h m' => exact error h m' (leads.error eq)

namespace Tallies

/-- What is known of the result of the first step may be used in the second. -/
theorem bindWith {x y : Run α} {f g : α → Run β} {result : α → Prop} (first : Tallies p chain x y)
    (known : ∀ m, m.act.chain = chain → Leads x m fun a _ => result a)
    (next : ∀ a, result a → Tallies p chain (f a) (g a)) : Tallies p chain (x >>= f) (y >>= g) := by
  intro m here
  obtain ⟨same, leads⟩ := first m here
  have both := leads.and (known m here)
  constructor
  · rw [bind_apply, bind_apply, same]
    cases eq : x m with
    | ok a m' => exact (next a (both.ok eq).2 m' (both.ok eq).1.1).1
    | error h m' => rfl
  · rw [leads_bind]
    refine both.weaken (fun a m' led => ?_) fun _ _ led => led.1
    obtain ⟨⟨here', grows⟩, known⟩ := led
    exact (next a known m' here').2.weaken (fun _ _ done => ⟨done.1, grows.trans done.2⟩)
      fun _ _ halted => { halted with grows := grows.trans halted.grows }

theorem bind {x y : Run α} {f g : α → Run β} (first : Tallies p chain x y)
    (next : ∀ a, Tallies p chain (f a) (g a)) : Tallies p chain (x >>= f) (y >>= g) :=
  first.bindWith (fun _ _ => leads_of (fun _ _ _ => trivial) fun _ _ _ => trivial) fun a _ => next a

theorem read {f g : Activation → Run β} (next : ∀ a, a.chain = chain → Tallies p chain (f a) (g a)) :
    Tallies p chain (activation >>= f) (activation >>= g) := by
  intro m here
  have after := next m.act here m here
  simp only [leads_bind, leads_activation]
  exact after

theorem located {x y : Run α} (tallies : Tallies p chain x y) (pos : Option Position) :
    Tallies p chain (located pos x) (located pos y) := by
  intro m here
  obtain ⟨same, leads⟩ := tallies m here
  refine ⟨by
    rw [located_apply, located_apply, same],
    leads_located.2 (leads.weaken (fun _ _ done => done) fun h m' halted => ?_)⟩
  refine { halted with going := ?_ }
  cases h with
  | stopped point => exact halted.going
  | failed e => exact nofun
  | endless ty => exact nofun

/-- A step inside another activation is followed by the rest of this one. -/
theorem within {x y : Run Unit} {inner : Activation} (tallies : Tallies p inner.chain x y) :
    Tallies p chain (within inner x) (Analysis.within inner y) := by
  intro m here
  obtain ⟨same, leads⟩ := tallies { m with act := inner } rfl
  constructor
  · rw [within_apply, within_apply, same]
  · rw [leads_within]
    exact leads.imp (fun _ _ done => ⟨here, done.2⟩)

variable (strict : Strict p chain)
include strict

theorem of_staysPut {x : Run α} (stays : StaysPut x) : Tallies p chain x x := by
  intro m here
  refine ⟨rfl, (stays m).weaken (fun _ m' same => ?_) fun h m' halted => ?_⟩
  · exact ⟨same.1.trans here, same.2 ▸ .refl _⟩
  · obtain ⟨going, same⟩ := halted
    exact ⟨going, same.1.trans here ▸ strict, same.2 ▸ .refl _⟩

theorem of_quietly {x : Run α} (quietly : Quietly x) : Tallies p chain x x := of_staysPut strict quietly.staysPut

theorem activation : Tallies p chain activation Analysis.activation := of_staysPut strict fun _ => ⟨rfl, rfl⟩

theorem emit (e : Event) : Tallies p chain (emit e) (Analysis.emit e) := of_staysPut strict fun _ => ⟨rfl, rfl⟩

theorem modifyActivation {f : Activation → Activation}
    (same : ∀ a, (f a).chain = a.chain := by exact fun _ => rfl) :
    Tallies p chain (modifyActivation f) (Analysis.modifyActivation f) :=
  of_staysPut strict fun m => ⟨same m.act, rfl⟩

theorem addStatement (s : Statement) : Tallies p chain (addStatement s) (Analysis.addStatement s) :=
  of_staysPut strict fun _ => ⟨rfl, rfl⟩

theorem spend (point : Point) (other : point ≠ .nextTask := by nofun) :
    Tallies p chain (spend point) (Analysis.spend point) := of_staysPut strict (staysPut_spend other)

theorem of_composed {reach : Reach} {x : Run α} (composed : Composed reach x) : Tallies p chain x x := by
  induction composed with
  | bind _ _ first next => exact .bind first next
  | modifyActivation skeleton =>
    refine .modifyActivation strict fun a => ?_
    have same := congrArg Activation.chain (skeleton a)
    exact same
  | failWith | endless => exact .of_staysPut strict fun _ => ⟨nofun, rfl, rfl⟩
  | changeLoop _ event =>
    refine .bind (.activation strict) fun a => .bind ?_ fun _ => .modifyActivation strict
    cases event a.loops.current <;> exact .of_staysPut strict fun _ => ⟨rfl, rfl⟩
  | _ => exact .of_staysPut strict fun _ => ⟨rfl, rfl⟩

end Tallies

theorem thorough_tallies (strict : Strict p chain) : Thorough fun x y => Tallies p chain x y where
  bind := .bind
  composed := .of_composed strict
  emit := .emit strict
  steer same := .modifyActivation strict fun a => by rw [Activation.chain, (same a).2.1, (same a).2.2, Activation.chain]
  addStatement := .addStatement strict
  modifyContext _ := .of_staysPut strict fun _ => ⟨rfl, rfl⟩
  modifyRoutine _ := .of_staysPut strict fun _ => ⟨rfl, rfl⟩
  changeRoutine f := .of_staysPut strict (staysPut_changeRoutine f)

end Steps

/-! ### Walks -/

/-- The walks of two walkers come out the same, along edges inside the functions of a chain, and in
what is called from there. -/
structure Tallied (p : Program) (chain : List String) (walk walk' : Walker) : Prop where
  along : ∀ src dst, Tallies p chain (walk (.along src dst)) (walk' (.along src dst))
  entry : ∀ name, Strict p (chain ++ [name]) → Tallies p (chain ++ [name]) (walk .entry) (walk' .entry)

section Walks

variable {p : Program} {chain : List String} {walk walk' : Walker} (strict : Strict p chain)
include strict

theorem tallies_followEdge (tallied : Tallied p chain walk walk') (src dst : Nat) :
    Tallies p chain (followEdge walk src dst) (followEdge walk' src dst) :=
  .bind (.spend strict _) fun _ => (thorough_tallies strict).arriveAt (tallied.along src dst)

omit strict in
/-- A function that is called is inside all that its caller is inside of, and its caller. -/
theorem leads_prepare_chain (types : TypeTable) (f : Function) (args : List Operand) (captures : List Instance)
    (receiver : Option Instance) (m : Machine) :
    Leads (prepare types f args captures receiver) m
      fun a _ => a.chain = m.act.chain ++ [f.name] ∧ a.func.name = f.name := by
  refine leads_of (fun a m' prepared => ?_) fun _ _ _ => trivial
  have func : a.func = f := congrArg (·.func) (readied prepared).start
  have callers : a.callers = m.act.chain := congrArg (·.callers) (readied prepared).start
  exact ⟨by rw [Activation.chain, callers, func], by rw [func]⟩

theorem tallies_calleeActivation {α : Type} {g g' : Activation → Run α} (types : TypeTable)
    (f : Function) (args : List Operand) (captures : List Instance) (receiver : Option Instance)
    (next : ∀ a, a.chain = chain ++ [f.name] → Tallies p chain (g a) (g' a)) :
    Tallies p chain (calleeActivation types f args captures receiver >>= g)
      (calleeActivation types f args captures receiver >>= g') := by
  simp only [calleeActivation_eq, bind_assoc, pure_bind]
  refine .bindWith (.of_quietly strict (.of_composed (composed_prepare types f args captures receiver)))
    (fun m here => here ▸ leads_prepare_chain types f args captures receiver m) fun a made => ?_
  exact .bind (.spend strict _) fun _ => next a made.1

theorem tallies_callTarget (tallied : Tallied p chain walk walk') (types : TypeTable) (args : List Operand)
    (result : Result) {t : Target} (known : t.Known p) :
    Tallies p chain (callTarget types walk args result t) (callTarget types walk' args result t) := by
  cases t with
  | external routine =>
    exact .bind (.emit strict _) fun _ => .of_quietly strict (quietly_bindForeignResult types routine result)
  | routine f captures receiver =>
    refine .read fun caller here => ?_
    split
    · exact .bind (.emit strict _) fun _ => .of_quietly strict (quietly_bindFreshResult result)
    · next fresh =>
      have inside := strict.append known (here ▸ mt reenters_iff.2 fresh)
      refine tallies_calleeActivation strict types f args captures receiver fun callee made => ?_
      refine .bind (.within ?_) fun callee' => .bind (.addStatement strict _) fun _ =>
        .of_quietly strict (quietly_takeResult types callee' result)
      rw [made]
      exact (thorough_tallies inside).walkFunction (tallied.entry f.name inside)

theorem tallies_call (tallied : Tallied p chain walk walk') (c : Call) (result : Result) :
    Tallies p chain (call p walk c result) (call p walk' c result) := by
  unfold call
  split
  · exact .of_quietly strict (quietly_callBuiltin _ _ _)
  · exact .bindWith (.of_quietly strict (quietly_target p _)) (fun m _ => leads_target p _ m)
      fun t known => tallies_callTarget strict tallied _ _ _ known

omit strict in
theorem tallies_enqueue (chained : Strict p a.chain) : Tallies p chain (enqueue a) (enqueue a) := by
  intro m here
  refine ⟨rfl, ?_⟩
  rw [enqueue, leads_bind, leads_tasks]
  split
  · next queue queued => exact ⟨here, .enqueue chained queued⟩
  · exact ⟨here, .refl _⟩

theorem tallies_spawn (c : Call) : Tallies p chain (spawn p c) (spawn p c) := by
  refine .bindWith (.of_quietly strict (quietly_target p _)) (fun m _ => leads_target p _ m) fun t known => ?_
  cases t with
  | external name => exact .bind (.activation strict) fun _ => .emit strict _
  | routine f captures receiver =>
    refine tallies_calleeActivation strict _ f c.args captures receiver fun spawned made =>
      .bind (.addStatement strict _) fun _ =>
      .read fun caller here => ?_
    split
    · exact .emit strict _
    · next fresh =>
      refine tallies_enqueue ?_
      rw [made]
      exact strict.append known (here ▸ mt reenters_iff.2 fresh)

variable (tallied : Tallied p chain walk walk') (o : Options)
include tallied

theorem tallies_enterBlock (arrival : Arrival) :
    Tallies p chain (enterBlock ⟨p, o⟩ walk arrival) (enterBlock ⟨p, o⟩ walk' arrival) := by
  have thorough := thorough_tallies strict
  have edge := tallies_followEdge strict tallied
  have woven : Woven (fun x y => Tallies p chain x y) p walk walk' :=
    ⟨edge, thorough.walkBothWays edge, thorough.walkCaseTest edge, tallies_call strict tallied,
      tallies_spawn strict⟩
  exact thorough.enterBlock fun i => .located (.bind (.emit strict _) fun _ => .bind (.spend strict _) fun _ =>
    thorough.interpret woven arrival i.action) i.pos

end Walks

/-- Interprets blocks like `walkBlock`, but only of activations that are inside no function twice, and
with no more than so many functions inside one another. -/
def walkNested (env : Env) : Nat → Nat → Walker
  | _, 0, arrival => stop (.block arrival)
  | calls, depth + 1, arrival => do
    let a ← activation
    if a.chain.Nodup then
      match arrival.pred, calls with
      | some _, calls => enterBlock env (walkNested env calls depth) arrival
      | none, calls + 1 => enterBlock env (walkNested env calls depth) arrival
      | none, 0 => stop (.block arrival)
    else stop (.block arrival)

section Nested

variable {p : Program} (o : Options)

theorem tallies_stop {α : Type} {chain : List String} (strict : Strict p chain) (arrival : Arrival) :
    Tallies p chain (stop (.block arrival) : Run α) (stop (.block arrival)) :=
  .of_staysPut strict fun _ => ⟨nofun, rfl, rfl⟩

/-- A walk that asks for different functions goes on where they are different. -/
theorem tallies_guarded {chain : List String} (strict : Strict p chain) {x y z : Run Unit}
    (tallies : Tallies p chain x y) :
    Tallies p chain x (do let a ← activation; if a.chain.Nodup then y else z) := by
  intro m here
  refine ⟨?_, (tallies m here).2⟩
  rw [← (tallies m here).1]
  show (if m.act.chain.Nodup then y else z) m = y m
  rw [if_pos (here ▸ strict.distinct)]

/-- Inside a chain there is room for as many calls as there are functions that are not in it. -/
theorem tallied_walkNested (depth : Nat) : ∀ {chain : List String} {calls : Nat}, Strict p chain →
    p.bodies ≤ calls + chain.length → Tallied p chain (walkBlock ⟨p, o⟩ depth)
      (walkNested ⟨p, o⟩ calls depth) := by
  induction depth with
  | zero =>
    intro chain calls strict room
    exact ⟨fun _ _ => tallies_stop strict _, fun _ inside => tallies_stop inside _⟩
  | succ depth ih =>
    intro chain calls strict room
    refine ⟨fun src dst => tallies_guarded strict (tallies_enterBlock strict (ih strict room) o _),
      fun name inside => ?_⟩
    -- The new function is one that was not in the chain, so a call is left for it.
    have full := inside.length_le
    rw [length_append, length_singleton] at full
    cases calls with
    | zero => omega
    | succ calls =>
      refine tallies_guarded inside (tallies_enterBlock inside (ih inside ?_) o .entry)
      rw [length_append, length_singleton]
      omega

end Nested

/-! ### Whole runs -/

/-- The queue after so many functions were handed out. -/
structure Served (p : Program) (handed : List String) (q : TaskQueue) : Prop where
  order : q.scheduled.reverse = handed ++ q.waiting.map (·.func.name)
  once : Strict p q.scheduled
  strict : ∀ a ∈ q.waiting, Strict p a.chain

section Served

variable {p : Program} {handed : List String} {q q' : TaskQueue}

theorem Served.grows (served : Served p handed q) (grows : Queues p q q') : Served p handed q' := by
  obtain ⟨added, grown⟩ := grows
  refine ⟨?_, ⟨grown.distinct served.once.distinct, fun name member => ?_⟩, fun a member => ?_⟩
  · simp [grown.scheduled, grown.waiting, served.order]
  · rw [grown.scheduled] at member
    rcases mem_append.1 member with new | old
    · obtain ⟨a, inside, rfl⟩ := mem_map.1 (mem_reverse.1 new)
      exact (grown.strict a inside).known _ (by simp [Activation.chain])
    · exact served.once.known name old
  · rw [grown.waiting] at member
    rcases mem_append.1 member with old | new
    · exact served.strict a old
    · exact grown.strict a new

theorem Served.next {rest : List Activation} (served : Served p handed q) (waits : q.waiting = a :: rest) :
    Served p (handed ++ [a.func.name]) { q with waiting := rest } := by
  refine ⟨?_, served.once, fun b member => served.strict b (by simp [waits, member])⟩
  simp [served.order, waits]

/-- No more functions are handed out than have a body, and none twice. -/
theorem Served.bounded (served : Served p handed q) : handed.Nodup ∧ handed.length ≤ p.bodies := by
  have order := served.order
  have distinct := nodup_reverse.2 served.once.distinct
  have short := served.once.length_le
  rw [← length_reverse, order, length_append] at short
  rw [order] at distinct
  exact ⟨(nodup_append.1 distinct).1, by omega⟩

end Served

/-- The tasks that draining the queue hands out, the first one first. -/
def handedOut (walk : Walker) : Nat → Machine → List Activation
  | 0, _ => []
  | count + 1, m =>
    match m.tasks.next? with
    | none => []
    | some (a, rest) =>
      a :: match within a (walkFunction walk) { m with tasks := rest } with
        | .ok _ m' => handedOut walk count m'
        | .error .. => []

/-- What is interpreted before any task. -/
def runEntry (env : Env) (walk : Walker) : Run Unit := initialise env walk >>= fun _ => walkFunction walk

/-- What is made of the protocol that was found. -/
def present (env : Env) : Run Protocol := do
  let found := (← context).protocol
  if env.options.cleanUp then
    let cleaned := found.cleanUp env.options.entry
    emit (.silentRemoved (found.routines.length - cleaned.routines.length))
    return cleaned
  else return found

theorem analyseWith_eq (env : Env) (walk : Walker) :
    analyseWith env walk =
      runEntry env walk >>= fun _ => drain walk (env.program.functions.length + 1) >>= fun _ => present env := by
  rw [runEntry, bind_assoc]
  rfl

/-- The tasks that an analysis hands out, the first one first. -/
def tasksOf (env : Env) (m : Machine) : List Activation :=
  match runEntry env (walkBlock env (m.budget + 1)) m with
  | .ok _ m' => handedOut (walkBlock env (m.budget + 1)) (env.program.functions.length + 1) m'
  | .error .. => []

section Runs

variable {p : Program} {o : Options} {walk walk' : Walker}

theorem Strict.left {names more : List String} (strict : Strict p (names ++ more)) : Strict p names :=
  ⟨(nodup_append.1 strict.distinct).1, fun name member => strict.known name (mem_append_left _ member)⟩

/-- Walks from the entry of any function come out the same. -/
def Even (p : Program) (walk walk' : Walker) : Prop :=
  ∀ a : Activation, Strict p a.chain → Tallies p a.chain (walk .entry) (walk' .entry)

theorem even_walkNested (p : Program) (o : Options) (depth : Nat) :
    Even p (walkBlock ⟨p, o⟩ depth) (walkNested ⟨p, o⟩ p.bodies depth) := fun a strict =>
  (tallied_walkNested o depth strict.left (Nat.le_add_right _ _)).entry a.func.name strict

/-- Where draining the queue leads to. -/
structure Drained (p : Program) (handed : List String) (m : Machine) : Prop where
  served : Served p handed m.tasks
  strict : Strict p m.act.chain

theorem drain_next {count : Nat} {rest : List Activation} (waits : m.tasks.waiting = a :: rest) :
    drain walk (count + 1) m =
      (within a (walkFunction walk) >>= fun _ => drain walk count)
    { m with tasks := { m.tasks with waiting := rest } } := by
  have next : m.tasks.next? = some (a, { m.tasks with waiting := rest }) := by simp [TaskQueue.next?, waits]
  rw [drain, bind_apply]
  show (match m.tasks.next? with
    | none => (pure () : Run Unit)
    | some (a, rest) => setTasks rest >>= fun _ => within a (walkFunction walk) >>= fun _ => drain walk count) m = _
  rw [next]
  rfl

theorem drain_none {count : Nat} (waits : m.tasks.waiting = []) : drain walk (count + 1) m = .ok () m := by
  have next : m.tasks.next? = none := by simp [TaskQueue.next?, waits]
  rw [drain, bind_apply]
  show (match m.tasks.next? with
    | none => (pure () : Run Unit)
    | some (a, rest) => setTasks rest >>= fun _ => within a (walkFunction walk) >>= fun _ => drain walk count) m = _
  rw [next]
  rfl

/-- Draining hands out what waits, in order, and there is nothing more to hand out before it has to stop. -/
theorem drain_even (even : Even p walk walk') (count : Nat) {handed : List String}
    (served : Served p handed m.tasks) (strict : Strict p m.act.chain) (enough : p.bodies < count + handed.length) :
    drain walk' count m = drain walk count m ∧
    Leads (drain walk count) m
      (fun _ m' => Drained p (handed ++ (handedOut walk count m).map (·.func.name)) m' ∧ m'.tasks.waiting = [])
      fun h m' => Drained p (handed ++ (handedOut walk count m).map (·.func.name)) m' ∧
        h ≠ .stopped .nextTask := by
  induction count generalizing m handed with
  | zero =>
    have short := served.bounded.2
    omega
  | succ count ih =>
    cases waits : m.tasks.waiting with
    | nil =>
      have drained : handedOut walk (count + 1) m = [] := by simp [handedOut, TaskQueue.next?, waits]
      unfold Leads
      rw [drain_none waits, drain_none waits, drained]
      exact ⟨rfl, ⟨by simpa using served, strict⟩, waits⟩
    | cons a rest =>
      have inside : Strict p a.chain := served.strict a (by simp [waits])
      have handed' := served.next waits
      obtain ⟨same, leads⟩ := Tallies.within ((thorough_tallies inside).walkFunction (even a inside))
        { m with tasks := { m.tasks with waiting := rest } } rfl
      have first : handedOut walk (count + 1) m =
          a :: match within a (walkFunction walk) { m with tasks := { m.tasks with waiting := rest } } with
            | .ok _ m' => handedOut walk count m'
            | .error .. => [] := by
        simp [handedOut, TaskQueue.next?, waits]
      unfold Leads at leads ⊢
      rw [drain_next waits, drain_next waits, bind_apply, bind_apply, same, first]
      cases ended : within a (walkFunction walk) { m with tasks := { m.tasks with waiting := rest } } with
      | error h m' =>
        rw [ended] at leads
        exact ⟨rfl, ⟨by simpa using handed'.grows leads.grows, leads.strict⟩, leads.going⟩
      | ok inner m' =>
        rw [ended] at leads
        have later := ih (handed'.grows leads.2) (leads.1 ▸ strict) (by simp; omega)
        simpa [Leads] using later

theorem tallies_runEntry (even : Even p walk walk') (strict : Strict p a.chain) :
    Tallies p a.chain (runEntry ⟨p, o⟩ walk) (runEntry ⟨p, o⟩ walk') := by
  refine .bind ?_ fun _ => (thorough_tallies strict).walkFunction (even a strict)
  unfold initialise
  split
  · exact .of_quietly strict (.pure ())
  · next init found =>
    obtain ⟨found, body⟩ := Option.filter_eq_some_iff.1 found
    have known : Interpretable p init := ⟨(Program.function?_name found).symm ▸ found, body⟩
    refine .bind (.emit strict _) fun _ => .bind (.of_quietly strict (quietly_numberActivation _)) fun seq =>
      .bind (.activation strict) fun a' => .bind (.within (even _ ?_)) fun _ => .modifyActivation strict
    exact Strict.one known

/-- An analysis comes out the same for even walkers. It hands out what was queued, in order, and does
not stop before all of it is. -/
theorem analyse_even (even : Even p (walkBlock ⟨p, o⟩ (m.budget + 1)) walk') (strict : Strict p m.act.chain)
    (empty : m.tasks = {}) :
    analyseWith ⟨p, o⟩ walk' m = analyse ⟨p, o⟩ m ∧
    Leads (analyse ⟨p, o⟩) m
      (fun _ m' => Drained p ((tasksOf ⟨p, o⟩ m).map (·.func.name)) m' ∧ m'.tasks.waiting = [])
      fun h m' => Drained p ((tasksOf ⟨p, o⟩ m).map (·.func.name)) m' ∧ h ≠ .stopped .nextTask := by
  have unserved : Served p [] m.tasks := by
    rw [empty]
    exact ⟨rfl, ⟨nodup_nil, by simp⟩, by simp⟩
  have presents (m' : Machine) : Leads (present ⟨p, o⟩) m' (fun _ m'' => m''.act = m'.act ∧ m''.tasks = m'.tasks)
      fun _ _ => False := by
    rw [present, leads_bind, leads_context]
    dsimp only
    split <;> exact ⟨rfl, rfl⟩
  have fits : p.bodies < p.functions.length + 1 := Nat.lt_succ_of_le (length_filter_le _ _)
  have tallies : Tallies p m.act.chain (runEntry ⟨p, o⟩ (walkBlock ⟨p, o⟩ (m.budget + 1)))
    (runEntry ⟨p, o⟩ walk') :=
    tallies_runEntry even strict
  obtain ⟨same, leads⟩ := tallies m rfl
  unfold Leads at leads ⊢
  rw [analyse_eq ⟨p, o⟩ m (Nat.lt_succ_self _), analyseWith_eq, analyseWith_eq, bind_apply, bind_apply,
    same, tasksOf]
  cases ran : runEntry ⟨p, o⟩ (walkBlock ⟨p, o⟩ (m.budget + 1)) m with
  | error h m' =>
    rw [ran] at leads
    exact ⟨rfl, ⟨unserved.grows leads.grows, leads.strict⟩, leads.going⟩
  | ok _ m₁ =>
    rw [ran] at leads
    obtain ⟨same', drains⟩ := drain_even even (p.functions.length + 1) (unserved.grows leads.2)
      (leads.1 ▸ strict) fits
    unfold Leads at drains
    dsimp only
    rw [bind_apply, bind_apply, same']
    cases drained : drain (walkBlock ⟨p, o⟩ (m.budget + 1)) (p.functions.length + 1) m₁ with
    | error h m' =>
      rw [drained] at drains
      exact ⟨rfl, drains⟩
    | ok _ m₂ =>
      rw [drained] at drains
      refine ⟨rfl, ?_⟩
      have presented := presents m₂
      unfold Leads at presented
      dsimp only
      cases shown : present ⟨p, o⟩ m₂ with
      | error h m' =>
        rw [shown] at presented
        exact presented.elim
      | ok protocol m₃ =>
        rw [shown] at presented
        obtain ⟨act, tasks⟩ := presented
        dsimp only
        rw [tasks]
        exact ⟨⟨tasks ▸ drains.1.served, act ▸ drains.1.strict⟩, drains.2⟩

end Runs

/-! ### The order of the queue -/

section Order

variable {env : Env} {property : Property} {c c' : Config}

/-- What was queued once stays noted, and what is queued later is noted in front of it. -/
theorem Upshot.scheduled (upshot : Upshot env property c c') :
    c.machine.tasks.scheduled <:+ c'.machine.tasks.scheduled := by
  cases upshot with
  | simple pays reached simple idle crew ends => exact scheduled_of_eq (staying_simple simple ends).1.tasks
  | other _ _ _ scheduled => exact scheduled

/-- What was noted in a state that was come through is noted still. -/
def Config.Noted (property : Property) (c : Config) : Prop :=
  ∀ n point m, property n point m → c.machine.budget < n → m.tasks.scheduled <:+ c.machine.tasks.scheduled

theorem Config.Noted.step (unique : Unique property) (noted : c.Noted property)
    (upshot : Upshot env property c c') :
    c'.Noted property := by
  intro n point m reached past
  refine List.IsSuffix.trans ?_ upshot.scheduled
  rcases upshot.past unique reached past with before | now
  · exact noted n point m reached before
  · rw [now.tasks]

variable {p : Program} {o : Options} {entry : Function} {n budget : Nat} {point : Point} {m : Machine}

/-- What was queued in a state that the run comes through is queued where it ends, or is stopped later. -/
theorem scheduled_of_stops
    (stops : analyse ⟨p, o⟩ (Machine.start p entry n) = .error (.stopped point) m) (before : n < budget) :
    Leads (analyse ⟨p, o⟩) (Machine.start p entry budget) (fun _ last => m.tasks.scheduled <:+ last.tasks.scheduled)
      fun h last => ∀ point', h = .stopped point' → isPaid point' →
        m.tasks.scheduled <:+ last.tasks.scheduled := by
  have unique : Unique (History p o entry budget) := unique_history p o entry budget
  have kept : Invariant ⟨p, o⟩ (History p o entry budget) fun c => c.Noted (History p o entry budget) :=
    fun noted move => noted.step unique move.upshot
  have start : Config.Noted (History p o entry budget) ⟨Machine.start p entry budget, none, []⟩ :=
    fun left point m reached past => absurd past (Nat.not_lt_of_le reached.1)
  have past : History p o entry budget (budget - n) point m := .of_stops before.le stops
  refine leads_of (fun protocol last ends => ?_) fun h last halts point' eq paid => ?_
  · obtain ⟨m', noted, quiet, same⟩ := (kept.leads start).ok ends
    have left := stops_before ends stops
    rw [quiet.tasks]
    exact noted _ _ _ past (show m'.budget < budget - n by omega)
  · obtain ⟨spent, d, s, noted⟩ := (kept.leads start).error halts point' eq
    exact noted _ _ _ past (show last.budget < budget - n by rw [spent paid]; omega)

end Order

/-- Calls and spawns are bounded in every run, whatever it comes to within its budget. The current
activation is inside no function twice; a walk that checks this at every block, and refuses to nest
more calls than there are functions with a body, comes out the same. Tasks are handed out once for each
function and in the order in which the functions were first queued. -/
theorem calls_and_spawns_bounded {p : Program} {o : Options} {entry : Function}
    (found : (p.function? o.entry).filter (·.hasBody) = some entry) (budget : Nat) :
    let start := Machine.start p entry budget
    let last := after (analyse ⟨p, o⟩ start)
    let tasks := (tasksOf ⟨p, o⟩ start).map (·.func.name)
    last.act.chain.Nodup ∧ last.act.chain.length ≤ p.bodies ∧
    analyseWith ⟨p, o⟩ (walkNested ⟨p, o⟩ p.bodies (budget + 1)) start = analyse ⟨p, o⟩ start ∧
    tasks.Nodup ∧ tasks.length ≤ p.bodies ∧
    tasks ++ last.tasks.waiting.map (·.func.name) = last.tasks.scheduled.reverse ∧
    (isOk (analyse ⟨p, o⟩ start) → last.tasks.waiting = []) ∧
    (∀ m, analyse ⟨p, o⟩ start ≠ .error (.stopped .nextTask) m) ∧
    ∀ n point m, StopsAt p o n point m → n < budget →
      isOk (analyse ⟨p, o⟩ start) ∨ (∃ point', isPaid point' ∧ StopsAt p o budget point' last) →
      m.tasks.scheduled <:+ last.tasks.scheduled := by
  intro start last tasks
  obtain ⟨known, body⟩ := Option.filter_eq_some_iff.1 found
  have strict : Strict p start.act.chain := Strict.one ⟨(Program.function?_name known).symm ▸ known, body⟩
  obtain ⟨same, leads⟩ := analyse_even (m := start) (even_walkNested p o (budget + 1)) strict rfl
  have drained : Drained p tasks last := leads.after (fun _ _ done => done.1) fun _ _ halted => halted.1
  obtain ⟨once, few⟩ := drained.served.bounded
  refine ⟨drained.strict.distinct, drained.strict.length_le, same, once, few,
    drained.served.order.symm, fun ends => ?_,
    fun m halts => (leads.error halts).2 rfl, fun n point m earlier before later => ?_⟩
  · obtain ⟨protocol, ends⟩ := ends_of_isOk ends
    exact (leads.ok ends).2
  · obtain ⟨entry', found', stops⟩ := earlier
    obtain rfl := Option.mem_unique found found'
    rcases later with ends | ⟨point', paid, entry', found', stops'⟩
    · obtain ⟨protocol, ends⟩ := ends_of_isOk ends
      exact (scheduled_of_stops stops before).ok ends
    · obtain rfl := Option.mem_unique found found'
      exact (scheduled_of_stops stops before).error stops' point' rfl paid

/-! ### Functions that call one another in a circle -/

/-- A function of one block. -/
def acting (name : String) (effects : List Effect) : Function where
  name := name
  params := []
  freeVars := []
  results := none
  blocks := [
    { index := 0, tag := none, preds := [], succs := [], instrs := effects.map fun effect => (.perform effect) }]

/-- Spawns one function twice, and calls a function that calls it back. -/
def circlingMain : Function := acting "main.main" [
  .go ⟨.static "main.g", []⟩, .go ⟨.static "main.h", []⟩, .go ⟨.static "main.g", []⟩,
    .call ⟨.static "main.f", []⟩, .ret []]

def circling : Program where
  functions := [
    circlingMain,
    acting "main.f" [.call ⟨.static "main.main", []⟩, .go ⟨.static "main.h", []⟩, .ret []],
    acting "main.g" [.call ⟨.static "main.f", []⟩, .ret []],
    acting "main.h" [.ret []]]

/-- Where a budget leads to. -/
def circlingAt (n : Nat) : Machine := after (analyse ⟨circling, {}⟩ (Machine.start circling circlingMain n))

def circlingTasks (n : Nat) : List String :=
  (tasksOf ⟨circling, {}⟩ (Machine.start circling circlingMain n)).map (·.func.name)

theorem circling_found : (circling.function? "main.main").filter (·.hasBody) = some circlingMain := rfl

theorem circling_stops {n : Nat} {point : Point} (here : (stop? circling {} n).map (·.1) = some point) :
    StopsAt circling {} n point (circlingAt n) := by
  obtain ⟨⟨point, m⟩, stops, rfl⟩ := Option.map_eq_some_iff.1 here
  obtain ⟨entry, found, stops⟩ := stop?_eq_some.1 stops
  obtain rfl := Option.mem_unique circling_found found
  refine ⟨_, circling_found, ?_⟩
  rw [circlingAt, stops]
  rfl

/-- The spawned function calls the one that spawned it by way of another, three deep, while the other
spawned function waits. -/
theorem circling_bounded :
    (circlingAt 17).act.chain = ["main.main", "main.g", "main.f"] ∧ circling.bodies = 4 ∧
    circlingTasks 17 = ["main.g"] ∧
    circlingTasks 17 ++ (circlingAt 17).tasks.waiting.map (·.func.name) = (circlingAt 17).tasks.scheduled.reverse ∧
    circlingTasks 30 = ["main.g", "main.h"] ∧ (circlingAt 30).tasks.waiting = [] ∧
    (circlingAt 3).tasks.scheduled = ["main.g"] ∧ (circlingAt 3).tasks.scheduled <:+
    (circlingAt 17).tasks.scheduled ∧
    (circlingAt 3).tasks.scheduled <:+ (circlingAt 30).tasks.scheduled := by
  have ends : isOk (analyse ⟨circling, {}⟩ (Machine.start circling circlingMain 30)) := by decide +kernel
  have early : StopsAt circling {} 3 (.handOver "main.h" []) (circlingAt 3) := circling_stops (by decide +kernel)
  have late : StopsAt circling {} 17 (.handOver "main.h" []) (circlingAt 17) := circling_stops (by decide +kernel)
  obtain ⟨-, -, -, -, -, served, -, -, while17⟩ := calls_and_spawns_bounded (o := {}) circling_found 17
  obtain ⟨-, -, -, -, -, -, drained, -, while30⟩ := calls_and_spawns_bounded (o := {}) circling_found 30
  unfold circlingAt at early late ⊢
  unfold circlingTasks
  refine ⟨by
    decide +kernel, by
    decide +kernel, by decide +kernel, served, by decide +kernel, drained ends, by decide +kernel, ?_, ?_⟩
  · exact while17 _ _ _ early (by decide) (.inr ⟨.handOver "main.h" [], rfl, late⟩)
  · exact while30 _ _ _ early (by decide) (.inl ends)

end Analysis

end ChanFlow
