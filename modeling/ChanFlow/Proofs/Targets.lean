import ChanFlow.Proofs.Conduct

/-!
What the calls and spawns of a protocol name.

A routine stands in the protocol from the moment its interpretation begins, so a call that is written when it is
done names a routine of the protocol. A spawn is different: its function is interpreted later. A spawn is passed
over if the function was put into the queue before, or if the function is being interpreted; then it waits for its
turn, is in the protocol already, or is the initialiser, which has no routine of its own.
-/
open List

namespace ChanFlow.Protocol

variable {name : String}

/-- The routines called in a statement are of one kind, those spawned of another. -/
structure Directed (called spawned : String → Prop) (s : Statement) : Prop where
  call : ∀ name args, Part (.call name args) s → called name
  spawn : ∀ name args, Part (.spawn name args) s → spawned name

section Directed

variable {called spawned called' spawned' : String → Prop} {s : Statement}

theorem Directed.imp (directed : Directed called spawned s) (calls : ∀ name, called name → called' name)
    (spawns : ∀ name, spawned name → spawned' name) : Directed called' spawned' s :=
  ⟨fun name args part => calls name (directed.call name args part),
    fun name args part => spawns name (directed.spawn name args part)⟩

theorem directed_of_callees (silent : s.callees = []) : Directed called spawned s := by
  have refuted {name : String} {args : List String} (invokes : Invokes s name args) : False := by
    simpa [silent] using invokes.mem_callees
  exact ⟨fun _ _ part => (refuted part.invokes_call).elim, fun _ _ part => (refuted part.invokes_spawn).elim⟩

theorem directed_call (good : called name) (args : List String) : Directed called spawned (.call name args) := by
  constructor
  · intro name' args' part
    cases part
    exact good
  · intro name' args' part
    cases part

theorem directed_spawn (good : spawned name) (args : List String) : Directed called spawned (.spawn name args) := by
  constructor
  · intro name' args' part
    cases part
  · intro name' args' part
    cases part
    exact good

theorem byParts_directed : ByParts (Directed called spawned) where
  tau := directed_of_callees (by simp [Statement.callees])
  branch onTrue onFalse := by
    constructor
    · intro name args part
      cases part with
      | onTrue inside part => exact (onTrue _ inside).call name args part
      | onFalse inside part => exact (onFalse _ inside).call name args part
    · intro name args part
      cases part with
      | onTrue inside part => exact (onTrue _ inside).spawn name args part
      | onFalse inside part => exact (onFalse _ inside).spawn name args part
  select := by
    refine ⟨fun directed body one s inside => ⟨?_, ?_⟩, fun all => ⟨?_, ?_⟩⟩
    · exact fun name args part => directed.call name args (.case one inside part)
    · exact fun name args part => directed.spawn name args (.case one inside part)
    · intro name args part
      cases part with
      | case one inside part => exact (all _ one _ inside).call name args part
    · intro name args part
      cases part with
      | case one inside part => exact (all _ one _ inside).spawn name args part

end Directed

end ChanFlow.Protocol

namespace ChanFlow.Analysis

open Ssa Protocol

variable {s : Statement} {a : Activation} {f : Function}

/-- A routine that may be spawned: it is in the protocol, in the queue, or the initialiser. -/
def Due (init : String) (m : Machine) (name : String) : Prop :=
  m.context.protocol.Defines name ∨ name ∈ m.tasks.scheduled ∨ name = init

/-- A statement that names nothing but routines that are known of. -/
def Grounded (init : String) (m : Machine) : Statement → Prop :=
  Directed m.context.protocol.Defines (Due init m)

/-- The protocol and the queue name nothing but routines that are known of. -/
structure Founded (init : String) (m : Machine) : Prop where
  names : (m.context.protocol.routines.map (·.name)).Nodup
  params : ∀ r ∈ m.context.protocol.routines, Routine.Distinct r.params
  stmts : ∀ r ∈ m.context.protocol.routines, ∀ s ∈ r.stmts, Grounded init m s
  callers : ∀ a ∈ m.tasks.waiting, ∀ name ∈ a.callers, m.context.protocol.Defines name ∨ name = init
  scheduled : ∀ name ∈ m.tasks.scheduled,
    m.context.protocol.Defines name ∨ ∃ a ∈ m.tasks.waiting, a.func.name = name

/-- The same of the routine under construction. -/
structure Building (init : String) (m : Machine) : Prop extends Founded init m where
  routine : m.act.routine.All (Grounded init m)
  distinct : Routine.Distinct m.act.routine.params

/-- The same of the current activation, and of those it was called from. -/
structure Rooted (init : String) (m : Machine) : Prop extends Building init m where
  labels : ∀ key label, m.act.labels.get? key = some label → m.context.protocol.Defines label
  entered : ∀ name ∈ m.act.callers ++ [m.act.func.name], m.context.protocol.Defines name ∨ name = init

/-- Nothing that is known of is forgotten. -/
structure Grows (m m' : Machine) : Prop where
  defines : ∀ name, m.context.protocol.Defines name → m'.context.protocol.Defines name
  scheduled : ∀ name ∈ m.tasks.scheduled, name ∈ m'.tasks.scheduled

section Grows

variable {init : String} {m m' m'' : Machine}

theorem Grows.refl (m : Machine) : Grows m m := ⟨fun _ => id, fun _ => id⟩

theorem Grows.trans (one : Grows m m') (two : Grows m' m'') : Grows m m'' :=
  ⟨fun name defined => two.defines name (one.defines name defined),
    fun name queued => two.scheduled name (one.scheduled name queued)⟩

theorem Grows.of_eq (protocol : m'.context.protocol = m.context.protocol) (tasks : m'.tasks = m.tasks) : Grows m m' :=
  ⟨fun _ => protocol ▸ id, fun _ => tasks ▸ id⟩

theorem Grows.grounded (grows : Grows m m') (grounded : Grounded init m s) : Grounded init m' s :=
  grounded.imp grows.defines fun name due =>
    due.imp (grows.defines name) (Or.imp_left (grows.scheduled name))

theorem Grows.entered (grows : Grows m m') {names : List String}
    (entered : ∀ name ∈ names, m.context.protocol.Defines name ∨ name = init) :
    ∀ name ∈ names, m'.context.protocol.Defines name ∨ name = init :=
  fun name member => (entered name member).imp_left (grows.defines name)

theorem Founded.of_eq (founded : Founded init m) (protocol : m'.context.protocol = m.context.protocol)
    (tasks : m'.tasks = m.tasks) : Founded init m' := by
  have grows : Grows m m' := .of_eq protocol tasks
  obtain ⟨names, params, stmts, callers, scheduled⟩ := founded
  have stmts : ∀ r ∈ m.context.protocol.routines, ∀ s ∈ r.stmts, Grounded init m' s :=
    fun r member s inside => grows.grounded (stmts r member s inside)
  rw [← protocol] at names params stmts callers scheduled
  rw [← tasks] at callers scheduled
  exact ⟨names, params, stmts, callers, scheduled⟩

/-- A routine begins. -/
theorem Founded.openRoutine (founded : Founded init m) {r : Routine}
    (distinct : Routine.Distinct r.params) (e : Event) :
    Founded init (m.openRoutine r e) ∧ Grows m (m.openRoutine r e) ∧
      (m.openRoutine r e).context.protocol.Defines r.name := by
  have grows : Grows m (m.openRoutine r e) := ⟨fun _ defined => defines_add.2 (.inr defined), fun _ => id⟩
  refine ⟨⟨names_add founded.names, fun q member => ?_, fun q member => ?_, fun a waits => ?_,
    fun name queued => ?_⟩, grows, defines_add.2 (.inl rfl)⟩
  · rcases mem_add member with rfl | old
    · exact distinct
    · exact founded.params q old
  · rcases mem_add member with rfl | old
    · exact nofun
    · exact fun s inside => grows.grounded (founded.stmts q old s inside)
  · exact grows.entered (founded.callers a waits)
  · exact (founded.scheduled name queued).imp_left (grows.defines name)

/-- The current routine is finished. -/
theorem Building.closeRoutine (building : Building init m) :
    Founded init m.closeRoutine ∧ Grows m m.closeRoutine ∧
      m.closeRoutine.context.protocol.Defines m.act.routine.name := by
  have grows : Grows m m.closeRoutine := ⟨fun _ defined => defines_replace.2 (.inr defined), fun _ => id⟩
  refine ⟨⟨names_put building.names, fun q member => ?_, fun q member s inside => ?_, fun a waits => ?_,
    fun name queued => ?_⟩, grows, defines_replace.2 (.inl rfl)⟩
  · rcases mem_put member with rfl | old
    · exact building.distinct
    · exact building.params q old
  · rcases mem_put member with rfl | old
    · exact grows.grounded (building.routine.stmts s inside)
    · exact grows.grounded (building.stmts q old s inside)
  · exact grows.entered (building.callers a waits)
  · exact (building.scheduled name queued).imp_left (grows.defines name)

end Grows

/-! ### Every step -/

/-- Nothing is named but routines that are known of. -/
def naming (o : Options) : Conduct where
  holds := Rooted o.init
  keeps := Grows
  stopped _ _ := True
  ready m := Building o.init m ∧ m.act.labels = {} ∧ m.act.callers = [] ∧ m.act.func.name = o.entry ∧
    m.act.routine.name = o.entry
  idle m := Founded o.init m ∧ m.context.protocol.Defines o.entry

section Steps

variable {o : Options} {m m' : Machine}

theorem Rooted.quiet (rooted : Rooted o.init m) (quiet : Quiet m m') : (naming o).Moves m m' := by
  have grows : Grows m m' := .of_eq quiet.protocol quiet.tasks
  obtain ⟨added, elementary, stmts⟩ := quiet.stmts
  have routine : m'.act.routine.All (Grounded o.init m) := by
    constructor
    · rw [stmts]
      exact all_appends rooted.routine.stmts fun s inside => directed_of_callees (elementary s inside).silent
    · rw [quiet.waiting]
      exact rooted.routine.waiting
  have building : Building o.init m' :=
    { rooted.toFounded.of_eq quiet.protocol quiet.tasks with
      routine := routine.imp fun _ => grows.grounded
      distinct := quiet.params ▸ rooted.distinct }
  refine ⟨⟨building, ?_, ?_⟩, grows⟩
  · rw [quiet.labels, quiet.protocol]
    exact rooted.labels
  · rw [quiet.callers, quiet.func]
    exact grows.entered rooted.entered

theorem Rooted.addStatement (rooted : Rooted o.init m) (grounded : Grounded o.init m s) (n : Nat) :
    (naming o).Moves m ((m.withBudget n).addStatement s) :=
  ⟨{ rooted with routine := rooted.routine.addStatement grounded }, { Grows.refl m with }⟩

/-- A routine is begun for a merge point, and the routine that calls it goes on when it is done. -/
theorem Rooted.merge (rooted : Rooted o.init m) (dst n : Nat) :
    Rooted o.init ((m.withBudget n).openMerge dst) ∧
      ∀ m₁, Rooted o.init m₁ → Grows ((m.withBudget n).openMerge dst) m₁ →
        (naming o).Moves m ((m.withBudget n).closeMerge m₁ dst) := by
  have empty : Routine.Distinct [] := nodup_nil
  have distinct : Routine.Distinct
      (Routine.addParams { name := m.act.mergeLabel dst } m.act.routine.continuationParams).params :=
    empty.foldl (f := id) _
  have labelled : Founded o.init ((m.withBudget n).addLabel dst) := { rooted.toFounded with }
  obtain ⟨founded, grows, defined⟩ :=
    labelled.openRoutine distinct (.mergePointStarted (m.act.mergeLabel dst))
  refine ⟨⟨⟨founded, ⟨nofun, nofun⟩, distinct⟩, fun key label known => ?_,
    grows.entered rooted.entered⟩, ?_⟩
  · have known : (m.act.labels.insert (m.act.key dst) (m.act.mergeLabel dst)).get? key = some label := known
    rw [Table.get?_insert] at known
    split at known
    · obtain rfl := Option.some.inj known
      exact defined
    · exact grows.defines label (rooted.labels key label known)
  · -- The call is written only now, but its routine has been in the protocol since it was opened.
    intro m₁ rooted₁ grows₁
    obtain ⟨founded₂, grows₂, -⟩ := rooted₁.closeRoutine
    have all : Grows m m₁.closeRoutine := { (grows.trans grows₁).trans grows₂ with }
    have routine : ((m.withBudget n).addLabel dst).act.routine.All (Grounded o.init m₁.closeRoutine) :=
      (rooted.routine.imp fun _ => all.grounded).addStatement
        (directed_call (grows₂.defines _ (grows₁.defines _ defined)) _)
    have building : Building o.init ((m.withBudget n).closeMerge m₁ dst) :=
      { founded₂ with routine := routine, distinct := rooted.distinct }
    exact ⟨⟨building, fun key label known => grows₂.defines _ (rooted₁.labels key label known),
      grows₂.entered rooted₁.entered⟩, { all with }⟩

/-- An activation begins that has not done anything yet. -/
theorem Founded.openFunction (founded : Founded o.init m) (building : a.routine.All (Grounded o.init m))
    (distinct : Routine.Distinct a.routine.params) (labels : a.labels = {}) (name : a.routine.name = a.func.name)
    (callers : ∀ name ∈ a.callers, m.context.protocol.Defines name ∨ name = o.init) :
    Rooted o.init (m.openFunction a) ∧ Grows m (m.openFunction a) ∧
      (m.openFunction a).context.protocol.Defines a.func.name := by
  have founded : Founded o.init { m with act := a } := { founded with }
  obtain ⟨founded, grows, defined⟩ := founded.openRoutine distinct .routineStarted
  have grows : Grows m (m.openFunction a) := { grows with }
  rw [name] at defined
  refine ⟨⟨⟨founded, building.imp fun _ => grows.grounded, distinct⟩,
    fun key label known => ?_, fun other member => ?_⟩,
    grows, defined⟩
  · have known : a.labels.get? key = some label := known
    rw [labels] at known
    exact nomatch known
  · rcases mem_append.1 member with outer | own
    · exact grows.entered callers other outer
    · exact .inl (mem_singleton.1 own ▸ defined)

section

variable (rooted : Rooted o.init m)
include rooted

theorem Rooted.call (quiet : Quiet m m')
    (new : Newcomer m.act f a) (n : Nat) (args : List String) :
    Rooted o.init ((m'.withBudget n).openFunction a) ∧
      ∀ m₁, Rooted o.init m₁ → Grows ((m'.withBudget n).openFunction a) m₁ →
        (naming o).Moves m (m'.closeFunction m₁ args) := by
  obtain ⟨before, grew⟩ := rooted.quiet quiet
  have founded : Founded o.init (m'.withBudget n) := { before.toFounded with }
  have empty : a.routine.All (Grounded o.init (m'.withBudget n)) :=
    ⟨by simp [new.unbegun.stmts], by simp [new.unbegun.waiting]⟩
  obtain ⟨begun, grows, -⟩ := founded.openFunction empty new.distinct new.unbegun.labels
    (new.name.trans (new.func ▸ rfl)) (by
    rw [new.callers, ← quiet.callers, ← quiet.func]
    exact before.entered)
  refine ⟨begun, fun m₁ rooted₁ grows₁ => ?_⟩
  obtain ⟨founded₂, grows₂, defined⟩ := rooted₁.closeRoutine
  have all : Grows m' m₁.closeRoutine := { (grows.trans grows₁).trans grows₂ with }
  have routine : (m'.closeFunction m₁ args).act.routine.All (Grounded o.init m₁.closeRoutine) :=
    (before.routine.imp fun _ => all.grounded).addStatement (directed_call defined args)
  have building : Building o.init (m'.closeFunction m₁ args) :=
    { founded₂ with routine := routine, distinct := before.distinct }
  have total : Grows m m₁.closeRoutine := grew.trans all
  exact ⟨⟨building, fun key label known => all.defines _ (before.labels key label known),
    all.entered before.entered⟩, { total with }⟩

/-- A spawn that puts nothing into the queue names a routine that is known of. -/
theorem Rooted.due (new : Newcomer m.act f a)
    (reason : m.act.reenters f.name ∨ m.tasks.enqueue? a = none) : Due o.init m f.name := by
  rcases reason with entered | full
  · -- An activation of the function is under way, and has begun its routine.
    exact (rooted.entered f.name (reenters_iff.1 entered)).imp_right .inr
  · unfold TaskQueue.enqueue? at full
    split at full
    · next queued => exact .inr (.inl (new.func ▸ contains_iff_mem.1 queued))
    · exact nomatch full

theorem Rooted.enqueue (new : Newcomer m.act f a)
    {queue : TaskQueue} (queued : m.tasks.enqueue? a = some queue) :
    (naming o).Moves m { m with tasks := queue } ∧ Due o.init { m with tasks := queue } f.name := by
  obtain ⟨-, rfl⟩ := TaskQueue.enqueue?_eq_some queued
  have grows : Grows m { m with tasks := ⟨m.tasks.waiting ++ [a], a.func.name :: m.tasks.scheduled⟩ } :=
    ⟨fun _ => id, fun _ => mem_cons_of_mem _⟩
  have founded : Founded o.init { m with tasks := ⟨m.tasks.waiting ++ [a], a.func.name :: m.tasks.scheduled⟩ } := by
    refine ⟨rooted.names, rooted.params,
      fun r member s inside => grows.grounded (rooted.stmts r member s inside), ?_, ?_⟩
    · intro b member
      rcases mem_append.1 member with old | one
      · exact rooted.callers b old
      · obtain rfl := mem_singleton.1 one
        rw [new.callers]
        exact rooted.entered
    · intro name member
      rcases mem_cons.1 member with rfl | old
      · exact .inr ⟨a, mem_append_right _ (mem_singleton.2 rfl), rfl⟩
      · exact (rooted.scheduled name old).imp_right fun ⟨b, waits, same⟩ => ⟨b, mem_append_left _ waits, same⟩
  refine ⟨⟨⟨⟨founded, rooted.routine.imp fun _ => grows.grounded, rooted.distinct⟩,
    rooted.labels, rooted.entered⟩, grows⟩, ?_⟩
  exact .inr (.inl (new.func ▸ mem_cons_self))

theorem Rooted.spawn (quiet : Quiet m m')
    (new : Newcomer m.act f a) (n : Nat) (args : List String) :
    (m.act.reenters f.name ∨ m.tasks.enqueue? a = none →
      (naming o).Moves m ((m'.withBudget n).addStatement (.spawn f.name args))) ∧
    ∀ queue, m.tasks.enqueue? a = some queue →
      (naming o).Moves m { (m'.withBudget n).addStatement (.spawn f.name args) with tasks := queue } := by
  obtain ⟨before, grew⟩ := rooted.quiet quiet
  refine ⟨fun reason => ?_, fun queue queued => ?_⟩
  · have due := (grew.grounded (directed_spawn (rooted.due new reason) args))
    obtain ⟨after, grows⟩ := before.addStatement due n
    exact ⟨after, grew.trans grows⟩
  · have new : Newcomer m'.act f a := by
      obtain ⟨start, distinct⟩ := new
      rw [← quiet.callers, ← quiet.func] at start
      exact ⟨start, distinct⟩
    obtain ⟨⟨after, grows⟩, due⟩ := before.enqueue new (quiet.tasks ▸ queued)
    obtain ⟨last, grows'⟩ := after.addStatement (directed_spawn due args) n
    exact ⟨{ last with }, { (grew.trans grows).trans grows' with }⟩

/-- The function that is taken from the queue is in the protocol. -/
theorem Rooted.dequeue {rest : List Activation}
    (waits : m.tasks.waiting = a :: rest) (defined : m.context.protocol.Defines a.func.name) :
    Rooted o.init { m with tasks := { m.tasks with waiting := rest } } := by
  refine { rooted with callers := fun b member => ?_, scheduled := fun name queued => ?_ }
  · exact rooted.callers b (waits ▸ mem_cons_of_mem a member)
  · rcases rooted.scheduled name queued with done | ⟨b, member, rfl⟩
    · exact .inl done
    · rcases mem_cons.1 (waits ▸ member) with rfl | later
      · exact .inl defined
      · exact .inr ⟨b, later, rfl⟩

end

theorem lawful_naming (p : Program) (o : Options) (property : Property) :
    (naming o).Lawful ⟨p, o⟩ property where
  refl _ := .refl _
  trans one two := Grows.trans one.keeps two.keeps
  quiet here quiet _ := here.holds.quiet quiet
  turn here _ _ := ⟨{ here.holds with }, { Grows.refl _ with }⟩
  defer _ here := ⟨{ here.holds with }, { Grows.refl _ with }⟩
  straight here _ _ _ _ := ⟨{ here.holds with }, { Grows.refl _ with }⟩
  again here _ _ _ _ _ known := here.holds.addStatement (directed_call (here.holds.labels _ _ known) _) _
  merge here _ _ _ _ _ _ := by
    obtain ⟨opened, closes⟩ := here.holds.merge _ _
    exact ⟨opened, fun m₁ walked => closes m₁ walked.holds walked.keeps⟩
  aside here := { here.holds with routine := here.holds.routine.setAside }
  between _ first := { first.holds with routine := first.holds.routine.setAside }
  join {m m₁ m₂} _ first second := by
    have one : Grows m m₁ := { first.keeps with }
    have two : Grows m₁ m₂ := { second.keeps with }
    have joined := second.holds.routine.addBranch byParts_directed (first.stackOfSides second)
    exact ⟨{ second.holds with routine := joined },
      { one.trans two with }⟩
  case _ _ first extended := by
    have kept := first.holds.routine.extendCaseOf byParts_directed first.stack extended
    obtain ⟨cases, -, rfl⟩ := Routine.extendCaseOf_eq extended
    exact ⟨{ first.holds with routine := kept }, { first.keeps with }⟩
  reset _ stays := ⟨{ stays.holds with }, { stays.keeps with }⟩
  call here quiet _ _ _ _ new _ _ := by
    obtain ⟨opened, closes⟩ := here.holds.call quiet new _ _
    exact ⟨opened, fun m₁ walked => closes m₁ walked.holds walked.keeps⟩
  spawn here quiet _ _ _ new _ _ := by
    obtain ⟨dropped, queued⟩ := here.holds.spawn quiet new _ _
    exact ⟨dropped, fun queue _ found => queued queue found⟩
  revisit here _ _ := ⟨⟨{ here.holds with }, { Grows.refl _ with }⟩, trivial⟩
  visit here _ _ _ := ⟨{ here.holds with }, { Grows.refl _ with }⟩
  instr during _ _ _ _ := by
    refine ⟨fun _ => trivial, fun n _ _ => ⟨{ during.1 with }, fun m' stays => ⟨stays.holds, ?_⟩⟩⟩
    exact Grows.trans during.2 { stays.keeps with }
  ends during _ _ _ := ⟨⟨during.1, during.2⟩, trivial⟩
  skip := id
  init {m m' f seq} _ ready found quiet _ _ := by
    obtain ⟨building, labels, callers, func, name⟩ := ready
    have founded := building.toFounded.of_eq quiet.protocol quiet.tasks
    have grows : Grows m m' := .of_eq quiet.protocol quiet.tasks
    have initialiser : f.name = o.init := Program.function?_name (Option.filter_eq_some_iff.1 found).1
    have begun : Rooted o.init { m' with act := Activation.start f seq [] m.act.func.name } :=
      { founded with
        routine := ⟨forall_mem_nil _, forall_mem_nil _⟩
        distinct := nodup_nil
        labels := fun _ _ known => (Option.some_ne_none _ known.symm).elim
        entered := fun other member =>
          have own : other ∈ [f.name] := member
          .inr ((mem_singleton.1 own).trans initialiser) }
    refine ⟨begun, fun m₁ walked => ⟨{ walked.holds with },
      quiet.labels.trans labels, quiet.callers.trans callers, ?_, ?_⟩⟩
    · exact (congrArg (·.name) quiet.func).trans func
    · exact walked.same.name.trans func
  entry {m} _ ready := by
    obtain ⟨building, labels, callers, func, name⟩ := ready
    obtain ⟨begun, grows, defined⟩ := building.toFounded.openFunction building.routine building.distinct labels
      (name.trans func.symm) (by simp [callers])
    refine ⟨begun, fun m₁ walked => ?_⟩
    obtain ⟨founded, grows', -⟩ := walked.holds.closeRoutine
    exact ⟨founded, grows'.defines _ (walked.keeps.defines _ (func ▸ defined))⟩
  task {m a rest} tidy idle waits := by
    obtain ⟨founded, entry⟩ := idle
    have first : a ∈ m.tasks.waiting := waits ▸ mem_cons_self
    have unbegun := (tidy.unbegun a first).1
    have empty : a.routine.All (Grounded o.init m) := ⟨by simp [unbegun.stmts], by simp [unbegun.waiting]⟩
    obtain ⟨begun, grows, defined⟩ :=
      founded.openFunction empty unbegun.distinct unbegun.labels unbegun.name (founded.callers a first)
    refine ⟨{ begun.dequeue waits defined with }, fun m₁ walked => ?_⟩
    obtain ⟨founded, grows', -⟩ := walked.holds.closeRoutine
    exact ⟨{ founded with }, grows'.defines _ (walked.keeps.defines _ (grows.defines _ entry))⟩

end Steps

/-! ### The protocol of a program -/

theorem founded_of_inferred {p : Program} {o : Options} {budget : Nat} {protocol : Protocol} (keep : o.cleanUp = false)
    (inferred : (infer budget p o).result = .ok protocol) :
    ∃ m, Founded o.init m ∧ m.context.protocol = protocol ∧ m.tasks.waiting = [] ∧
      protocol.Defines o.entry := by
  obtain ⟨entry, last, found, ends⟩ := exists_of_inferred inferred
  have name : entry.name = o.entry := Program.function?_name (Option.filter_eq_some_iff.1 found).1
  have empty : (Machine.start p entry budget).context.protocol = {} := Context.protocol_ofProgram p
  have start : Building o.init (Machine.start p entry budget) := by
    refine ⟨⟨?_, ?_, ?_, fun _ waits => (nomatch waits),
      fun _ queued => (nomatch queued)⟩, ⟨nofun, nofun⟩, nodup_nil⟩
    · simp [empty]
    · simp [empty]
    · simp [empty]
  obtain ⟨m, -, ⟨founded, defined⟩, drained, -, same⟩ :=
    ((lawful_naming p o _).leads found ⟨start, rfl, rfl, name, name⟩).ok ends
  rw [keep] at same
  exact ⟨m, founded, same.symm, drained, same ▸ defined⟩

/-- Without clean-up, every call in an inferred protocol is of a routine of the protocol, and every spawn of one or
of the initialiser. The entry routine is there, and routines and parameters are told apart by their names. -/
theorem targets_defined {p : Program} {o : Options} {budget : Nat} {protocol : Protocol} (keep : o.cleanUp = false)
    (inferred : (infer budget p o).result = .ok protocol) :
    (∀ r ∈ protocol.routines, ∀ s ∈ r.stmts,
      (∀ name args, Part (.call name args) s → protocol.Defines name) ∧
      ∀ name args, Part (.spawn name args) s → protocol.Defines name ∨ name = o.init) ∧
    (protocol.routines.map (·.name)).Nodup ∧ protocol.Defines o.entry ∧
      ∀ r ∈ protocol.routines, (r.params.map (·.callee)).Nodup := by
  obtain ⟨m, founded, rfl, drained, entry⟩ := founded_of_inferred keep inferred
  refine ⟨fun r member s inside => ⟨(founded.stmts r member s inside).call, fun name args part => ?_⟩,
    founded.names, entry, founded.params⟩
  rcases (founded.stmts r member s inside).spawn name args part with done | queued | initialiser
  · exact .inl done
  · -- Nothing waits any more, so what was put into the queue has had its turn.
    refine .inl ((founded.scheduled name queued).resolve_right ?_)
    rintro ⟨a, waits, -⟩
    exact nomatch drained ▸ waits
  · exact .inr initialiser

/-- An initialiser that spawns itself. -/
def selfStarting : Function := .closed "main.init" [
  .of 0 none [] [] [
    .perform (.go ⟨.static "main.init", []⟩),
    .perform (.ret [])]]

/-- Spawns the same worker on the way to a merge point and at it. -/
def dispatching : Function := .closed "main.main" [
  .of 0 none [] [1, 2] [
    .define "ch" .intChan (.makeChan (.int 1)),
    .define "c" .bool (.binary .eq (.var "ch") (.const .nil)),
    .perform (.branch (.var "c") 1 2)],
  .of 1 none [0] [2] [
    .perform (.go ⟨.static "main.work", [.var "ch"]⟩),
    .perform (.jump 2)],
  .of 2 none [0, 1] [] [
    .perform (.go ⟨.static "main.work", [.var "ch"]⟩),
    .perform (.ret [])]]

/-- A worker that leaves the rest to another of its kind. -/
def respawning : Function where
  name := "main.work"
  params := [⟨"out", .intChan⟩]
  freeVars := []
  results := none
  blocks := [
    .of 0 none [] [] [
      .perform (.send (.var "out") (.int 1)),
      .perform (.go ⟨.static "main.work", [.var "out"]⟩),
      .perform (.ret [])]]

/-- The initialiser is spawned and has no routine; the worker is spawned three times and has one. -/
theorem dispatching_defined :
    ∃ protocol,
      (infer 100 { functions := [selfStarting, dispatching, respawning] }
        { cleanUp := false }).result = .ok protocol ∧
      protocol.routines.map (·.name) = ["main.main", "main.main#2", "main.work"] ∧
      (∀ r ∈ protocol.routines, ∀ s ∈ r.stmts,
        (∀ name args, Part (.call name args) s → protocol.Defines name) ∧
        ∀ name args, Part (.spawn name args) s → protocol.Defines name ∨ name = "main.init") ∧
      (protocol.routines.map (·.name)).Nodup ∧ protocol.Defines "main.main" ∧
        ∀ r ∈ protocol.routines, (r.params.map (·.callee)).Nodup := by
  have names :
      (infer 100 { functions := [selfStarting, dispatching, respawning] } { cleanUp := false }).result.toOption.map
        (·.routines.map (·.name)) = some ["main.main", "main.main#2", "main.work"] := by decide +kernel
  cases inferred : (infer 100 { functions := [selfStarting, dispatching, respawning] } { cleanUp := false }).result with
  | error halt => simp [inferred, Except.toOption] at names
  | ok protocol =>
    rw [inferred] at names
    exact ⟨protocol, rfl, Option.some.inj names, targets_defined rfl inferred⟩

end ChanFlow.Analysis
