import ChanFlow.Proofs.Conduct

/-!
What holds of every routine that is inferred.

Routines are built in a few ways: statements go to the end of the current list, a list is set aside,
and lists that were set aside become the sides of a branch or the body of a case. A property that all
of them keep (`Construction`) holds of every routine of an inferred protocol.
-/
open List

namespace ChanFlow.Analysis

open Ssa Protocol

variable {a : Activation} {p : Program} {expected : Point → Machine → Prop} {good : Routine → Prop}
  {m m' : Machine}

/-- The name of the routine for a merge point at some index values. -/
def visitLabel (f : Function) (key : BlockVisit) : String :=
  f.name ++ "#" ++ toString key.1 ++ String.join (key.2.map fun i => "_" ++ toString i)

theorem mergeLabel_eq (a : Activation) (b : Nat) : a.mergeLabel b = visitLabel a.func (a.key b) := rfl

/-- Every way of building a routine keeps the property, where the points that an analysis comes to are as expected. -/
structure Construction (p : Program) (expected : Point → Machine → Prop) (good : Routine → Prop) : Prop where
  header : ∀ {r : Routine}, good r → good r.header
  channels : ∀ {r : Routine} {s : Statement}, good r → s.Elementary → good (r.addStatement s)
  /-- A merge point is called, and begun. -/
  merge : ∀ {m : Machine} {src dst : Nat} {block : Block}, expected (.edge src dst) m →
    m.act.func.block? dst = some block →
    block.isMergePoint → m.act.loops.current.repeatsAt dst = false → good m.act.routine →
    good (m.act.routine.addStatement
      (.call (m.act.mergeLabel dst) (m.act.routine.continuationParams.map (·.callee)))) ∧
      good (Routine.addParams { name := m.act.mergeLabel dst } m.act.routine.continuationParams)
  /-- A function is begun, and called or spawned. -/
  handOver : ∀ {m : Machine} {f : Function} {caller a : Activation},
    expected (.handOver f.name a.routine.params) m →
    f ∈ p.functions → Newcomer caller f a → good a.routine ∧ ∀ {r : Routine}, good r →
      good (r.addStatement (.call f.name (a.routine.params.map (·.caller)))) ∧
        good (r.addStatement (.spawn f.name (a.routine.params.map (·.caller))))
  setAside : ∀ {r : Routine}, good r → good r.setAside
  addBranch : ∀ {r : Routine} {t before : List Statement} {rest : List (List Statement)}, good r →
    r.waiting = t :: before :: rest → good (Routine.addBranch { r with stmts := before, waiting := rest } t r.stmts)
  extendCaseOf :
    ∀ {r r' : Routine} {before : List Statement} {rest : List (List Statement)} {slot case : Nat}, good r →
    r.waiting = before :: rest →
    Routine.extendCaseOf { r with stmts := before, waiting := rest } slot case r.stmts = .ok r' → good r'

/-- All routines, finished, under construction or to be begun, have the property, and labels are those
of merge points. -/
structure Builds (good : Routine → Prop) (m : Machine) : Prop where
  built : ∀ r ∈ m.context.protocol.routines, good r ∧ r.waiting = []
  tasks : ∀ a ∈ m.tasks.waiting, good a.routine
  routine : good m.act.routine
  labels : ∀ key label, m.act.labels.get? key = some label → label = visitLabel m.act.func key

def building (good : Routine → Prop) : Conduct where
  holds := Builds good
  keeps _ _ := True
  stopped _ _ := True
  ready m := Builds good m ∧ m.act.routine.waiting = []
  fresh m := (Builds good m ∧ m.act.routine.waiting = []) ∧ good { name := m.act.func.name }
  idle := Builds good

namespace Builds

variable (builds : Builds good m)
include builds

theorem closeRoutine (waiting : m.act.routine.waiting = []) : Builds good m.closeRoutine := by
  refine { builds with built := fun q member => ?_ }
  rcases mem_put member with rfl | old
  · exact ⟨builds.routine, waiting⟩
  · exact builds.built q old

/-- Another activation takes over, which has met no merge point. -/
theorem enter (routine : good a.routine) (unlabelled : a.labels = {}) : Builds good { m with act := a } := by
  refine ⟨builds.built, builds.tasks, routine, fun key label known => ?_⟩
  have known : a.labels.get? key = some label := known
  rw [unlabelled] at known
  exact nomatch known

theorem addLabel {dst : Nat} (routine : good (m.addLabel dst).act.routine) : Builds good (m.addLabel dst) := by
  refine ⟨builds.built, builds.tasks, routine, fun key label known => ?_⟩
  have known : (m.act.labels.insert (m.act.key dst) (m.act.mergeLabel dst)).get? key = some label := known
  rw [Table.get?_insert] at known
  split at known
  · next same =>
    obtain rfl := Option.some.inj known
    exact same ▸ mergeLabel_eq m.act dst
  · exact builds.labels key label known

end Builds

namespace Construction

variable (construction : Construction p expected good)
include construction

theorem openRoutine (builds : Builds good m) {r : Routine} (routine : good r) (e : Event) :
    Builds good (m.openRoutine r e) := by
  refine { builds with routine, built := fun q member => ?_ }
  rcases mem_add member with rfl | old
  · exact ⟨construction.header routine, rfl⟩
  · exact builds.built q old

theorem quiet (builds : Builds good m) (quiet : Quiet m m') : Builds good m' := by
  have grows (added : List Statement) : ∀ r : Routine, (∀ s ∈ added, s.Elementary) → good r →
      good { r with stmts := added.foldl Routine.append r.stmts } := by
    induction added with
    | nil => exact fun _ _ => id
    | cons s rest ih =>
      intro r elementary routine
      obtain ⟨first, others⟩ := forall_mem_cons.1 elementary
      exact ih (r.addStatement s) others (construction.channels routine first)
  obtain ⟨added, elementary, stmts⟩ := quiet.stmts
  have routine := grows added _ elementary builds.routine
  rw [← stmts, ← quiet.name, ← quiet.params, ← quiet.waiting] at routine
  refine ⟨quiet.protocol ▸ builds.built, quiet.tasks ▸ builds.tasks, routine, ?_⟩
  rw [quiet.labels, quiet.func]
  exact builds.labels

theorem lawful (o : Options) : (building good).Lawful ⟨p, o⟩ fun _ => expected where
  quiet here quiet _ := ⟨construction.quiet here.holds quiet, trivial⟩
  turn here _ _ := ⟨{ here.holds with }, trivial⟩
  defer _ here := ⟨{ here.holds with }, trivial⟩
  straight here _ _ _ _ := ⟨{ here.holds with }, trivial⟩
  again {m _ _ dst _ label} here _ reached found merge fresh known := by
    have called := (construction.merge reached found merge fresh here.holds.routine).1
    have named : label = (m.withBudget 0).act.mergeLabel dst :=
      (here.holds.labels _ label known).trans (mergeLabel_eq m.act dst).symm
    rw [← named] at called
    exact ⟨{ here.holds with routine := called }, trivial⟩
  merge {m n _ dst block} here _ reached found merge fresh _ := by
    obtain ⟨called, begun⟩ := construction.merge reached found merge fresh here.holds.routine
    have labelled : Builds good ((m.withBudget n).addLabel dst) :=
      Builds.addLabel (m := m.withBudget n) { here.holds with } called
    refine ⟨construction.openRoutine labelled begun _, fun m₁ walked => ⟨?_, trivial⟩⟩
    exact { walked.holds.closeRoutine walked.same.waiting with routine := called }
  aside here := { here.holds with routine := construction.setAside here.holds.routine }
  between _ first := { first.holds with routine := construction.setAside first.holds.routine }
  join _ first second :=
    have stack := first.stackOfSides second
    ⟨{ second.holds with routine := construction.addBranch second.holds.routine stack }, trivial⟩
  case _ _ first extended :=
    ⟨{ first.holds with routine := construction.extendCaseOf first.holds.routine first.stack extended }, trivial⟩
  reset _ stays := ⟨{ stays.holds with }, trivial⟩
  call {m m' n f a} here quiet _ _ known _ new _ reached := by
    have before := construction.quiet here.holds quiet
    obtain ⟨begun, invokes⟩ := construction.handOver reached (mem_of_find?_eq_some known.1) new
    have entered : Builds good { m'.withBudget n with act := a } := { before.enter begun new.unbegun.labels with }
    refine ⟨construction.openRoutine entered begun _, fun m₁ walked => ⟨?_, trivial⟩⟩
    have name : m₁.act.routine.name = f.name := walked.same.name.trans new.name
    have called : good (m'.act.routine.addStatement (.call m₁.act.routine.name (a.routine.params.map (·.caller)))) :=
      name ▸ (invokes before.routine).1
    have closed := walked.holds.closeRoutine (walked.same.waiting.trans new.unbegun.waiting)
    exact { closed with routine := called, labels := before.labels }
  spawn {m m' n f a} here quiet _ _ known new _ reached := by
    have before := construction.quiet here.holds quiet
    obtain ⟨begun, invokes⟩ := construction.handOver reached (mem_of_find?_eq_some known.1) new
    have spawned := (invokes before.routine).2
    refine ⟨fun _ => ⟨{ before with routine := spawned }, trivial⟩, fun queue _ queued => ⟨?_, trivial⟩⟩
    refine { before with routine := spawned, tasks := fun b member => ?_ }
    obtain ⟨-, rfl⟩ := TaskQueue.enqueue?_eq_some queued
    rcases mem_append.1 member with old | one
    · exact here.holds.tasks b old
    · exact mem_singleton.1 one ▸ begun
  revisit here _ _ := ⟨⟨{ here.holds with }, trivial⟩, trivial⟩
  visit here _ _ _ := ⟨{ here.holds with }, trivial⟩
  instr during _ _ _ _ :=
    ⟨fun _ => trivial, fun n _ _ => ⟨{ during.1 with }, fun m' stays => ⟨stays.holds, trivial⟩⟩⟩
  ends during _ _ _ := ⟨⟨during.1, trivial⟩, trivial⟩
  skip fresh := fresh.1
  init {m m' f seq} _ fresh _ quiet _ _ := by
    have before := construction.quiet fresh.1.1 quiet
    refine ⟨before.enter fresh.2 rfl, fun m₁ walked => ⟨?_, walked.same.waiting⟩⟩
    exact { walked.holds with labels := before.labels }
  entry {m} _ ready := by
    refine ⟨construction.openRoutine (m := { m with act := m.act }) ready.1 ready.1.routine _,
      fun m₁ walked => ?_⟩
    exact walked.holds.closeRoutine (walked.same.waiting.trans ready.2)
  task {m a rest} tidy idle waits := by
    have unbegun := (tidy.unbegun a (waits ▸ mem_cons_self)).1
    have begun := idle.tasks a (waits ▸ mem_cons_self)
    have queued (b : Activation) (member : b ∈ rest) := idle.tasks b (waits ▸ mem_cons_of_mem a member)
    have entered : Builds good { m with tasks := { m.tasks with waiting := rest }, act := a } :=
      { idle.enter begun unbegun.labels with tasks := queued }
    refine ⟨construction.openRoutine entered begun _, fun m₁ walked => ?_⟩
    exact { walked.holds.closeRoutine (walked.same.waiting.trans unbegun.waiting) with
      routine := idle.routine, labels := idle.labels }

section

variable {o : Options} {budget : Nat} {protocol : Protocol} (start : good { name := o.entry })
  (all : ∀ point m, Reachable p o point m → expected point m) (inferred : (infer budget p o).result = .ok protocol)
include start all inferred

/-- Every routine of an inferred protocol has the property, before what is silent is removed. -/
theorem of_inferred :
    ∃ found : Protocol, (∀ r ∈ found.routines, good r ∧ r.waiting = []) ∧
      protocol = if o.cleanUp then found.cleanUp o.entry else found := by
  obtain ⟨entry, last, known, ends⟩ := exists_of_inferred inferred
  rw [← Program.function?_name (Option.filter_eq_some_iff.1 known).1] at start
  have begins : Builds good (Machine.start p entry budget) := by
    refine ⟨fun r inside => ?_, (fun _ waiting => nomatch waiting), start, nofun⟩
    rw [show (Machine.start p entry budget).context.protocol = {} from Context.protocol_ofProgram p] at inside
    exact nomatch inside
  have guided := (construction.lawful o).guided_analyse (budget + 1) (.start known budget)
    ⟨⟨begins, rfl⟩, start⟩
  obtain ⟨m, -, builds, -, -, same⟩ := (Guided.analyse known all guided).ok ends
  exact ⟨m.context.protocol, builds.built, same⟩

theorem of_unclean (keep : o.cleanUp = false) : ∀ r ∈ protocol.routines, good r ∧ r.waiting = [] := by
  obtain ⟨found, built, same⟩ := construction.of_inferred start all inferred
  rw [keep] at same
  obtain rfl : protocol = found := same
  exact built

end

end Construction

end ChanFlow.Analysis
