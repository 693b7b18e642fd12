import ChanFlow.Proofs.Conduct
import ChanFlow.Proofs.Interpretation

/-!
Walks that agree.

Twins that walk the same blocks stay twins (`agree_walkBlock`). Their programs may differ in functions that are entered
already, and in blocks that are out of sight: what is in sight leads nowhere else, and no function is entered twice.
-/
open List

namespace ChanFlow.Analysis

open Ssa Protocol

variable {m₁ m₂ : Machine} {x x' : Run Unit} {walk : Walker} {arrival : Arrival} {a : Activation} {r r' : Routine}
  {dst b src onTrue onFalse slot case : Nat} {loops : Nest} {cond : Operand} {args : List Operand} {result : Result}
  {c : Call}

variable {T : Twinning} {view : View} {m m' : Machine} {α β γ : Type}

/-! ### Rules -/

/-- Where anything may be touched, only the frame counts. -/
theorem Touch.Keeps.any {m₁' : Machine} (frame : m₁.act.frame = m.act.frame)
    (frame' : m₁'.act.frame = m'.act.frame)
    (counts : ∀ func, m.context.count func ≤ m₁.context.count func) : Touch.any.Keeps m m' m₁ m₁' where
  locals untouched := absurd trivial untouched
  globals untouched := absurd trivial untouched
  frame := frame
  frame' := frame'
  counts := counts

namespace Agree

theorem loosen {touch : Touch} {x : Run α} {x' : Run β} {V : α → β → Prop} (agree : Agree T view touch x x' V) :
    Agree T view .any x x' V := by
  intro m m' twins a m₁ a' m₁' ends ends'
  obtain ⟨twins, keeps, related⟩ := agree m m' twins a m₁ a' m₁' ends ends'
  exact ⟨twins, .any keeps.frame keeps.frame' keeps.counts, related⟩

theorem forM {xs : List γ} {g g' : γ → Run Unit} (each : ∀ c ∈ xs, Agree T view .any (g c) (g' c) Eq) :
    Agree T view .any (xs.forM g) (xs.forM g') Eq := by
  induction xs with
  | nil => exact .done
  | cons c rest ih =>
    rw [forall_mem_cons] at each
    exact .bind each.1 fun _ _ _ => ih each.2

theorem located {x x' : Run α} {V : α → α → Prop} (agree : Agree T view .any x x' V) (pos : Option Position) :
    Agree T view .any (located pos x) (Analysis.located pos x') V := by
  have inside {y : Run α} {m m₁ : Machine} {a : α} (ends : Analysis.located pos y m = .ok a m₁) :
    y m = .ok a m₁ := by
    rw [located_apply] at ends
    cases eq : y m with
    | ok b m₂ =>
      rw [eq] at ends
      exact ends
    | error h m₂ =>
      rw [eq] at ends
      cases ends
  exact fun m m' twins a m₁ a' m₁' ends ends' => agree m m' twins a m₁ a' m₁' (inside ends) (inside ends')

end Agree

/-- A step that changes neither the activation nor the context. -/
def Aloof (x : Run Unit) : Prop := ∀ m m₁, x m = .ok () m₁ → m₁.act = m.act ∧ m₁.context = m.context

theorem Aloof.agree (one : Aloof x) (two : Aloof x') : Agree T view .any x x' Eq := by
  rintro m m' twins _ m₁ _ m₁' ends ends'
  obtain ⟨act, context⟩ := one m m₁ ends
  obtain ⟨act', context'⟩ := two m' m₁' ends'
  refine ⟨⟨?_, ?_⟩, .any (congrArg _ act) (congrArg _ act') fun func => ?_, rfl⟩
  · rw [context, context']
    exact twins.context
  · rw [act, act']
    exact twins.act
  · exact Nat.le_of_eq (by rw [context])

theorem aloof_enqueue (a : Activation) : Aloof (enqueue a) := by
  intro m m₁ ends
  have leads : Leads (enqueue a) m fun _ m₁ => m₁.act = m.act ∧ m₁.context = m.context := by
    rw [enqueue, leads_bind, leads_tasks]
    split <;> exact ⟨rfl, rfl⟩
  exact leads.ok ends

theorem aloof_noteCommaOk (cond : Operand) : Aloof (noteCommaOk cond) := by
  intro m m₁ ends
  obtain ⟨⟨log, rfl⟩, -⟩ := (leads_noteCommaOk cond m).ok ends
  exact ⟨rfl, rfl⟩

/-! ### Merge points -/

/-- How a step came out is what it leads to. -/
theorem leads_self (x : Run α) (m : Machine) : Leads x m fun a m₁ => x m = .ok a m₁ :=
  leads_of (fun _ _ => id) fun _ _ _ => trivial

theorem walkMergePoint_ok {label : String} {params : List Parameter}
    (ends : walkMergePoint walk label params arrival m = .ok () m₂) :
    ∃ m₁, walk arrival (m.openRoutine (Routine.addParams { name := label } params) (.mergePointStarted label)) =
      .ok () m₁ ∧ m₂ = m₁.closeRoutine.setRoutine m.act.routine := by
  have leads : Leads (walkMergePoint walk label params arrival) m fun _ m₂ => ∃ m₁,
      walk arrival (m.openRoutine (Routine.addParams { name := label } params) (.mergePointStarted label)) =
        .ok () m₁ ∧ m₂ = m₁.closeRoutine.setRoutine m.act.routine := by
    simp only [walkMergePoint, leads_bind, leads_emit, leads_modifyContext, leads_activation, leads_modifyActivation]
    exact (leads_self (walk arrival) _).imp fun _ m₁ ends => ⟨m₁, ends, rfl⟩
  exact leads.ok ends

theorem frame_setRoutine {b : Activation} (same : a.frame = b.frame) (r : Routine) :
    (a.setRoutine r).frame = (b.setRoutine r).frame := by
  show ({ a.frame with routine := { r with stmts := [] } } : Activation) = _
  rw [same]
  rfl

theorem Twins.setRoutine (twins : Twins T view m m') (routine : RoutineTwins view r r') :
    Twins T view (m.setRoutine r) (m'.setRoutine r') := ⟨twins.context, twins.act.setRoutine routine⟩

theorem agree_walkMergePoint {walk' : Walker}
    (walks : Agree T view .any (walk arrival) (walk' arrival) Eq) (label : String) (params : List Parameter) :
    Agree T view .any (walkMergePoint walk label params arrival) (walkMergePoint walk' label params arrival) Eq := by
  rintro m m' twins _ m₂ _ m₂' ends ends'
  obtain ⟨m₁, inner, rfl⟩ := walkMergePoint_ok ends
  obtain ⟨m₁', inner', rfl⟩ := walkMergePoint_ok ends'
  have begun : RoutineTwins view (Routine.addParams { name := label } params)
    (Routine.addParams { name := label } params) :=
    ⟨rfl, rfl, rfl, fun _ => rfl⟩
  have opened : Twins T view (m.openRoutine _ (.mergePointStarted label))
    (m'.openRoutine _ (.mergePointStarted label)) :=
    ⟨{ twins.context with }, twins.act.setRoutine begun⟩
  obtain ⟨twins₁, keeps, -⟩ := walks _ _ opened _ _ _ _ inner inner'
  refine ⟨⟨{ twins₁.context with }, twins₁.act.setRoutine twins.act.routine⟩, .any ?_ ?_ keeps.counts, rfl⟩
  · exact frame_setRoutine keeps.frame m.act.routine
  · exact frame_setRoutine keeps.frame' m'.act.routine

theorem RoutineTwins.continuationParams (twins : RoutineTwins view r r') (joins : view.joins) :
    r'.continuationParams = r.continuationParams := by
  rw [Routine.continuationParams_eq, Routine.continuationParams_eq, twins.stmts, twins.opened joins]

section Activations

variable {a a' : Activation} (twins : ActivationTwins T view a a')
include twins

theorem ActivationTwins.key (b : Nat) : a'.key b = a.key b := by
  rw [Activation.key, Activation.key, Activation.signature, Activation.signature, twins.loops]

theorem ActivationTwins.funcName : a'.func.name = a.func.name := congrArg (·.name) twins.func.signature

theorem ActivationTwins.mergeLabel (b : Nat) : a'.mergeLabel b = a.mergeLabel b := by
  rw [Activation.mergeLabel, Activation.mergeLabel, Activation.signature, Activation.signature, twins.loops,
    twins.funcName]

theorem ActivationTwins.reenters (name : String) : a'.reenters name = a.reenters name := by
  rw [Activation.reenters, Activation.reenters, twins.funcName, twins.callers]

theorem ActivationTwins.addLabel (seen : view.blocks dst) (label : String) :
    ActivationTwins T view { a with labels := a.labels.insert (a.key dst) label }
      { a' with labels := a'.labels.insert (a'.key dst) label } where
  __ := twins
  labels b signature shown := by
    rw [twins.key, Table.get?_insert, Table.get?_insert]
    split
    · rfl
    · exact twins.labels b signature shown
  unlabelled b signature unseen := by
    have other : a.key dst ≠ (b, signature) := by
      rintro ⟨⟩
      exact unseen seen
    rw [Table.get?_insert, if_neg other]
    exact twins.unlabelled b signature unseen

theorem ActivationTwins.hasVisited (seen : view.blocks b) : a'.hasVisited b = a.hasVisited b := by
  rw [Activation.hasVisited, Activation.hasVisited, twins.key, Bool.eq_iff_iff, contains_iff_mem,
    contains_iff_mem]
  exact twins.visited b _ seen

theorem ActivationTwins.noteVisit (seen : view.blocks b) : ActivationTwins T view (a.noteVisit b) (a'.noteVisit b) := by
  rw [Activation.noteVisit, Activation.noteVisit, twins.hasVisited seen]
  split
  · exact twins
  · refine { twins with visited := fun c signature shown => ?_, unvisited := fun c signature unseen => ?_ }
    · rw [twins.key, mem_cons, mem_cons, twins.visited c signature shown]
    · have other : (c, signature) ≠ a.key b := by
        rintro ⟨⟩
        exact unseen seen
      rw [mem_cons, or_iff_right other]
      exact twins.unvisited c signature unseen

end Activations

/-- Walks of blocks that are in view agree. -/
def WalkersAgree (T : Twinning) (walk walk' : Walker) : Prop :=
  ∀ view arrival, view.blocks arrival.block → Agree T view .any (walk arrival) (walk' arrival) Eq

section Walkers

variable {walk walk' : Walker} (walkers : WalkersAgree T walk walk')
include walkers

theorem agree_arriveAt (src : Nat) (seen : view.blocks dst) :
    Agree T view .any (arriveAt walk src dst) (arriveAt walk' src dst) Eq := by
  refine .bind .activation fun a a' twins => ?_
  have known : a'.labels.get? (a.key dst) = a.labels.get? (a.key dst) := twins.labels dst a.signature seen
  rw [twins.func.block dst seen, twins.key, twins.mergeLabel, twins.loops, known]
  have walks : Agree T view .any (walk (.along src dst)) (walk' (.along src dst)) Eq := walkers view _ seen
  split
  · exact .failWith _
  next block found =>
  split
  · exact walks
  next other =>
  have joins : view.joins := by
    by_contra unmerged
    exact other (by simp [twins.func.straight unmerged dst block seen found])
  rw [twins.routine.continuationParams joins]
  dsimp only
  split
  · exact agree_addStatement _
  · refine .bind (.onActivation (fun _ => ⟨rfl, rfl, rfl⟩) fun b b' both => both.addLabel seen _) fun _ _ _ => ?_
    exact .bind (agree_addStatement _) fun _ _ _ => agree_walkMergePoint walks _ _

theorem agree_followEdge (src : Nat) (seen : view.blocks dst) :
    Agree T view .any (followEdge walk src dst) (followEdge walk' src dst) Eq :=
  .bind (.spend _ _) fun _ _ _ => agree_arriveAt walkers src seen

/-! ### Branches -/

omit walkers in
theorem leads_bothWays : Leads (walkBothWays walk src onTrue onFalse) m fun _ m₃ =>
    ∃ m₁ m₂ thenBody before rest, followEdge walk src onTrue m.setAside = .ok () m₁ ∧
    followEdge walk src onFalse (m₁.setAside.resetLoops m.act.loops) = .ok () m₂ ∧
    m₂.act.routine.waiting = thenBody :: before :: rest ∧
    m₃ = m₂.setRoutine (Routine.addBranch { m₂.act.routine with stmts := before, waiting := rest }
      thenBody m₂.act.routine.stmts) := by
  rw [walkBothWays, leads_bind, leads_activation]
  dsimp only
  rw [leads_bind, setAside, leads_modifyRoutine, leads_bind]
  refine (leads_self (followEdge walk src onTrue) _).imp fun _ m₁ first => ?_
  rw [leads_bind, leads_modifyRoutine, leads_bind, resetLoops, leads_modifyActivation, leads_bind]
  refine (leads_self (followEdge walk src onFalse) _).imp fun _ m₂ second => ?_
  rw [leads_bind, leads_modifyRoutine]
  refine leads_bind.2 (leads_takeBack.2 (leads_bind.2 (leads_takeBack.2 ?_)))
  cases waits : m₂.act.routine.waiting with
  | nil => trivial
  | cons thenBody outer =>
    refine leads_bind.2 (leads_takeBack.2 ?_)
    cases outer with
    | nil => trivial
    | cons before rest => exact ⟨m₁, m₂, thenBody, before, rest, first, second, waits, rfl⟩

omit walkers in
/-- A walk that begins with an empty list leaves the one that was set aside. -/
theorem routine_aside (frame : m₁.act.frame = m.setAside.act.frame) :
    m₁.act.routine = { m.act.routine with
      stmts := m₁.act.routine.stmts, waiting := m.act.routine.stmts :: m.act.routine.waiting } := by
  have name : m₁.act.routine.name = m.act.routine.name := congrArg (·.routine.name) frame
  have params : m₁.act.routine.params = m.act.routine.params := congrArg (·.routine.params) frame
  have waiting : m₁.act.routine.waiting = m.act.routine.stmts :: m.act.routine.waiting :=
    congrArg (·.routine.waiting) frame
  dsimp only
  rw [← name, ← params, ← waiting]

omit walkers in
theorem RoutineTwins.setAside (twins : RoutineTwins view r r') : RoutineTwins view r.setAside r'.setAside where
  __ := twins
  stmts := rfl
  opened joins := by
    rw [Routine.openedParams_setAside, Routine.openedParams_setAside]
    exact twins.continuationParams joins

omit walkers in
theorem Twins.setAside (twins : Twins T view m m') : Twins T view m.setAside m'.setAside :=
  twins.setRoutine twins.act.routine.setAside

omit walkers in
theorem Twins.resetLoops (twins : Twins T view m m') {loops' : Nest} (same : loops' = loops) :
    Twins T view (m.resetLoops loops) (m'.resetLoops loops') := ⟨twins.context, { twins.act with loops := same }⟩

omit walkers in
/-- Both sides of a branch are put together in the routine that the branch stands in. -/
theorem routine_sides (first : m₁.act.frame = m.setAside.act.frame)
    (second : m₂.act.frame = (m₁.setAside.resetLoops loops).act.frame) :
    m₂.act.routine.waiting = m₁.act.routine.stmts :: m.act.routine.stmts :: m.act.routine.waiting ∧
      ∀ ss, { m₂.act.routine with stmts := ss, waiting := m.act.routine.waiting } =
        { m.act.routine with stmts := ss } := by
  rw [routine_aside (m := m₁) second, routine_aside first]
  exact ⟨rfl, fun _ => rfl⟩

theorem agree_walkBothWays (src : Nat) (seen : view.blocks onTrue) (seen' : view.blocks onFalse) :
    Agree T view .any (walkBothWays walk src onTrue onFalse) (walkBothWays walk' src onTrue onFalse) Eq := by
  rintro m m' twins _ m₃ _ m₃' ends ends'
  obtain ⟨m₁, m₂, thenBody, before, rest, first, second, waits, rfl⟩ := leads_bothWays.ok ends
  obtain ⟨m₁', m₂', thenBody', before', rest', first', second', waits', rfl⟩ := leads_bothWays.ok ends'
  obtain ⟨twins₁, keeps₁, -⟩ := agree_followEdge walkers src seen _ _ twins.setAside _ _ _ _ first first'
  obtain ⟨twins₂, keeps₂, -⟩ :=
    agree_followEdge walkers src seen' _ _ (twins₁.setAside.resetLoops twins.act.loops) _ _ _ _ second second'
  obtain ⟨stack, back⟩ := routine_sides keeps₁.frame keeps₂.frame
  obtain ⟨stack', back'⟩ := routine_sides keeps₁.frame' keeps₂.frame'
  rw [stack, List.cons.injEq, List.cons.injEq] at waits
  rw [stack', List.cons.injEq, List.cons.injEq] at waits'
  obtain ⟨rfl, rfl, rfl⟩ := waits
  obtain ⟨rfl, rfl, rfl⟩ := waits'
  rw [back, back', twins₁.act.routine.stmts, twins₂.act.routine.stmts]
  refine ⟨twins₂.setRoutine (twins.act.routine.addStatement _), .any ?_ ?_ fun func => ?_, rfl⟩
  · exact (frame_setRoutine keeps₂.frame _).trans (frame_setRoutine keeps₁.frame _)
  · exact (frame_setRoutine keeps₂.frame' _).trans (frame_setRoutine keeps₁.frame' _)
  · exact Nat.le_trans (keeps₁.counts func) (keeps₂.counts func)

omit walkers in
theorem leads_caseCollected : Leads (collectCase walk src dst slot case) m fun _ m₂ => ∃ m₁ before rest r,
    followEdge walk src dst m.setAside = .ok () m₁ ∧ m₁.act.routine.waiting = before :: rest ∧
    Routine.extendCaseOf { m₁.act.routine with stmts := before, waiting := rest } slot case m₁.act.routine.stmts =
      .ok r ∧ m₂ = m₁.setRoutine r := by
  rw [collectCase, leads_bind, collect, leads_bind, setAside, leads_modifyRoutine, leads_bind]
  refine (leads_self (followEdge walk src dst) _).imp fun _ m₁ along => leads_takeBody.2 ?_
  cases waits : m₁.act.routine.waiting with
  | nil => trivial
  | cons before rest =>
    refine leads_changeWith.2 ?_
    split
    · next r extended => exact ⟨m₁, before, rest, r, along, waits, extended, rfl⟩
    · trivial

omit walkers in
theorem RoutineTwins.extendCaseOf {s s' : Routine} (twins : RoutineTwins view r r')
    {body : List Statement} (one : r.extendCaseOf slot case body = .ok s)
    (two : r'.extendCaseOf slot case body = .ok s') :
    RoutineTwins view s s' ∧ { s with stmts := [] } = { r with stmts := [] } ∧
      { s' with stmts := [] } = { r' with stmts := [] } := by
  obtain ⟨cases, found, rfl⟩ := Routine.extendCaseOf_eq one
  obtain ⟨cases', found', rfl⟩ := Routine.extendCaseOf_eq two
  rw [twins.stmts, found, Option.some.injEq, Statement.select.injEq] at found'
  subst found'
  refine ⟨{ twins with stmts := ?_ }, rfl, rfl⟩
  dsimp only
  rw [twins.stmts]

theorem agree_collectCase (src slot case : Nat) (seen : view.blocks dst) :
    Agree T view .any (collectCase walk src dst slot case) (collectCase walk' src dst slot case) Eq := by
  rintro m m' twins _ m₂ _ m₂' ends ends'
  obtain ⟨m₁, before, rest, r, along, waits, extended, rfl⟩ := leads_caseCollected.ok ends
  obtain ⟨m₁', before', rest', r', along', waits', extended', rfl⟩ := leads_caseCollected.ok ends'
  obtain ⟨twins₁, keeps, -⟩ := agree_followEdge walkers src seen _ _ twins.setAside _ _ _ _ along along'
  have stack : m₁.act.routine.waiting = m.act.routine.stmts :: m.act.routine.waiting :=
    congrArg (·.routine.waiting) keeps.frame
  have stack' : m₁'.act.routine.waiting = m'.act.routine.stmts :: m'.act.routine.waiting :=
    congrArg (·.routine.waiting) keeps.frame'
  rw [stack, List.cons.injEq] at waits
  rw [stack', List.cons.injEq] at waits'
  obtain ⟨rfl, rfl⟩ := waits
  obtain ⟨rfl, rfl⟩ := waits'
  rw [routine_aside keeps.frame] at extended
  rw [routine_aside keeps.frame', twins₁.act.routine.stmts] at extended'
  obtain ⟨routine, header, header'⟩ := twins.act.routine.extendCaseOf extended extended'
  refine ⟨twins₁.setRoutine routine, .any ?_ ?_ keeps.counts, rfl⟩
  · refine (frame_setRoutine keeps.frame r).trans ?_
    show ({ m.act.frame with routine := { r with stmts := [] } } : Activation) = _
    rw [header]
    rfl
  · refine (frame_setRoutine keeps.frame' r').trans ?_
    show ({ m'.act.frame with routine := { r' with stmts := [] } } : Activation) = _
    rw [header']
    rfl

end Walkers

/-! ### The cases of a select -/

/-- The select whose index an instance is. -/
theorem Entwined.findSelect {es es' : List (Instance × OpenSelect)}
    (twined : Entwined T (SelectTwins T) (SpareSelect T) es es') {i i' : Instance} (inst : T.inst i i') :
    Option.Rel (SelectTwins T) ((es.map (·.2)).find? (·.index = some i))
      ((es'.map (·.2)).find? (·.index = some i')) := by
  induction twined with
  | nil => exact .none
  | @both k k' s s' es es' _ site _ ih =>
    have same : s'.index = some i' ↔ s.index = some i := by
      have index := site.index
      generalize s.index = j, s'.index = j' at index
      cases index with
      | none => simp
      | some held =>
        rw [Option.some.injEq, Option.some.injEq]
        exact (T.unique held inst).symm
    simp only [map_cons, find?_cons, same]
    by_cases here : s.index = some i
    · simp only [here, decide_true]
      exact .some site
    · simp only [here, decide_false]
      exact ih
  | @extra k' s' es es' _ spare _ ih =>
    have other : s'.index ≠ some i' := fun here => spare i i' here inst
    simp only [map_cons, find?_cons, other, decide_false]
    exact ih

section Tests

variable {a a' : Activation} (twins : ActivationTwins T view a a')
include twins

theorem ActivationTwins.chosen {x : Operand} (shows : view.Shows x) (case : Int) :
    Option.Rel (fun s s' => SelectTwins T s.1 s'.1 ∧ s'.2 = s.2)
      (x.var?.bind fun name => (a.resolve? name).bind fun i =>
        (a.selects.values.find? (·.index = some i)).bind fun site =>
    if 0 ≤ case then some (site, case.toNat) else none)
      (x.var?.bind fun name => (a'.resolve? name).bind fun i =>
        (a'.selects.values.find? (·.index = some i)).bind fun site =>
    if 0 ≤ case then some (site, case.toNat) else none) := by
  cases x with
  | global name => exact .none
  | func name => exact .none
  | const literal => exact .none
  | var name =>
    have held := twins.locals name (shows.var name rfl)
    show Option.Rel _ ((a.resolve? name).bind _) ((a'.resolve? name).bind _)
    generalize a.resolve? name = i, a'.resolve? name = i' at held
    cases held with
    | none => exact .none
    | @some i i' inst =>
      have site := Entwined.findSelect twins.selects inst
      rw [Option.bind_some, Option.bind_some, Table.values, Table.values]
      generalize List.find? _ (List.map _ a.selects.entries) = s,
        List.find? _ (List.map _ a'.selects.entries) = s' at site
      cases site with
      | none => exact .none
      | some site =>
        rw [Option.bind_some, Option.bind_some]
        split
        · exact .some ⟨site, rfl⟩
        · exact .none

theorem ActivationTwins.selectTest? (shows : view.Shows cond) :
    Option.Rel (fun s s' => SelectTwins T s.1 s'.1 ∧ s'.2 = s.2) (Analysis.selectTest? a cond)
      (Analysis.selectTest? a' cond) := by
  cases cond with
  | global name => exact .none
  | func name => exact .none
  | const literal => exact .none
  | var name =>
    unfold Analysis.selectTest?
    simp only [Option.bind_eq_bind]
    rw [show (Operand.var name).var? = some name from rfl, Option.bind_some, Option.bind_some,
      twins.func.definition name (shows.var name rfl)]
    cases defined : a.func.definition? name with
    | none => exact .none
    | some definition =>
      rw [Option.bind_some, Option.bind_some]
      split
      · next x y op =>
        obtain ⟨showsX, showsY⟩ := twins.func.tested name definition x y (shows.var name rfl) defined op
        split
        · exact twins.chosen showsX _
        · exact twins.chosen showsY _
        · exact .none
      · exact .none

end Tests

section Walkers

variable {walk walk' : Walker} (walkers : WalkersAgree T walk walk')
include walkers

theorem agree_walkCaseTest (src : Nat) (seen : view.blocks onTrue) (seen' : view.blocks onFalse)
    {site site' : OpenSelect} (same : SelectTwins T site site') (case : Nat) :
    Agree T view .any (walkCaseTest walk src onTrue onFalse site case)
      (walkCaseTest walk' src onTrue onFalse site' case) Eq := by
  unfold walkCaseTest
  refine .bind .activation fun a a' twins => ?_
  have isSelect : a'.routine.isSelectAt site.slot = a.routine.isSelectAt site.slot := by
    rw [Routine.isSelectAt, Routine.isSelectAt, twins.routine.stmts]
  rw [same.routine, same.slot, same.cases, same.blocking, twins.routine.name, isSelect, twins.loops]
  split
  · exact .bind (.emit _ _) fun _ _ _ => agree_walkBothWays walkers src seen seen'
  refine .bind (agree_collectCase walkers src _ _ seen) fun _ _ _ => ?_
  refine .bind (.onActivation (fun _ => ⟨rfl, rfl, rfl⟩) fun _ _ both => { both with loops := rfl }) fun _ _ _ => ?_
  split
  · exact agree_collectCase walkers src _ _ seen'
  · exact agree_followEdge walkers src seen'

omit walkers in
theorem agree_settleLoop (arrival : Arrival) : Agree T view .any (settleLoop arrival) (settleLoop arrival) Eq := by
  refine .bind .activation fun a a' twins => ?_
  rw [atHeader_twins twins]
  split
  · exact agree_changeLoop _ _
  · exact .done

theorem agree_branch (arrival : Arrival) (shows : view.Shows cond)
    (seen : view.blocks onTrue) (seen' : view.blocks onFalse) :
    Agree T view .any (branch walk arrival cond onTrue onFalse) (branch walk' arrival cond onTrue onFalse) Eq := by
  refine .bind (agree_settleLoop arrival) fun _ _ _ => .bind .activation fun a a' twins => ?_
  rw [twins.loops]
  dsimp only
  split
  · refine .bind (.emit _ _) fun _ _ _ => agree_followEdge walkers _ ?_
    split
    · exact seen
    · exact seen'
  have test := twins.selectTest? shows
  generalize selectTest? a cond = s, selectTest? a' cond = s' at test
  cases test with
  | none =>
    exact .bind ((aloof_noteCommaOk cond).agree (aloof_noteCommaOk cond)) fun _ _ _ =>
      agree_walkBothWays walkers _ seen seen'
  | @some both both' related =>
    obtain ⟨site, case⟩ := both
    obtain ⟨site', case'⟩ := both'
    obtain ⟨same, rfl⟩ := related
    exact agree_walkCaseTest walkers _ seen seen' same _

end Walkers

/-! ### Calls -/

theorem agree_within {v : View} {a' : Activation} (both : ActivationTwins T v a a')
    (step : Agree T v .any x x' Eq) : Agree T view .any (within a x) (within a' x') (ActivationTwins T v) := by
  have inside {y : Run Unit} {m m₁ : Machine} {a b : Activation} (ends : within a y m = .ok b m₁) :
      ∃ m₂, y { m with act := a } = .ok () m₂ ∧ b = m₂.act ∧ m₁ = { m₂ with act := m.act } := by
    have leads : Leads (within a y) m fun b m₁ => ∃ m₂, y { m with act := a } = .ok () m₂ ∧ b = m₂.act ∧
        m₁ = { m₂ with act := m.act } :=
      leads_within.2 ((leads_self y _).imp fun _ m₂ ends => ⟨m₂, ends, rfl, rfl⟩)
    exact leads.ok ends
  rintro m m' twins b m₁ b' m₁' ends ends'
  obtain ⟨m₂, inner, rfl, rfl⟩ := inside ends
  obtain ⟨m₂', inner', rfl, rfl⟩ := inside ends'
  have entered : Twins T v { m with act := a } { m' with act := a' } := ⟨twins.context, both⟩
  obtain ⟨twins₂, keeps, -⟩ := step _ _ entered _ _ _ _ inner inner'
  exact ⟨⟨twins₂.context, twins.act⟩, .any rfl rfl keeps.counts, twins₂.act⟩

section Calls

variable {env env' : Env} (envs : EnvTwins T env env') (issues : ∀ func n, T.issue func n) {walk walk' : Walker}
  (walkers : WalkersAgree T walk walk')

include walkers in
theorem agree_walkFunction : Agree T .whole .any (walkFunction walk) (walkFunction walk') Eq := by
  have protocol {g g' : Context → Protocol} : Agree T .whole .any (modifyContext fun c => { c with protocol := g c })
      (modifyContext fun c => { c with protocol := g' c }) Eq :=
    .onContext (fun _ => ⟨rfl, rfl⟩) fun _ _ twins => { twins with }
  refine .bind (.emit _ _) fun _ _ _ => .bind .activation fun _ _ _ => .bind protocol fun _ _ _ => ?_
  exact .bind (walkers .whole .entry trivial) fun _ _ _ => .bind .activation fun _ _ _ => protocol

include issues in
theorem agree_calleeActivation (types : TypeTable) {f f' : Function} (func : CalleesTwins T f f')
    (shows : ∀ x ∈ args, view.Shows x) {captures captures' : List Instance}
    (captured : List.Forall₂ T.inst captures captures')
    {receiver receiver' : Option Instance} (received : Option.Rel T.inst receiver receiver') :
    Agree T view .any (calleeActivation types f args captures receiver)
      (calleeActivation types f' args captures' receiver') fun a a' =>
        HandedTwins T a a' ∧ (f' = f → ActivationTwins T .whole a a') := by
  rw [calleeActivation_eq, calleeActivation_eq]
  intro m m' twins
  refine (agreeAt_prepare types func shows captured received twins).bind fun a a' handed => ?_
  exact .bind (.spend _ _) fun _ _ _ => .pure ⟨handed.1, fun same => handed.2 same (issues _ _)⟩

include envs issues walkers

theorem agree_callTarget (shows : ∀ x ∈ args, view.Shows x)
    (binds : BindsResult view .any result) {t t' : Target} (same : TargetTwins T t t') :
    Agree T view .any (callTarget env.program.types walk args result t)
      (callTarget env'.program.types walk' args result t') Eq := by
  rw [envs.types]
  cases same with
  | external name =>
    exact .bind (.emit _ _) fun _ _ _ => fun m m' twins =>
      agreeAt_bindForeignResult _ binds (fun _ => issues _ _) twins
  | @routine f f' captures captures' receiver receiver' func captured received =>
    refine .bind .activation fun a a' twins => ?_
    rw [congrArg (·.name) func.signature, twins.reenters]
    split
    · exact .bind (.emit _ _) fun _ _ _ => agree_bindFreshResult binds
    next fresh =>
    -- A function that is changed is entered already, so it would not be entered here.
    obtain rfl : f' = f := func.same fun changed => fresh (twins.entered _ changed)
    refine .bind (agree_calleeActivation issues _ func shows captured received) fun b b' both => ?_
    have both := both.2 rfl
    refine .bind (agree_within both (agree_walkFunction walkers)) fun c c' ended => ?_
    rw [ended.routine.name, both.routine.params]
    exact .bind (agree_addStatement _) fun _ _ _ =>
      agree_takeResult _ binds ended.storage (ended.returned trivial)

theorem agree_call (shows : ∀ x ∈ c.operands, view.Shows x) (binds : BindsResult view .any result) :
    Agree T view .any (call env.program walk c result) (call env'.program walk' c result) Eq := by
  have args : ∀ x ∈ c.args, view.Shows x := fun x member => shows x (mem_append_right _ member)
  unfold call
  split
  · exact agree_callBuiltin binds _ args
  · refine .bind (agree_target envs fun x member => shows x (mem_append_left _ member)) fun t t' same => ?_
    exact agree_callTarget envs issues walkers args binds same

omit walkers in
theorem agree_spawn (shows : ∀ x ∈ c.operands, view.Shows x) :
    Agree T view .any (spawn env.program c) (spawn env'.program c) Eq := by
  refine .bind (agree_target envs fun x member => shows x (mem_append_left _ member)) fun t t' same => ?_
  rw [envs.types]
  cases same with
  | external name => exact .bind .activation fun _ _ _ => .emit _ _
  | @routine f f' captures captures' receiver receiver' func captured received =>
    have args : ∀ x ∈ c.args, view.Shows x := fun x member => shows x (mem_append_right _ member)
    refine .bind (agree_calleeActivation issues _ func args captured received) fun b b' both => ?_
    rw [both.1.routine]
    refine .bind (agree_addStatement _) fun _ _ _ => .bind .activation fun a a' twins => ?_
    rw [congrArg (·.name) func.signature, twins.reenters]
    split
    · exact .emit _ _
    · exact (aloof_enqueue b).agree (aloof_enqueue b')

omit envs issues walkers in
theorem agree_defer (shows : ∀ x ∈ c.operands, view.Shows x) : Agree T view .any (defer c) (defer c) Eq := by
  unfold defer
  refine .onActivation (fun _ => ⟨rfl, rfl, rfl⟩) fun a a' twins =>
    { twins with defers := congrArg (· ++ [c]) twins.defers, deferred := fun d member => ?_ }
  rcases mem_append.1 member with before | new
  · exact twins.deferred d before
  · rw [mem_singleton] at new
    exact new ▸ shows

theorem agree_runDeferred : Agree T view .any (runDeferred env.program walk) (runDeferred env'.program walk') Eq := by
  refine .bind .activation fun a a' twins => ?_
  rw [twins.defers]
  exact .forM fun c member =>
    agree_call envs issues walkers (twins.deferred c (mem_reverse.1 member)) fun _ _ eq => nomatch eq

/-! ### Blocks -/

theorem agree_interpret {action : Action} (shows : view.ShowsAction action) (arrival : Arrival)
    (leaves : ∀ effect, action = .perform effect → ∀ next ∈ effect.successors, view.blocks next) :
    Agree T view .any (interpret env walk arrival action) (interpret env' walk' arrival action) Eq := by
  cases simple : isSimple action with
  | true => exact (agree_simple envs simple shows walk walk' arrival).loosen
  | false =>
    obtain ⟨operands, -, defined⟩ := shows
    cases action with
    | define value ty op =>
      cases op with
      | call c =>
        refine agree_call envs issues walkers operands ?_
        rintro _ _ ⟨⟩
        exact ⟨defined value ty _ rfl, trivial⟩
      | _ => cases simple
    | perform effect =>
      cases effect with
      | jump target => exact agree_followEdge walkers _ (leaves _ rfl target (by simp [Effect.successors]))
      | branch cond onTrue onFalse =>
        exact agree_branch walkers arrival (operands cond (by simp [Action.operands, Effect.operands]))
          (leaves _ rfl onTrue (by simp [Effect.successors])) (leaves _ rfl onFalse (by simp [Effect.successors]))
      | go c => exact agree_spawn envs issues operands
      | defer c => exact agree_defer operands
      | call c => exact agree_call envs issues walkers operands (by rintro _ _ ⟨⟩)
      | runDefers => exact agree_runDeferred envs issues walkers
      | _ => cases simple

theorem agree_enterBlock (seen : view.blocks arrival.block) :
    Agree T view .any (enterBlock env walk arrival) (enterBlock env' walk' arrival) Eq := by
  refine .bind .activation fun a a' twins => ?_
  rw [twins.func.block _ seen, twins.loops]
  split
  · exact .failWith _
  next block found =>
  have here : view.blocks block.index := twins.func.index _ block seen found
  refine .bind (.onActivation (fun _ => ⟨rfl, rfl, rfl⟩) fun _ _ both => { both with loops := rfl }) fun _ _ _ => ?_
  refine .bind (.emit _ _) fun _ _ _ => .bind .activation fun b b' both => ?_
  rw [both.hasVisited here]
  split
  · exact .emit _ _
  have noted : Agree T view .any (modifyActivation (·.noteVisit block.index))
    (modifyActivation (·.noteVisit block.index)) Eq := by
    refine .onActivation (fun a => ?_) fun _ _ both => both.noteVisit here
    obtain ⟨visited, eq⟩ := noteVisit_eq a block.index
    rw [eq]
    exact ⟨rfl, rfl, rfl⟩
  refine .bind noted fun _ _ _ => .forM fun i member => .located ?_ i.pos
  refine .bind (.emit _ _) fun _ _ _ => .bind (.spend _ _) fun _ _ _ => ?_
  refine agree_interpret envs issues walkers (twins.func.shown _ block i seen found member) arrival
    fun effect eq next out => ?_
  refine twins.func.leaves _ block i seen found member next ?_
  rw [Instr.successors, eq]
  exact out

omit walkers in
/-- Walks of twins agree, however deep they may go. -/
theorem agree_walkBlock (depth depth' : Nat) : WalkersAgree T (walkBlock env depth) (walkBlock env' depth') := by
  induction depth generalizing depth' with
  | zero => exact fun _ _ _ _ _ _ _ _ _ _ ends => nomatch ends
  | succ depth ih =>
    cases depth' with
    | zero => exact fun _ _ _ _ _ _ _ _ _ _ _ ends => nomatch ends
    | succ depth' => exact fun view arrival seen => agree_enterBlock envs issues (ih depth') seen

end Calls

end ChanFlow.Analysis
