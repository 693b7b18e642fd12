import ChanFlow.Proofs.Depth

/-!
Rules for the steps that leave a block: following edges, taking branches and calling functions.

Each rule says what has to be shown of the walks a step asks for, so that the step as a whole is `Guided`.
A proof about all runs is then an induction on the depth of the walk with one case per rule, and none of
these steps is opened again.
-/
namespace ChanFlow.Analysis

open Ssa Protocol

variable {e : Event} {m' m'' m : Machine} {point : Point} {arrival : Arrival} {src dst onTrue onFalse case : Nat}
  {site : OpenSelect} {cond : Operand} {f entry : Function} {a : Activation} {program p : Program} {c : Call}
  {env : Env} {o : Options} {halted : Halt → Machine → Prop}

variable {α β : Type}

/-! ### Machines between the steps -/

namespace Machine

def onAct (m : Machine) (f : Activation → Activation) : Machine := { m with act := f m.act }

def setRoutine (m : Machine) (r : Routine) : Machine := m.onAct (·.setRoutine r)

def resetLoops (m : Machine) (loops : Nest) : Machine := m.onAct fun a => { a with loops }

def addStatement (m : Machine) (s : Statement) : Machine := m.setRoutine (m.act.routine.addStatement s)

def setAside (m : Machine) : Machine := m.setRoutine m.act.routine.setAside

/-- The merge point `dst` is known under its label from here on, and called. -/
def addLabel (m : Machine) (dst : Nat) : Machine :=
  (m.onAct fun a => { a with labels := a.labels.insert (a.key dst) (a.mergeLabel dst) }).addStatement
    (.call (m.act.mergeLabel dst) (m.act.routine.continuationParams.map (·.callee)))

/-- A routine is begun: it is found in the protocol without statements as yet. -/
def openRoutine (m : Machine) (r : Routine) (e : Event) : Machine :=
  { m with
    act := m.act.setRoutine r
    context := { m.context with protocol := m.context.protocol.add r.header }
    log := m.log.push e }

/-- The current routine is finished and goes to the protocol. -/
def closeRoutine (m : Machine) : Machine :=
  { m with context := { m.context with protocol := m.context.protocol.replace m.act.routine } }

theorem routine?_closeRoutine {name : String} (own : m.act.routine.name = name) (other : String) :
    m.closeRoutine.context.protocol.routine? other =
      if name = other then some m.act.routine else m.context.protocol.routine? other :=
  own ▸ Protocol.routine?_replace _ _ _

def emit (m : Machine) (e : Event) : Machine := { m with log := m.log.push e }

section

variable (m : Machine)

@[simp] theorem onAct_act (f : Activation → Activation) : (m.onAct f).act = f m.act := rfl

@[simp] theorem revisits_onAct (f : Activation → Activation) : (m.onAct f).Revisits ↔ m.Revisits := Iff.rfl

@[simp] theorem revisits_resetLoops (loops : Nest) : (m.resetLoops loops).Revisits ↔ m.Revisits := Iff.rfl

@[simp] theorem revisits_addLabel (dst : Nat) : (m.addLabel dst).Revisits ↔ m.Revisits := Iff.rfl

@[simp] theorem revisits_withBudget (n : Nat) : (m.withBudget n).Revisits ↔ m.Revisits := Iff.rfl

theorem revisits_emit (other : ∀ block, e ≠ .blockRevisited block) :
    (m.emit e).Revisits ↔ m.Revisits := (Quiet.push m other).revisits

@[simp] theorem revisits_openMergePoint (r : Routine) (label : String) :
    (m.openRoutine r (.mergePointStarted label)).Revisits ↔ m.Revisits :=
  m.revisits_emit nofun

@[simp] theorem revisits_openFunction (r : Routine) : (m.openRoutine r .routineStarted).Revisits ↔ m.Revisits :=
  m.revisits_emit nofun

end

end Machine

/-- An error found here, without anything passed over meanwhile, meets `halted`. -/
def MayFail (halted : Halt → Machine → Prop) (m : Machine) : Prop :=
  ∀ h m', (∀ point, h ≠ .stopped point) → (m'.Revisits ↔ m.Revisits) → halted h m'

theorem mayFail_true (m : Machine) : MayFail (fun _ _ => True) m := fun _ _ _ _ => trivial

section

variable {property : Property} {halted : Halt → Machine → Prop} {m : Machine}

theorem MayFail.of_quiet (fail : MayFail halted m) (quiet : Quiet m m') : MayFail halted m' :=
  fun h m'' goes seen => fail h m'' goes (seen.trans quiet.revisits)

theorem MayFail.failWith {done : α → Machine → Prop} (fail : MayFail halted m) (cause : Cause) :
    Guided property (failWith cause) m done halted :=
  .of_leads (leads_failWith.2 (fail (.failed ⟨cause, none⟩) m (fun _ eq => nomatch eq) Iff.rfl))

/-- A step that stays inside its block, as it comes out. -/
theorem Guided.exactly {x : Run α} {f : α → Run β} {done : β → Machine → Prop} (quietly : Quietly x)
    (fail : MayFail halted m) (next : ∀ a m', x m = .ok a m' → Guided property (f a) m' done halted) :
    Guided property (x >>= f) m done halted := by
  refine .bind quietly.metered (.of_leads (leads_of next fun h m' halts => ?_))
  have led := (quietly.leads m).error halts
  exact fail h m' led.1 led.2.revisits

theorem Guided.ends_exactly {x : Run α} {done : α → Machine → Prop} (quietly : Quietly x)
    (fail : MayFail halted m)
    (ends : ∀ a m', x m = .ok a m' → done a m') : Guided property x m done halted := by
  refine .of_leads (leads_of ends fun h m' halts => ?_)
  have led := (quietly.leads m).error halts
  exact fail h m' led.1 led.2.revisits

theorem Guided.ends_quietly {x : Run α} {done : α → Machine → Prop} (quietly : Quietly x)
    (fail : MayFail halted m)
    (ends : ∀ a m', Quiet m m' → m'.budget = m.budget → done a m') : Guided property x m done halted := by
  refine .ends_exactly quietly fail fun a m' comes => ?_
  have led := (quietly.leads m).ok comes
  exact ends a m' led.1 led.2

variable {done : α → Machine → Prop} {g : Unit → Run α}

theorem Guided.read {f : Activation → Run α}
    (next : Guided property (f m.act) m done halted) : Guided property (activation >>= f) m done halted :=
  .bind Quietly.activation.metered (.of_leads next)

theorem metered_modifyActivation (f : Activation → Activation) : Metered (modifyActivation f) :=
  (Alike.modifyActivation (n := 0) f).metered

theorem Guided.modify {f : Activation → Activation}
    (next : Guided property (g ()) (m.onAct f) done halted) :
    Guided property (modifyActivation f >>= g) m done halted :=
  .bind (metered_modifyActivation f) (.of_leads next)

theorem Guided.modifyRoutine {f : Routine → Routine}
    (next : Guided property (g ()) (m.setRoutine (f m.act.routine)) done halted) :
    Guided property (modifyRoutine f >>= g) m done halted :=
  .bind (metered_modifyActivation _) (.of_leads next)

theorem Guided.modifyContext {f : Context → Context}
    (next : Guided property (g ()) { m with context := f m.context } done halted) :
    Guided property (modifyContext f >>= g) m done halted :=
  .bind (Alike.modifyContext (n := 0) f).metered (.of_leads next)

theorem Guided.emit (next : Guided property (g ()) (m.emit e) done halted) :
    Guided property (emit e >>= g) m done halted :=
  .bind (Alike.emit (n := 0) e).metered (.of_leads next)

theorem Guided.pay (stop : m.budget = 0 → halted (.stopped point) m)
    (next : property m.budget point (m.withBudget 0) → ∀ n, m.budget = n + 1 →
      Guided property (g ()) (m.withBudget n) done halted) :
    Guided property (Analysis.spend point >>= g) m done halted :=
  .bind (metered_spend point) (.spend stop next)

end

/-! ### Edges -/

section

variable {property : Property} {halted : Halt → Machine → Prop} {m : Machine} {walk : Walker}
  {done : Unit → Machine → Prop}

theorem guided_walkMergePoint {label : String} {params : List Parameter} (metered : Metered (walk arrival))
    (inner : Guided property (walk arrival)
      (m.openRoutine (Routine.addParams { name := label } params) (.mergePointStarted label))
      (fun _ m' => done () (m'.closeRoutine.setRoutine m.act.routine)) halted) :
    Guided property (walkMergePoint walk label params arrival) m done halted := by
  refine .emit (.modifyContext (.read (.modify (.bind metered ?_))))
  exact inner.imp (fun _ m' ends => .read (.modify (.of_leads ends)))

/-- How control arrives at a block. -/
theorem guided_arriveAt (regular : Regular walk) (absent : m.act.func.block? dst = none → MayFail halted m)
    (onward : ∀ block, m.act.func.block? dst = some block →
      (block.isMergePoint → m.act.loops.current.repeatsAt dst) →
      Guided property (walk (.along src dst)) m done halted)
    (again : ∀ block label, m.act.func.block? dst = some block → block.isMergePoint →
      m.act.loops.current.repeatsAt dst = false → m.act.labels.get? (m.act.key dst) = some label →
      done () (m.addStatement (.call label (m.act.routine.continuationParams.map (·.callee)))))
    (merge : ∀ block, m.act.func.block? dst = some block → block.isMergePoint →
      m.act.loops.current.repeatsAt dst = false → m.act.labels.get? (m.act.key dst) = none →
      Guided property (walk (.along src dst))
        ((m.addLabel dst).openRoutine
          (Routine.addParams { name := m.act.mergeLabel dst } m.act.routine.continuationParams)
          (.mergePointStarted (m.act.mergeLabel dst)))
        (fun _ m' => done () (m'.closeRoutine.setRoutine (m.addLabel dst).act.routine)) halted) :
    Guided property (arriveAt walk src dst) m done halted := by
  refine .read ?_
  split
  · next none => exact (absent none).failWith _
  · next block found =>
    split
    · next straight =>
      refine onward block found fun isMerge => ?_
      simpa [isMerge] using straight
    · next other =>
      simp only [Bool.or_eq_true, Bool.not_eq_true', not_or, Bool.not_eq_false, Bool.not_eq_true] at other
      obtain ⟨isMerge, fresh⟩ := other
      split
      · next label known => exact .of_leads (again block label found isMerge fresh known)
      · next unknown =>
        exact .modify (.modifyRoutine
          (guided_walkMergePoint (regular _).metered (merge block found isMerge fresh unknown)))

theorem guided_followEdge (stop : m.budget = 0 → halted (.stopped (.edge src dst)) m)
    (goes : property m.budget (.edge src dst) (m.withBudget 0) → ∀ n, m.budget = n + 1 →
      Guided property (arriveAt walk src dst) (m.withBudget n) done halted) :
    Guided property (followEdge walk src dst) m done halted := .pay stop goes

/-! ### Branches -/

theorem leads_takeBack {done : List Statement → Machine → Prop} :
    Leads (changeRoutine (·.takeBack)) m done halted ↔
      match m.act.routine.waiting with
      | [] => halted (.failed ⟨.protocol (.emptyStack m.act.routine.name), none⟩) m
      | stmts :: waiting => done stmts (m.setRoutine { m.act.routine with waiting }) := by
  rw [leads_changeRoutine, Routine.takeBack]
  cases m.act.routine.waiting <;> exact Iff.rfl

/-- Both sides are followed from the same loops; their statements are the sides of one branch. -/
theorem guided_walkBothWays (regular : Regular walk)
    (sides : Guided property (followEdge walk src onTrue) m.setAside
      (fun _ m₁ => Guided property (followEdge walk src onFalse) (m₁.setAside.resetLoops m.act.loops)
        (fun _ m₂ => MayFail halted m₂ ∧
          ∀ thenBody before rest, m₂.act.routine.waiting = thenBody :: before :: rest →
            done () (m₂.setRoutine (Routine.addBranch { m₂.act.routine with stmts := before, waiting := rest }
              thenBody m₂.act.routine.stmts)))
        halted)
      halted) : Guided property (walkBothWays walk src onTrue onFalse) m done halted := by
  refine .read (.modifyRoutine (.bind (alike_followEdge regular src onTrue).metered ?_))
  refine sides.imp (fun _ m₁ second => ?_)
  refine .modifyRoutine (.modify (.bind (alike_followEdge regular src onFalse).metered ?_))
  refine second.imp (fun _ m₂ joined => ?_)
  obtain ⟨fail, joined⟩ := joined
  have failed (e : Protocol.Error) (m' : Machine) (seen : m'.Revisits ↔ m₂.Revisits) :
      halted (.failed ⟨.protocol e, none⟩) m' := fail _ m' (fun _ eq => nomatch eq) seen
  refine .modifyRoutine (.of_leads ?_)
  refine leads_bind.2 (leads_takeBack.2 (leads_bind.2 (leads_takeBack.2 ?_)))
  cases waits : m₂.act.routine.waiting with
  | nil => exact failed _ _ Iff.rfl
  | cons thenBody outer =>
    refine leads_bind.2 (leads_takeBack.2 ?_)
    cases outer with
    | nil => exact failed _ _ Iff.rfl
    | cons before rest => exact joined thenBody before rest waits

theorem leads_takeBody {done : List Statement → Machine → Prop} :
    Leads takeBody m done halted ↔
      match m.act.routine.waiting with
      | [] => halted (.failed ⟨.protocol (.emptyStack m.act.routine.name), none⟩) m
      | stmts :: waiting => done m.act.routine.stmts (m.setRoutine { m.act.routine with stmts, waiting }) := by
  rw [takeBody, leads_changeRoutine, Routine.takeBack]
  cases m.act.routine.waiting <;> exact Iff.rfl

theorem leads_changeWith {f : Routine → Except Protocol.Error Routine} :
    Leads (changeRoutine fun r => do return ((), ← f r)) m done halted ↔
      match f m.act.routine with
      | .ok r => done () (m.setRoutine r)
      | .error e => halted (.failed ⟨.protocol e, none⟩) m := by
  rw [leads_changeRoutine]
  cases f m.act.routine with
  | ok r => exact Iff.rfl
  | error e => exact Iff.rfl

/-- What an edge leads to becomes the body of a case. -/
theorem guided_collectCase {slot : Nat} (regular : Regular walk)
    (body : Guided property (followEdge walk src dst) m.setAside
      (fun _ m₁ => MayFail halted m₁ ∧ ∀ before rest, m₁.act.routine.waiting = before :: rest →
        ∀ r, Routine.extendCaseOf { m₁.act.routine with stmts := before, waiting := rest } slot case
            m₁.act.routine.stmts = .ok r →
          done () (m₁.setRoutine r))
      halted) : Guided property (collectCase walk src dst slot case) m done halted := by
  refine .bind (alike_collect regular src dst).metered (.modifyRoutine ?_)
  refine .bind (alike_followEdge regular src dst).metered (body.imp (fun _ m₁ ends => ?_))
  obtain ⟨fail, ends⟩ := ends
  have failed (e : Protocol.Error) (m' : Machine) (seen : m'.Revisits ↔ m₁.Revisits) :
      halted (.failed ⟨.protocol e, none⟩) m' := fail _ m' (fun _ eq => nomatch eq) seen
  refine .of_leads (leads_takeBody.2 ?_)
  cases waits : m₁.act.routine.waiting with
  | nil => exact failed _ _ Iff.rfl
  | cons before rest =>
    refine .of_leads (leads_changeWith.2 ?_)
    split
    · next r extended => exact ends before rest waits r extended
    · exact failed _ _ Iff.rfl

/-- A test for a case is a branch like any other where the select is not at hand. -/
theorem guided_walkCaseTest (regular : Regular walk)
    (stray : ∀ e, Guided property (walkBothWays walk src onTrue onFalse) (m.emit (.strayCase m.act.routine.name e))
      done halted)
    (cases : site.routine = m.act.routine.name ∧ m.act.routine.isSelectAt site.slot →
      Guided property (collectCase walk src onTrue site.slot case) m (fun _ m₁ =>
        (case + 1 = site.cases → site.blocking = false →
          Guided property (collectCase walk src onFalse site.slot site.cases)
            (m₁.resetLoops m.act.loops) done halted) ∧
        Guided property (followEdge walk src onFalse) (m₁.resetLoops m.act.loops) done halted)
      halted) : Guided property (walkCaseTest walk src onTrue onFalse site case) m done halted := by
  refine .read ?_
  split
  · exact .emit (stray _)
  · next here =>
    have atHand : site.routine = m.act.routine.name ∧ m.act.routine.isSelectAt site.slot := by simpa using here
    refine .bind (alike_collectCase regular src onTrue _ _).metered ((cases atHand).imp ?_)
    intro _ m₁ ends
    refine .modify ?_
    split
    · next last =>
      simp only [Bool.and_eq_true, decide_eq_true_eq, Bool.not_eq_true'] at last
      exact ends.1 last.1 last.2
    · exact ends.2

/-- The machine after steps that only report something. -/
structure Logged (m m' : Machine) : Prop where
  eq : ∃ log, m' = { m with log }
  revisits : m'.Revisits ↔ m.Revisits

theorem Logged.push (m : Machine) (other : ∀ block, e ≠ .blockRevisited block) : Logged m (m.emit e) :=
  ⟨⟨_, rfl⟩, m.revisits_emit other⟩

theorem Logged.trans (first : Logged m m') (second : Logged m' m'') : Logged m m'' := by
  obtain ⟨⟨log, rfl⟩, revisits⟩ := first
  obtain ⟨⟨log', rfl⟩, revisits'⟩ := second
  exact ⟨⟨log', rfl⟩, revisits'.trans revisits⟩

theorem Logged.quiet (logged : Logged m m') : Quiet m m' := by
  obtain ⟨⟨log, rfl⟩, revisits⟩ := logged
  exact ⟨rfl, ⟨[], by simp, rfl⟩, rfl, rfl, revisits, fun _ => Nat.le_refl _⟩

theorem leads_noteCommaOk (cond : Operand) (m : Machine) :
    Leads (noteCommaOk cond) m (fun _ m' => Logged m m') fun _ _ => False := by
  rw [noteCommaOk, leads_bind, leads_activation]
  split
  · split
    · exact .push m nofun
    · exact ⟨⟨m.log, rfl⟩, Iff.rfl⟩
  · exact ⟨⟨m.log, rfl⟩, Iff.rfl⟩

/-- The machine at a branch, once the branch is taken into account as one of a loop. -/
def Settled (cond : Operand) (onTrue onFalse : Nat) (arrival : Arrival) (m m' : Machine) : Prop :=
  ∃ l, Turn m.act arrival (.perform (.branch cond onTrue onFalse)) l ∧ Logged (m.setLoop l) m'

section Settled

variable {cond : Operand} {onTrue onFalse : Nat} {arrival : Arrival} {m' : Machine}

theorem Settled.turned (settled : Settled cond onTrue onFalse arrival m m') :
    Turned (.perform (.branch cond onTrue onFalse)) arrival m m' :=
  settled.imp fun _ both => ⟨both.1, both.2.quiet⟩

theorem Settled.budget (settled : Settled cond onTrue onFalse arrival m m') : m'.budget = m.budget := by
  obtain ⟨l, _, ⟨log, rfl⟩, _⟩ := settled
  rfl

theorem Settled.logged (settled : Settled cond onTrue onFalse arrival m m') (logged : Logged m' m'') :
    Settled cond onTrue onFalse arrival m m'' :=
  settled.imp fun _ both => ⟨both.1, both.2.trans logged⟩

theorem leads_settle (cond : Operand) (onTrue onFalse : Nat) (arrival : Arrival) (m : Machine) :
    Leads (settleLoop arrival) m (fun _ m' => Settled cond onTrue onFalse arrival m m') fun _ _ => False := by
  rw [settleLoop, leads_bind, leads_activation]
  split
  · exact ⟨_, .settle, ⟨m.log, rfl⟩, Iff.rfl⟩
  · exact ⟨_, .stay _, ⟨m.log, rfl⟩, Iff.rfl⟩

end Settled

/-- The branch of a static loop goes one way; any other goes both ways, or fills in the cases of a
select. -/
theorem guided_branch
    (one : ∀ m₀ next, Settled cond onTrue onFalse arrival m m₀ → m₀.act.loops.current.isStatic →
      next = onTrue ∨ next = onFalse → Guided property (followEdge walk arrival.block next) m₀ done halted)
    (test : ∀ m₀ site case, Settled cond onTrue onFalse arrival m m₀ →
      selectTest? m₀.act cond = some (site, case) →
      Guided property (walkCaseTest walk arrival.block onTrue onFalse site case) m₀ done halted)
    (both : ∀ m₀, Settled cond onTrue onFalse arrival m m₀ →
      Guided property (walkBothWays walk arrival.block onTrue onFalse) m₀ done halted) :
    Guided property (branch walk arrival cond onTrue onFalse) m done halted := by
  refine .bind (Alike.of_composed (n := 0) (composed_settleLoop trivial arrival)).metered (.of_leads ?_)
  refine (leads_settle cond onTrue onFalse arrival m).surely fun _ m₀ settled => .read ?_
  dsimp only
  split
  · next static =>
    have known : m₀.act.loops.current.isStatic := by simp_all
    refine .emit (one _ _ (settled.logged (.push m₀ ?_)) known (by split <;> simp))
    exact nofun
  · split
    · next found => exact test m₀ _ _ settled found
    · refine .bind (Quietly.of_composed (composed_noteCommaOk cond)).metered (.of_leads ?_)
      exact (leads_noteCommaOk cond m₀).surely fun _ m₁ logged => both m₁ (settled.logged logged)

/-- The one edge is followed and then, from loops known before, the other. The statements do not matter. -/
abbrev GuidedSides (property : Property) (walk : Walker) (src onTrue onFalse : Nat) (loops : Nest) (m : Machine)
    (done : Unit → Machine → Prop) (halted : Halt → Machine → Prop) : Prop :=
  Guided property (followEdge walk src onTrue) m
    (fun _ m₁ => MayFail halted m₁ ∧ ∀ r, Guided property (followEdge walk src onFalse)
      ((m₁.setRoutine r).resetLoops loops)
      (fun _ m₂ => MayFail halted m₂ ∧ ∀ r, done () (m₂.setRoutine r)) halted)
    halted

theorem guided_sides (regular : Regular walk)
    (sides : ∀ r, GuidedSides property walk src onTrue onFalse m.act.loops (m.setRoutine r) done halted) :
    Guided property (walkBothWays walk src onTrue onFalse) m done halted := by
  refine guided_walkBothWays regular ((sides _).imp (fun _ m₁ ends => ?_))
  exact (ends.2 _).imp (fun _ m₂ ends => ⟨ends.1, fun _ _ _ _ => ends.2 _⟩)

theorem guided_caseSides (regular : Regular walk)
    (sides : ∀ m₀ r, Quiet m m₀ → m₀.budget = m.budget →
      GuidedSides property walk src onTrue onFalse m.act.loops (m₀.setRoutine r) done halted) :
    Guided property (walkCaseTest walk src onTrue onFalse site case) m done halted := by
  refine guided_walkCaseTest regular (fun e => guided_sides regular fun r => ?_) ?_
  · exact sides _ r (.push m nofun) rfl
  · intro _
    refine guided_collectCase regular ((sides m _ (.refl m) rfl).imp (fun _ m₁ ends => ⟨ends.1, ?_⟩))
    intro before rest _ r _
    refine ⟨fun _ _ => guided_collectCase regular ((ends.2 _).imp (fun _ m₂ ends => ⟨ends.1, ?_⟩)), ?_⟩
    · exact fun _ _ _ r _ => ends.2 r
    · exact (ends.2 r).imp (fun _ m₂ ends => ends.2 m₂.act.routine)

theorem guided_branchSides (regular : Regular walk)
    (one : ∀ m₀ next, Turned (.perform (.branch cond onTrue onFalse)) arrival m m₀ → m₀.budget = m.budget →
      next = onTrue ∨ next = onFalse → Guided property (followEdge walk arrival.block next) m₀ done halted)
    (two : ∀ m₀ r, Turned (.perform (.branch cond onTrue onFalse)) arrival m m₀ → m₀.budget = m.budget →
      GuidedSides property walk arrival.block onTrue onFalse m₀.act.loops (m₀.setRoutine r) done halted) :
    Guided property (branch walk arrival cond onTrue onFalse) m done halted := by
  refine guided_branch (fun m₀ next settled _ either => one m₀ next settled.turned settled.budget either) ?_ ?_
  · intro m₀ site case settled _
    refine guided_caseSides regular fun m₁ r quiet same => ?_
    have led := two m₁ r (settled.turned.quiet quiet) (same.trans settled.budget)
    rwa [quiet.loops] at led
  · exact fun m₀ settled => guided_sides regular fun r => two m₀ r settled.turned settled.budget

/-! ### Calls -/

/-- An activation without what was handed to it. -/
def Activation.unhanded (a : Activation) : Activation :=
  { a with locals := {}, names := {}, storage := {}, routine := { a.routine with params := [] } }

/-- A new activation of `f` for a call or spawn from `caller`. -/
structure Newcomer (caller : Activation) (f : Function) (a : Activation) : Prop where
  start : ∃ seq, a.unhanded = Activation.start f seq (caller.callers ++ [caller.func.name]) f.name
  distinct : Routine.Distinct a.routine.params

section Newcomer

variable {caller a : Activation} {f : Function} (new : Newcomer caller f a)
include new

theorem Newcomer.func : a.func = f := new.start.elim fun _ eq => congrArg (·.func) eq

theorem Newcomer.callers : a.callers = caller.callers ++ [caller.func.name] :=
  new.start.elim fun _ eq => congrArg (·.callers) eq

theorem Newcomer.name : a.routine.name = f.name := new.start.elim fun _ eq => congrArg (·.routine.name) eq

end Newcomer

/-- An activation comes last in the queue, and none of its function was there before. -/
theorem TaskQueue.enqueue?_eq_some {q q' : TaskQueue} (queued : q.enqueue? a = some q') :
    a.func.name ∉ q.scheduled ∧ q' = ⟨q.waiting ++ [a], a.func.name :: q.scheduled⟩ := by
  unfold enqueue? at queued
  split at queued
  · exact nomatch queued
  · next new => exact ⟨by simpa using new, (Option.some.inj queued).symm⟩

/-- An activation that nothing is interpreted of. -/
structure Unbegun (a : Activation) : Prop where
  start : a.unhanded = Activation.start a.func a.seq a.callers a.func.name
  distinct : Routine.Distinct a.routine.params

theorem Newcomer.unbegun {caller : Activation} {f : Function} (new : Newcomer caller f a) : Unbegun a := by
  obtain ⟨⟨seq, start⟩, distinct⟩ := new
  have func : a.func = f := congrArg (·.func) start
  have number : a.seq = seq := congrArg (·.seq) start
  have callers : a.callers = caller.callers ++ [caller.func.name] := congrArg (·.callers) start
  exact ⟨by rw [start, func, number, callers], distinct⟩

section Unbegun

variable {a : Activation} (unbegun : Unbegun a)
include unbegun

theorem Unbegun.name : a.routine.name = a.func.name := congrArg (·.routine.name) unbegun.start

theorem Unbegun.stmts : a.routine.stmts = [] := congrArg (·.routine.stmts) unbegun.start

theorem Unbegun.waiting : a.routine.waiting = [] := congrArg (·.routine.waiting) unbegun.start

theorem Unbegun.loops : a.loops = {} := congrArg (·.loops) unbegun.start

theorem Unbegun.labels : a.labels = {} := congrArg (·.labels) unbegun.start

theorem Unbegun.visited : a.visited = [] := congrArg (·.visited) unbegun.start

end Unbegun

/-- What handing something over keeps of an activation. -/
def Handed (callee a : Activation) : Prop :=
  a.unhanded = callee.unhanded ∧ (Routine.Distinct callee.routine.params → Routine.Distinct a.routine.params)

theorem leads_hand (types : TypeTable) (caller callee : Activation) (param : Param) (v : Instance) (m : Machine) :
    Leads (hand types caller callee param v) m fun a _ => Handed callee a := by
  rw [hand, leads_bind, leads_emit, leads_pure]
  cases caller.storage.get? v <;> cases types.carriesChan param.ty <;>
    exact ⟨rfl, fun distinct => by first | exact distinct | exact distinct.addParam _⟩

theorem leads_handAll (types : TypeTable) (caller callee : Activation) (handed : List (Param × Option Instance))
    (m : Machine) : Leads (handAll types caller callee handed) m fun a _ => Handed callee a := by
  induction handed generalizing callee m with
  | nil => exact ⟨rfl, id⟩
  | cons entry rest ih =>
    match entry with
    | (param, some v) =>
      rw [handAll, leads_bind]
      refine (leads_hand types caller callee param v m).imp fun a m' first => ?_
      exact (ih a m').imp fun _ _ later => ⟨later.1.trans first.1, later.2 ∘ first.2⟩
    | (param, none) =>
      rw [handAll, leads_bind, leads_emit]
      exact ih callee _

/-- The activation got the next number of its function. -/
structure Numbered (m m' : Machine) (a : Activation) : Prop where
  fresh : m.context.count a.func.name ≤ a.seq
  taken : a.seq < m'.context.count a.func.name

theorem leads_numberActivation (func : String) (m : Machine) :
    Leads (numberActivation func) m
      (fun seq m' => seq = m.context.count func ∧ m'.context.count func = seq + 1) fun _ _ => False := by
  refine ⟨rfl, (m.context.count_numberActivation func func).trans (if_pos rfl)⟩

/-- An activation for a call is prepared, and not paid for yet. -/
def prepare (types : TypeTable) (f : Function) (args : List Operand) (captures : List Instance)
    (receiver : Option Instance) : Run Activation := do
  let caller ← activation
  let seq ← numberActivation f.name
  let values ← args.mapM instanceOf?
  handAll types caller (Activation.start f seq (caller.callers ++ [caller.func.name]) f.name)
    (f.params.zip ((receiver.map some).toList ++ values) ++ f.freeVars.zip (captures.map some))

theorem calleeActivation_eq (types : TypeTable) (f : Function) (args : List Operand) (captures : List Instance)
    (receiver : Option Instance) :
    calleeActivation types f args captures receiver =
      prepare types f args captures receiver >>= fun a => spend (.handOver f.name a.routine.params) >>=
        fun _ => pure a := by
  simp only [calleeActivation, prepare, bind_assoc]

theorem composed_prepare {reach : Reach} (types : TypeTable) (f : Function) (args : List Operand)
    (captures : List Instance) (receiver : Option Instance) :
    Composed reach (prepare types f args captures receiver) :=
  .bind .activation fun _ => .bind (composed_numberActivation _) fun _ => .bind (.mapM composed_instanceOf? args)
    fun _ => composed_handAll types _ _ _

/-- What preparing an activation comes to. -/
structure Readied (f : Function) (m : Machine) (a : Activation) (m' : Machine) : Prop where
  quiet : Quiet m m'
  budget : m'.budget = m.budget
  start : a.unhanded = Activation.start f (m.context.count f.name) (m.act.callers ++ [m.act.func.name]) f.name
  distinct : Routine.Distinct a.routine.params
  counted : m.context.count f.name < m'.context.count f.name

section Readied

variable {types : TypeTable} {args : List Operand} {captures : List Instance} {receiver : Option Instance}

theorem readied (prepared : prepare types f args captures receiver m = .ok a m') : Readied f m a m' := by
  have leads : Leads (prepare types f args captures receiver) m fun a m' => Readied f m a m' := by
    rw [prepare, leads_bind, leads_activation, leads_bind]
    refine (((quietly_numberActivation _).leads m).and (leads_numberActivation f.name m)).weaken ?_ fun _ _ _ => trivial
    rintro seq m₁ ⟨⟨quiet₁, same₁⟩, rfl, counted⟩
    rw [leads_bind]
    refine ((Quietly.of_composed (.mapM composed_instanceOf? args)).leads m₁).partly fun values m₂ ⟨quiet₂, same₂⟩ => ?_
    refine (((Quietly.of_composed (composed_handAll types _ _ _)).leads m₂).and (leads_handAll types _ _ _ m₂)).weaken ?_
      fun _ _ _ => trivial
    rintro a m₃ ⟨⟨quiet₃, same₃⟩, start, distinct⟩
    have later := Nat.le_trans (quiet₂.counts f.name) (quiet₃.counts f.name)
    rw [counted] at later
    exact ⟨(quiet₁.trans quiet₂).trans quiet₃, same₃.trans (same₂.trans same₁), start,
      distinct List.nodup_nil, later⟩
  exact leads.ok prepared

/-- Preparing an activation is paid for once everything is handed over. -/
theorem guided_calleeExactly {done : β → Machine → Prop} {g : Activation → Run β} (fail : MayFail halted m)
    (stop : ∀ a m', prepare types f args captures receiver m = .ok a m' → m'.budget = 0 →
      halted (.stopped (.handOver f.name a.routine.params)) m')
    (goes : ∀ a m' n, prepare types f args captures receiver m = .ok a m' → m'.budget = n + 1 →
      property (n + 1) (.handOver f.name a.routine.params) (m'.withBudget 0) →
      Guided property (g a) (m'.withBudget n) done halted) :
    Guided property (calleeActivation types f args captures receiver >>= g) m done halted := by
  rw [calleeActivation_eq, bind_assoc]
  refine .exactly (.of_composed (composed_prepare types f args captures receiver)) fail fun a m' prepared => ?_
  rw [bind_assoc]
  refine .pay (stop a m' prepared) fun reached n pays => ?_
  rw [pure_bind]
  exact goes a m' n prepared pays (pays ▸ reached)

end Readied

theorem Program.function?_name {name : String} (found : program.function? name = some f) : f.name = name := by
  simpa using List.find?_some found

/-- A target that is interpreted is a function of the program with a body. -/
def Target.Known (program : Program) : Target → Prop
  | .routine f _ _ => program.function? f.name = some f ∧ f.hasBody
  | .external _ => True

theorem leads_routineNamed (program : Program) (name : String) (captures : List Instance)
    (receiver : Option Instance) (m : Machine) :
    Leads (routineNamed program name captures receiver) m fun t _ => t.Known program := by
  unfold routineNamed
  split
  · next f found =>
    rw [leads_pure]
    split
    · next body => exact ⟨(Program.function?_name found).symm ▸ found, body⟩
    · trivial
  · trivial

theorem leads_target (program : Program) (callee : Callee) (m : Machine) :
    Leads (target program callee) m fun t _ => t.Known program := by
  have named (name : String) (captures : List Instance) (receiver : Option Instance) (m : Machine) :=
    leads_routineNamed program name captures receiver m
  cases callee with
  | static func => exact named func [] none m
  | builtin name => trivial
  | value x =>
    rw [target, leads_bind]
    refine leads_of (fun i m₁ _ => ?_) fun _ _ _ => trivial
    rw [leads_bind, leads_context]
    split
    · exact named _ _ none m₁
    · trivial
  | invoke receiver method =>
    rw [target, methodTarget, leads_bind]
    refine leads_of (fun recv m₁ _ => ?_) fun _ _ _ => trivial
    rw [leads_bind, leads_activation]
    dsimp only
    split
    · trivial
    · split
      · trivial
      · split
        · trivial
        · split
          · trivial
          · exact named _ [] (some recv) m₁

/-- The routine of the current activation is begun, its body walked from the entry, and the routine closed. -/
theorem guided_walkFunction (regular : Regular walk)
    (body : Guided property (walk .entry) (m.openRoutine m.act.routine .routineStarted)
      (fun _ m' => done () m'.closeRoutine) halted) : Guided property (walkFunction walk) m done halted := by
  refine .emit (.read (.modifyContext (.bind (regular .entry).metered ?_)))
  exact body.imp (fun _ m' ends => .read (.of_leads ends))

theorem Guided.within {x : Run Unit} {inner : Activation} {g : Activation → Run α} {done : α → Machine → Prop}
    (regular : Alike 0 x x)
    (body : Guided property x { m with act := inner }
      (fun _ m' => Guided property (g m'.act) { m' with act := m.act } done halted) halted) :
    Guided property (Analysis.within inner x >>= g) m done halted := by
  refine .bind (regular.within inner).metered (.read (.modify ?_))
  refine .bind regular.metered (body.imp (fun _ m' ends => ?_))
  exact .read (.modify (.of_leads ends))

/-- A function is found for a call, and an activation of it prepared. -/
inductive Prepares (program : Program) (c : Call) (m : Machine) (f : Function) (a : Activation) (m₂ : Machine) : Prop
  | intro {captures : List Instance} {receiver : Option Instance} {m₁ : Machine}
    (found : target program c.callee m = .ok (.routine f captures receiver) m₁)
    (prepared : prepare program.types f c.args captures receiver m₁ = .ok a m₂)

/-- What is known of it. -/
structure Readies (program : Program) (m : Machine) (f : Function) (a : Activation) (m₂ : Machine) : Prop where
  quiet : Quiet m m₂
  budget : m₂.budget = m.budget
  known : program.function? f.name = some f ∧ f.hasBody
  newcomer : Newcomer m.act f a
  numbered : Numbered m m₂ a

theorem Prepares.readies (prepares : Prepares program c m f a m'') : Readies program m f a m'' := by
  obtain ⟨found, prepared⟩ := prepares
  obtain ⟨quiet, same⟩ := ((quietly_target program c.callee).leads m).ok found
  obtain ⟨quiet', same', start, distinct, counted⟩ := readied prepared
  rw [quiet.func, quiet.callers] at start
  have func : a.func = f := congrArg (·.func) start
  have seq := congrArg (·.seq) start
  refine ⟨quiet.trans quiet', same'.trans same, (leads_target program c.callee m).ok found,
    ⟨⟨_, start⟩, distinct⟩, ?_, ?_⟩
  · rw [func, show a.seq = _ from seq]
    exact quiet.counts f.name
  · rw [func, show a.seq = _ from seq]
    exact counted

theorem Quiet.reenters (quiet : Quiet m m') (name : String) : m'.act.reenters name = m.act.reenters name := by
  rw [Activation.reenters, quiet.func, quiet.callers, Activation.reenters]

/-- The ways a call can go, each with what was done exactly. -/
theorem guided_callExactly {result : Result} (regular : Regular walk) (fail : MayFail halted m)
    (builtin : ∀ name m', c.callee = .builtin name → callBuiltin name c.args result m = .ok () m' → done () m')
    (foreign : ∀ routine m₁ e m', (∀ block, e ≠ .blockRevisited block) →
      target program c.callee m = .ok (.external routine) m₁ →
      bindForeignResult program.types routine result (m₁.emit e) = .ok () m' → done () m')
    (recursive : ∀ t m₁ e m', (∀ block, e ≠ .blockRevisited block) →
      target program c.callee m = .ok t m₁ →
      bindFreshResult result (m₁.emit e) = .ok () m' → done () m')
    (stop : ∀ f a m₂, Prepares program c m f a m₂ → m₂.budget = 0 →
      halted (.stopped (.handOver f.name a.routine.params)) m₂)
    (enter : ∀ f a m₂ n, (∀ name, c.callee ≠ .builtin name) → Prepares program c m f a m₂ →
      m.act.reenters f.name = false → m₂.budget = n + 1 →
      property (n + 1) (.handOver f.name a.routine.params) (m₂.withBudget 0) →
      Guided property (walkFunction walk) { m₂.withBudget n with act := a }
        (fun _ m₃ => MayFail halted m₃ ∧ ∀ m₄, takeResult program.types m₃.act result
          (({ m₃ with act := m₂.act } : Machine).addStatement
            (.call m₃.act.routine.name (a.routine.params.map (·.caller)))) = .ok () m₄ → done () m₄)
        halted) : Guided property (call program walk c result) m done halted := by
  unfold call
  split
  · next name same => exact .ends_exactly (quietly_callBuiltin _ _ _) fail fun _ m' => builtin name m' same
  · next other =>
    refine .exactly (quietly_target program c.callee) fail fun t m₁ found => ?_
    have quiet := (((quietly_target program c.callee).leads m).ok found).1
    have fail₁ := fail.of_quiet quiet
    cases t with
    | external routine =>
      exact .emit (.ends_exactly (quietly_bindForeignResult _ routine result) (fail₁.of_quiet (.push _ nofun))
        fun _ m' => foreign _ m₁ _ m' nofun found)
    | routine f captures receiver =>
      refine .read ?_
      split
      · exact .emit (.ends_exactly (quietly_bindFreshResult result) (fail₁.of_quiet (.push _ nofun))
          fun _ m' => recursive _ m₁ _ m' nofun found)
      · next entered =>
        have fresh := Bool.eq_false_iff.2 (quiet.reenters f.name ▸ entered)
        refine guided_calleeExactly fail₁ (fun a m₂ prepared => stop f a m₂ ⟨found, prepared⟩) ?_
        intro a m₂ n prepared pays reached
        refine .within (alike_walkFunction regular)
          ((enter f a m₂ n other ⟨found, prepared⟩ fresh pays reached).imp fun _ m₃ ends => ?_)
        exact .bind (Alike.addStatement (n := 0) _).metered (.of_leads
          (.ends_exactly (quietly_takeResult _ _ result) ends.1 fun _ => ends.2))

/-- A call that interprets nothing stays inside the block. Any other runs a new activation of a function
that is not entered yet, and is a call statement of the caller. -/
theorem guided_call {result : Result} (regular : Regular walk) (fail : MayFail halted m)
    (stop : m.budget = 0 → ∀ func channels m', Quiet m m' → m'.budget = m.budget →
      halted (.stopped (.handOver func channels)) m') (silent : ∀ m', Quiet m m' →
        m'.budget = m.budget → done () m')
    (enter : ∀ f callee m' n, (∀ name, c.callee ≠ .builtin name) → Readies program m f callee m' →
      m.budget = n + 1 →
      m.act.reenters f.name = false → property m.budget (.handOver f.name callee.routine.params) (m'.withBudget 0) →
      Guided property (walkFunction walk) { m'.withBudget n with act := callee }
        (fun _ m₁ => MayFail halted m₁ ∧
          ∀ m₂, Quiet (({ m₁ with act := m'.act } : Machine).addStatement
              (.call m₁.act.routine.name (callee.routine.params.map (·.caller)))) m₂ →
            m₂.budget = m₁.budget → done () m₂)
        halted) : Guided property (call program walk c result) m done halted := by
  have quiets {x : Run Unit} {t : Target} {m₁ m' : Machine} {e : Event} (quietly : Quietly x)
      (other : ∀ block, e ≠ .blockRevisited block) (found : target program c.callee m = .ok t m₁)
      (ends : x (m₁.emit e) = .ok () m') : done () m' := by
    have read := ((quietly_target program c.callee).leads m).ok found
    have led := (quietly.leads _).ok ends
    exact silent m' ((read.1.trans (.push m₁ other)).trans led.1) (led.2.trans read.2)
  refine guided_callExactly regular fail (fun name m' _ ends => ?_)
    (fun _ _ _ _ => quiets (quietly_bindForeignResult _ _ _))
    (fun _ _ _ _ => quiets (quietly_bindFreshResult _)) (fun f a m₂ prepares spent => ?_) ?_
  · have led := ((quietly_callBuiltin name c.args result).leads m).ok ends
    exact silent m' led.1 led.2
  · have ready := prepares.readies
    exact stop (ready.budget ▸ spent) _ _ m₂ ready.quiet ready.budget
  · intro f a m₂ n other prepares fresh pays reached
    have pays : m.budget = n + 1 := prepares.readies.budget.symm.trans pays
    refine (enter f a m₂ n other prepares.readies pays fresh (pays ▸ reached)).imp fun _ m₃ ends =>
      ⟨ends.1, fun m₄ takes => ?_⟩
    have led := ((quietly_takeResult _ _ result).leads _).ok takes
    exact ends.2 m₄ led.1 led.2

/-- The ways a spawn can go, each with what was done exactly. -/
theorem guided_spawnExactly (fail : MayFail halted m)
    (silent : ∀ t m₁ e, (∀ block, e ≠ .blockRevisited block) → target program c.callee m = .ok t m₁ →
      done () (m₁.emit e))
    (stop : ∀ f a m₂, Prepares program c m f a m₂ → m₂.budget = 0 →
      halted (.stopped (.handOver f.name a.routine.params)) m₂)
    (spawned : ∀ f a m₂ n, Prepares program c m f a m₂ → m₂.budget = n + 1 →
      property (n + 1) (.handOver f.name a.routine.params) (m₂.withBudget 0) →
      ∀ m₃, m₃ = (m₂.withBudget n).addStatement (.spawn a.routine.name (a.routine.params.map (·.caller))) →
      (m.act.reenters f.name ∨ m₃.tasks.enqueue? a = none →
        ∀ e, (∀ block, e ≠ .blockRevisited block) → done () (m₃.emit e)) ∧
      ∀ queue, m.act.reenters f.name = false → m₃.tasks.enqueue? a = some queue →
        done () { m₃ with tasks := queue }) :
    Guided property (spawn program c) m done halted := by
  refine .exactly (quietly_target program c.callee) fail fun t m₁ found => ?_
  cases t with
  | external routine => exact .read (.of_leads (silent _ m₁ _ nofun found))
  | routine f captures receiver =>
    have fail₁ := fail.of_quiet (((quietly_target program c.callee).leads m).ok found).1
    refine guided_calleeExactly fail₁ (fun a m₂ prepared => stop f a m₂ ⟨found, prepared⟩) ?_
    intro a m₂ n prepared pays reached
    have prepares : Prepares program c m f a m₂ := ⟨found, prepared⟩
    obtain ⟨dropped, queued⟩ := spawned f a m₂ n prepares pays reached _ rfl
    have reenters := prepares.readies.quiet.reenters f.name
    refine .bind (Alike.addStatement (n := 0) _).metered (.of_leads (.read ?_))
    split
    · next entered => exact .of_leads (dropped (.inl (reenters ▸ entered)) _ nofun)
    · next other =>
      refine .bind (Alike.tasks (n := 0)).metered (.of_leads (leads_tasks.2 ?_))
      dsimp only
      split
      · next queue enqueued => exact .of_leads (queued queue (reenters ▸ Bool.eq_false_iff.2 other) enqueued)
      · next full => exact .of_leads (dropped (.inr full) _ nofun)

/-- A spawn is a statement of the current routine. It puts a new activation into the queue, unless the function is
entered or was put there before. -/
theorem guided_spawn (fail : MayFail halted m)
    (stop : m.budget = 0 → ∀ func channels m', Quiet m m' → m'.budget = m.budget →
      halted (.stopped (.handOver func channels)) m') (silent : ∀ m', Quiet m m' →
        m'.budget = m.budget → done () m')
    (spawned : ∀ f a m' n, Readies program m f a m' → m.budget = n + 1 →
      property m.budget (.handOver f.name a.routine.params) (m'.withBudget 0) →
      ∀ m₁, m₁ = (m'.withBudget n).addStatement (.spawn a.routine.name (a.routine.params.map (·.caller))) →
        (m.act.reenters f.name ∨ m₁.tasks.enqueue? a = none → ∀ m₂, Quiet m₁ m₂ → m₂.budget = n →
          done () m₂) ∧
        ∀ queue, m.act.reenters f.name = false → m₁.tasks.enqueue? a = some queue →
          done () { m₁ with tasks := queue }) : Guided property (spawn program c) m done halted := by
  refine guided_spawnExactly fail (fun _ m₁ e other found => ?_) (fun f a m₂ prepares spent => ?_) ?_
  · have read := ((quietly_target program c.callee).leads m).ok found
    exact silent _ (read.1.trans (.push m₁ other)) read.2
  · have ready := prepares.readies
    exact stop (ready.budget ▸ spent) _ _ m₂ ready.quiet ready.budget
  · intro f a m₂ n prepares pays reached m₃ adds
    have pays : m.budget = n + 1 := prepares.readies.budget.symm.trans pays
    obtain ⟨dropped, queued⟩ := spawned f a m₂ n prepares.readies pays (pays ▸ reached) m₃ adds
    exact ⟨fun stays e other => dropped stays _ (.push m₃ other) (congrArg (·.budget) adds), queued⟩

theorem Guided.forM {f : β → Run Unit} (inv : List β → Machine → Prop) (metered : ∀ b, Metered (f b))
    (step : ∀ b rest m, inv (b :: rest) m → Guided property (f b) m (fun _ => inv rest) halted)
    {bs : List β} (start : inv bs m) : Guided property (bs.forM f) m (fun _ => inv []) halted := by
  induction bs generalizing m with
  | nil => exact .of_leads start
  | cons b rest ih =>
    exact .bind (metered b) ((step b rest m start).imp (fun _ _ kept => ih kept))

/-! ### Instructions, blocks and programs -/

/-- An instruction stays inside its block, where it may turn the current loop, or is one of those that leave it. -/
theorem guided_interpret {action : Action} (fail : MayFail halted m)
    (stays : ∀ m', Turned action arrival m m' → m'.budget = m.budget → done () m')
    (calls : ∀ c result, (∃ value ty, action = .define value ty (.call c)) ∨ action = .perform (.call c) →
      Guided property (call env.program walk c result) m done halted)
    (jumps : ∀ dst, action = .perform (.jump dst) → Guided property (followEdge walk arrival.block dst)
      m done halted)
    (branches : ∀ cond onTrue onFalse, action = .perform (.branch cond onTrue onFalse) →
      Guided property (branch walk arrival cond onTrue onFalse) m done halted)
    (spawns : ∀ c, action = .perform (.go c) → Guided property (spawn env.program c) m done halted)
    (defers : ∀ c, action = .perform (.defer c) → done () (m.onAct fun a => { a with defers := a.defers ++ [c] }))
    (returns : action = .perform .runDefers → Guided property (runDeferred env.program walk) m done halted) :
    Guided property (interpret env walk arrival action) m done halted := by
  have turns {x : Run Unit} (turning : LeadsTurning x m action arrival) : Guided property x m done halted :=
    .of_leads (.weaken turning (fun _ m' led => stays m' led.1 led.2) fun h m' led => fail h m' led.1 led.2.revisits)
  cases action with
  | define value ty op =>
    rw [interpret]
    obtain ⟨step, quiet, eq⟩ | ⟨edges, rfl⟩ | ⟨sign, x, y, rfl⟩ | ⟨c, rfl⟩ :=
      define_cases env arrival value ty op
    · rw [eq]
      exact turns (.of_quietly quiet m _ arrival)
    · exact turns leads_phi
    · exact turns leads_binary
    · exact calls c _ (.inl ⟨value, ty, rfl⟩)
  | perform effect =>
    rw [interpret]
    obtain ⟨step, quiet, eq⟩ | ⟨dst, rfl⟩ | ⟨cond, onTrue, onFalse, rfl⟩ | ⟨c, rfl⟩ | ⟨c, rfl⟩ |
      ⟨c, rfl⟩ | rfl :=
      perform_cases env arrival effect
    · rw [eq]
      exact turns (.of_quietly quiet m _ arrival)
    · exact jumps dst rfl
    · exact branches cond onTrue onFalse rfl
    · exact spawns c rfl
    · exact .of_leads (defers c rfl)
    · exact calls c none (.inr rfl)
    · exact returns rfl

theorem guided_walkInstr {i : Instr}
    (stop : m.budget = 0 → halted (.stopped (.instr arrival i)) (m.emit (.instrVisited i)))
    (goes : property m.budget (.instr arrival i) ((m.emit (.instrVisited i)).withBudget 0) →
      ∀ n, m.budget = n + 1 →
      Guided property (interpret env walk arrival i.action) ((m.emit (.instrVisited i)).withBudget n) done
        fun h m' => halted (h.locate i.pos) m') : Guided property (walkInstr env walk arrival i) m done halted := by
  exact .located (.emit (.pay stop goes))

/-- The machine that has entered a block. -/
def Machine.enter (m : Machine) (block : Block) (pred : Option Nat) : Machine :=
  (m.resetLoops (m.act.loops.enter block.index block.role).1).emit
    (.blockEntered block.index pred (m.act.loops.enter block.index block.role).1.current.state
      (m.act.loops.enter block.index block.role).2)

theorem noteVisit_eq (a : Activation) (b : Nat) : ∃ visited, a.noteVisit b = { a with visited } := by
  unfold Activation.noteVisit
  split
  · exact ⟨a.visited, rfl⟩
  · exact ⟨_, rfl⟩

theorem guided_visitBlock {block : Block}
    (visited : m.act.hasVisited block.index → done () (m.emit (.blockRevisited block.index)))
    (fresh : m.act.hasVisited block.index = false →
      Guided property (block.instrs.forM (walkInstr env walk arrival)) (m.onAct (·.noteVisit block.index)) done
        halted) : Guided property (visitBlock env walk arrival block) m done halted := by
  refine .read ?_
  split
  · next seen => exact .of_leads (visited seen)
  · next new => exact .modify (fresh (Bool.eq_false_iff.2 new))

theorem guided_enterBlock (absent : m.act.func.block? arrival.block = none → MayFail halted m)
    (visited : ∀ block, m.act.func.block? arrival.block = some block →
      (m.enter block arrival.pred).act.hasVisited block.index →
      done () ((m.enter block arrival.pred).emit (.blockRevisited block.index)))
    (fresh : ∀ block, m.act.func.block? arrival.block = some block →
      (m.enter block arrival.pred).act.hasVisited block.index = false →
      Guided property (block.instrs.forM (walkInstr env walk arrival))
        ((m.enter block arrival.pred).onAct (·.noteVisit block.index)) done halted) :
    Guided property (enterBlock env walk arrival) m done halted := by
  refine .read ?_
  split
  · next none => exact (absent none).failWith _
  · next block found =>
    exact .modify (.emit (guided_visitBlock (visited block found) (fresh block found)))

/-- Waiting activations are taken one by one, each with one less to go. -/
theorem guided_drain (inv : Nat → Machine → Prop) (regular : Regular walk)
    (exhausted : ∀ m, inv 0 m → halted (.stopped .nextTask) m)
    (ends : ∀ count m, inv count m → m.tasks.waiting = [] → done () m)
    (task : ∀ count m a rest, inv (count + 1) m → m.tasks.waiting = a :: rest →
      Guided property (walkFunction walk) { m with tasks := { m.tasks with waiting := rest }, act := a }
        (fun _ m' => inv count { m' with act := m.act }) halted)
    {count : Nat} (start : inv count m) : Guided property (drain walk count) m done halted := by
  induction count generalizing m with
  | zero => exact .of_leads (exhausted m start)
  | succ count ih =>
    refine .bind (Alike.tasks (n := 0)).metered (.of_leads (leads_tasks.2 ?_))
    cases waits : m.tasks.waiting with
    | nil =>
      simp only [TaskQueue.next?, waits]
      exact .of_leads (ends _ m start waits)
    | cons a rest =>
      simp only [TaskQueue.next?, waits]
      refine .bind (Alike.setTasks (n := 0) _).metered (.of_leads ?_)
      exact .within (alike_walkFunction regular) ((task count m a rest start waits).imp
        (fun _ _ kept => ih kept))

theorem guided_initialise (regular : Regular walk)
    (absent : (env.program.function? env.options.init).filter (·.hasBody) = none → done () m)
    (present : ∀ init seq m', (env.program.function? env.options.init).filter (·.hasBody) = some init →
      Quiet m m' → m'.budget = m.budget → Numbered m m' (Activation.start init seq [] m.act.func.name) →
      Guided property (walk .entry) { m' with act := Activation.start init seq [] m.act.func.name }
        (fun _ m₁ => done () { m₁ with act := m'.act.setRoutine m₁.act.routine }) halted) :
    Guided property (initialise env walk) m done halted := by
  unfold initialise
  split
  · next none => exact .of_leads (absent none)
  · next init found =>
    have begun : Quiet m (m.emit (.initialiserStarted init.name)) := .push m nofun
    refine .emit (.bind (quietly_numberActivation _).metered (.of_leads ?_))
    refine (((quietly_numberActivation _).leads _).and (leads_numberActivation init.name _)).weaken ?_
      fun _ _ led => led.2.elim
    rintro seq m' ⟨⟨quiet, same⟩, rfl, next⟩
    refine .read ?_
    have quiet' := begun.trans quiet
    have numbered : Numbered m m' (Activation.start init (m.context.count init.name) [] m.act.func.name) :=
      ⟨Nat.le_refl _, Nat.lt_of_lt_of_eq (Nat.lt_succ_self _) next.symm⟩
    have entered := present init _ m' found quiet' same numbered
    rw [← quiet'.func] at entered
    exact .within (regular .entry) (entered.imp (fun _ _ ends => .of_leads ends))

/-- A program is its initialiser, the entry function and the spawned functions, one after another. -/
theorem guided_analyseWith {done : Protocol → Machine → Prop} (regular : Regular walk)
    (parts : Guided property (initialise env walk) m
      (fun _ m₁ => Guided property (walkFunction walk) m₁
        (fun _ m₂ => Guided property (drain walk (env.program.functions.length + 1)) m₂
          (fun _ m₃ => ∀ m₄, Quiet m₃ m₄ → m₄.budget = m₃.budget →
            done (if env.options.cleanUp then m₃.context.protocol.cleanUp env.options.entry
              else m₃.context.protocol) m₄)
          halted)
        halted)
      halted) : Guided property (analyseWith env walk) m done halted := by
  refine .bind (alike_initialise regular env).metered (parts.imp (fun _ m₁ second => ?_))
  refine .bind (alike_walkFunction regular).metered (second.imp (fun _ m₂ third => ?_))
  refine .bind (alike_drain regular _).metered (third.imp (fun _ m₃ ends => ?_))
  refine .of_leads ?_
  rw [leads_bind, leads_context]
  dsimp only
  split
  · next clean =>
    rw [if_pos clean] at ends
    exact leads_bind.2 (ends _ (.push m₃ nofun) rfl)
  · next keep =>
    rw [if_neg keep] at ends
    exact ends m₃ (.refl m₃) rfl

end

/-! ### Runs from the start -/

/-- The routine the analysis starts from is `entry`. -/
abbrev Enters (p : Program) (name : String) (entry : Function) : Prop :=
  (p.function? name).filter (·.hasBody) = some entry

/-- A state in which some budget stops the analysis of a program. Every larger budget passes through it. -/
def Reachable (p : Program) (o : Options) (point : Point) (m : Machine) : Prop :=
  ∃ budget entry, (p.function? o.entry).filter (·.hasBody) = some entry ∧
    analyse ⟨p, o⟩ (Machine.start p entry budget) = .error (.stopped point) m

theorem regular_walkBlock (env : Env) (depth : Nat) : WalkersAlike 0 (walkBlock env depth) (walkBlock env depth) :=
  fun arrival => alike_walkBlock env arrival (Nat.zero_le depth) (Nat.zero_le depth)

/-- What holds of every state in which a smaller budget stops the analysis guides the whole run. -/
theorem Guided.analyse_timed {budget : Nat} {property : Property} {done : Protocol → Machine → Prop}
    (all : ∀ n ≤ budget, ∀ point m, Analysis.analyse ⟨p, o⟩ (Machine.start p entry n) =
      .error (.stopped point) m → property (budget - n) point m)
    (guided : Guided property (analyseWith ⟨p, o⟩ (walkBlock ⟨p, o⟩ (budget + 1)))
      (Machine.start p entry budget)
      done halted) : Leads (Analysis.analyse ⟨p, o⟩) (Machine.start p entry budget) done halted := by
  rw [Leads, analyse_eq ⟨p, o⟩ (Machine.start p entry budget) (Nat.lt_succ_self budget)]
  refine guided fun n small point m stops => all n small point m ?_
  rw [analyse_eq ⟨p, o⟩ (Machine.start p entry n) (Nat.lt_succ_of_le small)]
  exact stops

theorem Guided.analyse {budget : Nat} {property : Point → Machine → Prop} {done : Protocol → Machine → Prop}
    (found : Enters p o.entry entry)
    (all : ∀ point m, Reachable p o point m → property point m)
    (guided : Guided property (analyseWith ⟨p, o⟩ (walkBlock ⟨p, o⟩ (budget + 1)))
      (Machine.start p entry budget)
      done halted) : Leads (Analysis.analyse ⟨p, o⟩) (Machine.start p entry budget) done halted :=
  Guided.analyse_timed (fun n _ point m stops => all point m ⟨n, entry, found, stops⟩) guided

/-- An analysis whose budget is enough ends in the same way with every larger one. -/
theorem analyse_of_le {budget n : Nat}
    (ends : ¬ Stops (Analysis.analyse ⟨p, o⟩ (Machine.start p entry budget))) (le : budget ≤ n) :
    ∃ left, Analysis.analyse ⟨p, o⟩ (Machine.start p entry n) =
      leaving left (Analysis.analyse ⟨p, o⟩ (Machine.start p entry budget)) := by
  rw [analyse_eq ⟨p, o⟩ (Machine.start p entry budget) (Nat.lt_succ_of_le le)] at ends ⊢
  rw [analyse_eq ⟨p, o⟩ (Machine.start p entry n) (Nat.lt_succ_self n)]
  have metered := (alike_analyseWith (regular_walkBlock ⟨p, o⟩ (n + 1)) ⟨p, o⟩).metered
  obtain ⟨spent, total, again⟩ := metered (Machine.start p entry budget) ends
  have total : budget = spent + _ := total
  obtain ⟨left, rfl⟩ : ∃ left, n = spent + left := ⟨n - spent, by omega⟩
  exact ⟨left, again left⟩

theorem not_stops_leaving {result : EStateM.Result Halt Machine α} (ends : ¬ Stops result) (left : Nat) :
    ¬ Stops (leaving left result) := by
  cases result with
  | ok a m => exact id
  | error h m => cases h <;> exact ends

theorem lt_of_stops {budget n : Nat} (ends : ¬ Stops (Analysis.analyse ⟨p, o⟩ (Machine.start p entry budget)))
    (stops : Analysis.analyse ⟨p, o⟩ (Machine.start p entry n) = .error (.stopped point) m) : n < budget := by
  refine Nat.lt_of_not_le fun le => ?_
  obtain ⟨left, same⟩ := analyse_of_le ends le
  have goes := not_stops_leaving ends left
  rw [← same, stops] at goes
  exact goes trivial

theorem ok_of_toBool {ε α : Type} {result : Except ε α} (succeeds : result.toBool) : ∃ a, result = .ok a := by
  cases result with
  | error e => cases succeeds
  | ok a => exact ⟨a, rfl⟩

end ChanFlow.Analysis
