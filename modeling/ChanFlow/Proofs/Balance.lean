import ChanFlow.Proofs.Guide

/-!
The builder of a routine is used as it is meant to be.

Lists of statements are set aside and taken back across branches, the cases of selects, merge points
and calls. Every step of the walk leaves the lists set aside as it found them, so a list that is asked
for is there; and a select that is extended stands where it was found, because what is followed in
between works on lists of its own.
-/
namespace ChanFlow

open Ssa Protocol

variable {slot : Nat} {m : Machine} {walk : Walker}

/-- The routine under construction, and the lists set aside in it. -/
def Protocol.Routine.scaffold (r : Routine) : String × List (List Statement) := (r.name, r.waiting)

/-- Extending a case of a select that is there succeeds, and the select stays. -/
theorem Protocol.Routine.extendCaseOf_of_isSelectAt {r : Routine} (select : r.isSelectAt slot) (case : Nat)
    (body : List Statement) :
    ∃ r', r.extendCaseOf slot case body = .ok r' ∧ r'.isSelectAt slot ∧ r'.scaffold = r.scaffold := by
  unfold isSelectAt at select
  split at select
  · next cases found =>
    have inside : slot < r.stmts.length := (List.getElem?_eq_some_iff.1 found).1
    exact ⟨{ r with stmts := r.stmts.set slot (.select (cases.modify case (extendCase · body))) },
      by simp [extendCaseOf, found], by simp [isSelectAt, inside], rfl⟩
  · cases select

namespace Analysis

/-- The builder was asked for a list or a select it does not have. -/
def Halt.IsMisuse : Halt → Prop
  | .failed e => ∃ error, e.cause = .protocol error
  | _ => False

@[simp] theorem Halt.isMisuse_locate (pos : Option Position) (h : Halt) : (h.locate pos).IsMisuse ↔ h.IsMisuse := by
  cases h with
  | failed e =>
    have cause : (e.locate pos).cause = e.cause := by
      unfold Error.locate
      split <;> rfl
    simp [Halt.locate, IsMisuse, cause]
  | _ => rfl

/-- Ends with the lists set aside as it found them, and does not misuse the builder. -/
def Balanced {α : Type} (x : Run α) : Prop :=
  ∀ m, Leads x m (fun _ m' => m'.act.routine.scaffold = m.act.routine.scaffold) fun h _ => ¬ h.IsMisuse

section Steps

variable {α β : Type}

namespace Balanced

theorem bind {x : Run α} {f : α → Run β} (first : Balanced x) (next : ∀ a, Balanced (f a)) :
    Balanced (x >>= f) := by
  intro m
  rw [leads_bind]
  refine (first m).imp (fun a m₁ same => ?_)
  exact (next a m₁).imp (fun _ _ same' => same'.trans same)

theorem activation : Balanced activation := fun _ => rfl

theorem emit (e : Event) : Balanced (emit e) := fun _ => rfl

theorem addStatement (s : Statement) : Balanced (addStatement s) := fun _ => rfl

theorem modifyContext (f : Context → Context) : Balanced (modifyContext f) := fun _ => rfl

theorem setTasks (queue : TaskQueue) : Balanced (setTasks queue) := fun _ => rfl

theorem modifyActivation {f : Activation → Activation}
    (same : ∀ a, (f a).routine = a.routine := by exact fun _ => rfl) :
    Balanced (modifyActivation f) := by
  intro m
  simp [same]

theorem spend (point : Point) : Balanced (spend point) := by
  intro m
  simp [leads_spend, Halt.IsMisuse]

theorem located {x : Run α} (balanced : Balanced x) (pos : Option Position) : Balanced (located pos x) := by
  intro m
  simpa using balanced m

theorem within {x : Run Unit} (balanced : Balanced x) (inner : Activation) : Balanced (within inner x) := by
  intro m
  rw [leads_within]
  exact (balanced _).imp (fun _ _ _ => rfl)

end Balanced

theorem Composed.balanced {reach : Reach} {x : Run α} (composed : Composed reach x) : Balanced x := by
  induction composed with
  | pure a => exact fun _ => rfl
  | bind _ _ first next => exact .bind first next
  | failWith cause other =>
    rintro m ⟨e, same⟩
    exact other e same
  | endless ty => exact fun _ misuse => misuse
  | activation => exact .activation
  | context => exact fun _ => rfl
  | modifyActivation skeleton =>
    intro m
    have same := congrArg (fun a : Activation => a.routine.scaffold) (skeleton m.act)
    exact same
  | modifyContext => exact .modifyContext _
  | addStatement => exact .addStatement _
  | emit => exact .emit _
  | changeLoop _ event change =>
    refine .bind .activation fun a => .bind ?_ fun _ => .modifyActivation
    cases event a.loops.current with
    | none => exact fun _ => rfl
    | some e => exact .emit e

theorem Balanced.of_composed {x : Run α} (composed : Composed ⟨True, True, True, True⟩ x) :
    Balanced x := composed.balanced

theorem congruent_balanced : Congruent fun x _ => Balanced x where
  bind := .bind
  composed := Composed.balanced
  emit := .emit
  steer same := .modifyActivation fun a => (same a).1
  addStatement := .addStatement
  modifyContext := .modifyContext

theorem paying_balanced : Paying (fun x _ => Balanced x) fun x _ => Balanced x where
  now := congruent_balanced
  later := congruent_balanced
  pay next := .bind (.spend _) fun _ => next
  within inner balanced := .within balanced inner
  enqueue a := by
    refine .bind (fun _ => rfl) fun queue => ?_
    split
    · exact .setTasks _
    · exact .emit _

end Steps

/-! ### Steps of a walk -/

section Walk

variable {walk : Walker} (balanced : ∀ arrival, Balanced (walk arrival))

include balanced

/-- The routine of a merge point is built beside the one that leads to it. -/
theorem balanced_walkMergePoint (label : String) (params : List Parameter) (arrival : Arrival) :
    Balanced (walkMergePoint walk label params arrival) := by
  intro m
  simp only [walkMergePoint, leads_bind, leads_emit, leads_modifyContext, leads_activation, leads_modifyActivation]
  exact (balanced arrival _).imp (fun _ _ _ => rfl)

theorem balanced_arriveAt (src dst : Nat) : Balanced (arriveAt walk src dst) := by
  refine .bind .activation fun a => ?_
  split
  · exact .of_composed (.failWith _ nofun)
  · split
    · exact balanced _
    · dsimp only
      split
      · exact .addStatement _
      · exact .bind .modifyActivation fun _ => .bind (.addStatement _) fun _ =>
          balanced_walkMergePoint balanced _ _ _

theorem balanced_followEdge (src dst : Nat) : Balanced (followEdge walk src dst) :=
  .bind (.spend _) fun _ => balanced_arriveAt balanced src dst

/-- What an edge leads to is collected in a list of its own: the current one comes back as it was. -/
theorem leads_collect (src dst : Nat) (m : Machine) :
    Leads (collect walk src dst) m
      (fun _ m' => m'.act.routine.stmts = m.act.routine.stmts ∧ m'.act.routine.scaffold = m.act.routine.scaffold)
      fun h _ => ¬ h.IsMisuse := by
  rw [collect, leads_bind, setAside, leads_modifyRoutine, leads_bind]
  refine (balanced_followEdge balanced src dst _).imp (fun _ m₁ same => ?_)
  obtain ⟨name, waiting⟩ := Prod.mk.inj same
  rw [leads_takeBody, waiting]
  exact ⟨rfl, Prod.ext name rfl⟩

/-- A select that stands at its slot before the body of a case is collected stands there when it is
extended, and after. -/
theorem leads_collectCase (src dst slot case : Nat) (select : m.act.routine.isSelectAt slot) :
    Leads (collectCase walk src dst slot case) m
      (fun _ m' => m'.act.routine.isSelectAt slot ∧ m'.act.routine.scaffold = m.act.routine.scaffold)
      fun h _ => ¬ h.IsMisuse := by
  rw [collectCase, leads_bind]
  refine (leads_collect balanced src dst m).imp (fun body m₁ same => ?_)
  have still : m₁.act.routine.isSelectAt slot := by simpa [Routine.isSelectAt, same.1] using select
  obtain ⟨r, extended, selects, stands⟩ := Routine.extendCaseOf_of_isSelectAt still case body
  rw [leads_changeWith, extended]
  exact ⟨selects, stands.trans same.2⟩

/-- The sides of a branch are built on lists of their own, and all three lists set aside are taken back. -/
theorem balanced_walkBothWays (src onTrue onFalse : Nat) : Balanced (walkBothWays walk src onTrue onFalse) := by
  intro m
  simp only [walkBothWays, leads_bind, leads_activation, setAside, leads_modifyRoutine, resetLoops,
    leads_modifyActivation]
  refine (balanced_followEdge balanced src onTrue _).imp (fun _ m₁ first => ?_)
  refine (balanced_followEdge balanced src onFalse _).imp (fun _ m₂ second => ?_)
  obtain ⟨name₁, waiting₁⟩ := Prod.mk.inj first
  obtain ⟨name₂, waiting₂⟩ := Prod.mk.inj second
  have lists : m₂.act.routine.waiting = m₁.act.routine.stmts :: m.act.routine.stmts :: m.act.routine.waiting := by
    rw [waiting₂]
    exact congrArg (_ :: ·) waiting₁
  refine leads_takeBack.2 (leads_takeBack.2 ?_)
  rw [show Routine.waiting _ = _ from lists]
  exact Prod.ext (name₂.trans name₁) rfl

theorem balanced_walkCaseTest (src onTrue onFalse : Nat) (site : OpenSelect) (case : Nat) :
    Balanced (walkCaseTest walk src onTrue onFalse site case) := by
  intro m
  rw [walkCaseTest, leads_bind, leads_activation]
  split
  · exact Balanced.bind (.emit _) (fun _ => balanced_walkBothWays balanced src onTrue onFalse) m
  · next here =>
    have select : m.act.routine.isSelectAt site.slot := by
      simp at here
      exact here.2
    rw [leads_bind]
    refine (leads_collectCase balanced src onTrue site.slot case select).imp (fun _ m₁ first => ?_)
    rw [leads_bind, resetLoops, leads_modifyActivation]
    split
    · refine .imp (leads_collectCase balanced src onFalse site.slot site.cases ?_) (fun _ m₂ second => ?_)
      · exact first.1
      · exact second.2.trans first.2
    · exact (balanced_followEdge balanced src onFalse _).imp (fun _ _ same => same.trans first.2)

theorem balanced_walkInstr (env : Env) (arrival : Arrival) (i : Instr) : Balanced (walkInstr env walk arrival i) := by
  have woven : Woven (fun x _ => Balanced x) env.program walk walk :=
    ⟨balanced_followEdge balanced, balanced_walkBothWays balanced, balanced_walkCaseTest balanced,
      @Paying.call _ walk walk _ paying_balanced (balanced _) env.program, paying_balanced.spawn env.program⟩
  exact .located (.bind (.emit _) fun _ => .bind (.spend _) fun _ => congruent_balanced.interpret woven
    arrival i.action) i.pos

theorem balanced_enterBlock (env : Env) (arrival : Arrival) : Balanced (enterBlock env walk arrival) :=
  @Congruent.enterBlock (fun x _ => Balanced x) walk walk congruent_balanced env arrival
    (balanced_walkInstr balanced env arrival)

end Walk

/-- However deep a walk goes, it leaves the lists set aside as it found them. -/
theorem balanced_walkBlock (env : Env) (depth : Nat) (arrival : Arrival) : Balanced (walkBlock env depth arrival) := by
  induction depth generalizing arrival with
  | zero => exact fun _ misuse => misuse
  | succ depth ih => exact balanced_enterBlock ih env arrival

/-! ### Whole runs -/

/-- Whatever is interpreted, queued or not, the builder is not misused. -/
theorem not_isMisuse_analyseWith {env : Env} (balanced : ∀ arrival, Balanced (walk arrival)) (m : Machine) :
    Leads (analyseWith env walk) m (fun _ _ => True) fun h _ => ¬ h.IsMisuse := by
  have walked : Balanced (walkFunction walk) :=
    @Congruent.walkFunction (fun x _ => Balanced x) walk walk congruent_balanced (balanced _)
  have initialised : ∀ m, Leads (initialise env walk) m (fun _ _ => True) fun h _ => ¬ h.IsMisuse := by
    intro m
    unfold initialise
    split
    · exact trivial
    · next init _ =>
      rw [leads_bind, leads_emit, leads_bind]
      refine (Balanced.of_composed (composed_numberActivation init.name) _).imp (fun seq m₁ _ => ?_)
      rw [leads_bind, leads_activation, leads_bind]
      exact (Balanced.within (balanced _) _ _).imp (fun _ _ _ => trivial)
  have drained : ∀ count m, Leads (drain walk count) m (fun _ _ => True) fun h _ => ¬ h.IsMisuse := by
    intro count
    induction count with
    | zero => exact fun _ misuse => misuse
    | succ count ih =>
      intro m
      rw [drain, leads_bind, leads_tasks]
      split
      · exact trivial
      · rw [leads_bind, leads_setTasks, leads_bind]
        exact (Balanced.within walked _ _).imp (fun _ m₁ _ => ih m₁)
  rw [analyseWith, leads_bind]
  refine (initialised m).imp (fun _ m₁ _ => ?_)
  rw [leads_bind]
  refine (walked m₁).imp (fun _ m₂ _ => ?_)
  rw [leads_bind]
  refine (drained _ m₂).imp (fun _ m₃ _ => ?_)
  rw [leads_bind, leads_context]
  split <;> exact trivial

theorem not_isMisuse_analyse (env : Env) (m : Machine) :
    Leads (analyse env) m (fun _ _ => True) fun h _ => ¬ h.IsMisuse := by
  unfold Leads
  rw [analyse_eq env m (Nat.lt_succ_self _)]
  exact not_isMisuse_analyseWith (balanced_walkBlock env _) m

/-- A test for a case, made in the state `m`, extends the select at a slot of the list that is current
in another state: that of the case it tests for, or the last one if no case is ready. -/
inductive Extends (walk : Walker) (src onTrue onFalse : Nat) (site : OpenSelect) (case : Nat) (m : Machine) :
    Nat → Machine → Prop where
  | tested {body : List Statement} {m₁ : Machine} (routine : site.routine = m.act.routine.name)
      (select : m.act.routine.isSelectAt site.slot) (collected : collect walk src onTrue m = .ok body m₁) :
      Extends walk src onTrue onFalse site case m site.slot m₁
  | otherwise {body : List Statement} {m₁ m₂ : Machine} (routine : site.routine = m.act.routine.name)
      (select : m.act.routine.isSelectAt site.slot) (first : collectCase walk src onTrue site.slot case m = .ok () m₁)
      (last : case + 1 = site.cases) (ready : site.blocking = false)
      (collected : collect walk src onFalse (m₁.resetLoops m.act.loops) = .ok body m₂) :
      Extends walk src onTrue onFalse site case m site.slot m₂

theorem Extends.isSelectAt (balanced : ∀ arrival, Balanced (walk arrival)) {src onTrue onFalse case : Nat}
    {site : OpenSelect} {m' : Machine} (extension : Extends walk src onTrue onFalse site case m slot m') :
    m'.act.routine.isSelectAt slot := by
  cases extension with
  | tested _ select collected =>
    have same := ((leads_collect balanced _ _ _).ok collected).1
    rw [Routine.isSelectAt, same]
    exact select
  | otherwise _ select first _ _ collected =>
    have kept := ((leads_collectCase balanced _ _ _ _ select).ok first).1
    have same := ((leads_collect balanced _ _ _).ok collected).1
    rw [Routine.isSelectAt, same]
    exact kept

/-- Inference never asks the builder for what it does not have. Visiting a block or an instruction
leaves the routine under construction with the lists set aside that it had, and what is extended as a
select is one. -/
theorem builder_never_misused (budget : Nat) (p : Program) (o : Options) :
    (∀ e pos, (infer budget p o).result ≠ .error (.failed ⟨.protocol e, pos⟩)) ∧
    ∀ depth m m',
      (∀ arrival, walkBlock ⟨p, o⟩ depth arrival m = .ok () m' →
        m'.act.routine.name = m.act.routine.name ∧ m'.act.routine.waiting = m.act.routine.waiting) ∧
      (∀ arrival i, walkInstr ⟨p, o⟩ (walkBlock ⟨p, o⟩ depth) arrival i m = .ok () m' →
        m'.act.routine.name = m.act.routine.name ∧ m'.act.routine.waiting = m.act.routine.waiting) ∧
      ∀ src onTrue onFalse site case slot,
        Extends (walkBlock ⟨p, o⟩ depth) src onTrue onFalse site case m slot m' →
          m'.act.routine.isSelectAt slot := by
  refine ⟨fun e pos fails => ?_, fun depth m m' => ⟨fun arrival ends => ?_, fun arrival i ends => ?_, ?_⟩⟩
  · unfold infer at fails
    split at fails
    · exact nomatch fails
    · split at fails
      · exact nomatch fails
      · next halts =>
        obtain rfl := Except.error.inj fails
        exact (not_isMisuse_analyse _ _).error halts ⟨e, rfl⟩
  · exact Prod.mk.inj ((balanced_walkBlock ⟨p, o⟩ depth arrival m).ok ends)
  · exact Prod.mk.inj ((balanced_walkInstr (balanced_walkBlock ⟨p, o⟩ depth) ⟨p, o⟩ arrival i m).ok ends)
  · exact fun _ _ _ _ _ _ extension => extension.isSelectAt (balanced_walkBlock ⟨p, o⟩ depth)

/-- Takes what is ready, and goes on if nothing is. -/
def choosing : Function := .closed "main.main" [
  .of 0 none [] [1, 2] [
    .define "a" .intChan (.makeChan (.int 1)),
    .define "t" (.tuple [.basic "int", .basic "bool"]) (.select false [.recv (.var "a")]),
    .define "x" .int (.extract (.var "t") 0),
    .define "c" .bool (.binary .eq (.var "x") (.int 0)),
    .perform (.branch (.var "c") 1 2)],
  .of 1 none [0] [] [
    .perform (.send (.var "a") (.int 1)),
    .perform (.ret [])],
  .of 2 none [0] [] [
    .define "v" .int (.recv (.var "a") false),
    .perform (.ret [])]]

def choosingEnv : Env := ⟨{ functions := [choosing] }, {}⟩

/-- Where the walk through it comes to the test for the case. -/
def testing : Machine :=
  (after (walkBlock choosingEnv 9 .entry (Machine.start choosingEnv.program choosing 4))).withBudget 9

/-- The whole walk ends with nothing set aside, and the default case of the select is extended after the tested one. -/
theorem choosing_builder_used :
    (∃ m', walkBlock choosingEnv 9 .entry (Machine.start choosingEnv.program choosing 20) = .ok () m' ∧
      m'.act.routine.waiting = []) ∧
    ∃ m', Extends (walkBlock choosingEnv 9) 0 1 2 ⟨none, 1, "main.main", 1, false⟩ 0 testing 1 m' ∧
      m'.act.routine.isSelectAt 1 := by
  have used := (builder_never_misused 40 choosingEnv.program choosingEnv.options).2 9
  have ends : isOk (walkBlock choosingEnv 9 .entry (Machine.start choosingEnv.program choosing 20)) := by decide +kernel
  have first : isOk (collectCase (walkBlock choosingEnv 9) 0 1 1 0 testing) := by decide +kernel
  have second : isOk (collect (walkBlock choosingEnv 9) 0 2
      ((after (collectCase (walkBlock choosingEnv 9) 0 1 1 0 testing)).resetLoops
        testing.act.loops)) := by decide +kernel
  obtain ⟨⟨⟩, walked⟩ := ends_of_isOk ends
  obtain ⟨⟨⟩, tested⟩ := ends_of_isOk first
  obtain ⟨body, collected⟩ := ends_of_isOk second
  have extension : Extends (walkBlock choosingEnv 9) 0 1 2 ⟨none, 1, "main.main", 1, false⟩ 0 testing 1 _ :=
    .otherwise (by decide +kernel) (by decide +kernel) tested rfl rfl collected
  exact ⟨⟨_, walked, ((used _ _).1 _ walked).2⟩, _, extension, (used _ _).2.2 0 1 2 _ 0 1 extension⟩

end Analysis

end ChanFlow
