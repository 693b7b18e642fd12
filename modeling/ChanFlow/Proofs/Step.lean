import ChanFlow.Analysis.Infer

/-!
Reasoning about steps of the machine.

`Leads` says what a step comes to, whether it ends or halts; it passes through a sequence of steps by
`leads_bind`. A step that does not look at the budget is `Blind`; one whose end does not depend on how
much budget is left over is `Metered`. Where every state in which a step can be stopped has a property,
the step is `Safe`, and so is each part of it. The property may depend on the budget that is left when the
step comes through that state, and so on when in a run it does.
-/
namespace ChanFlow

/-! ### Small programs

Shorthands for the programs that results are shown by. -/

abbrev Ty.int : Ty := .basic "int"

abbrev Ty.bool : Ty := .basic "bool"

abbrev Ty.intChan : Ty := .chan .int

namespace Ssa

abbrev Operand.int (i : Int) : Operand := .const (.int i)

abbrev Instr.define (name : String) (ty : Ty) (op : ValueOp) : Instr := { action := .define name ty op }

abbrev Instr.perform (effect : Effect) : Instr := { action := .perform effect }

abbrev Block.of (index : Nat) (tag : Option String) (preds succs : List Nat) (instrs : List Instr) : Block :=
  { index, tag, preds, succs, instrs }

/-- A function that takes nothing and returns nothing. -/
abbrev Function.closed (name : String) (blocks : List Block) : Function :=
  { name, params := [], freeVars := [], results := none, blocks }

end Ssa

end ChanFlow

namespace ChanFlow.Analysis

variable {point : Point} {m m' : Machine} {pos : Option Ssa.Position} {halted : Halt → Machine → Prop}

variable {α β : Type}

theorem bind_apply (x : Run α) (f : α → Run β) (m : Machine) :
    (x >>= f) m =
      match x m with
      | .ok a m' => f a m'
      | .error h m' => .error h m' := by
  simp only [bind, EStateM.bind]
  cases x m <;> rfl

theorem spend_zero (spent : m.budget = 0) : spend point m = .error (.stopped point) m := by
  simp only [spend, spent]

theorem spend_succ {n : Nat} (pays : m.budget = n + 1) : spend point m = .ok () { m with budget := n } := by
  simp only [spend, pays]

/-- The step ends in `done`, or halts in `halted`. -/
def Leads (x : Run α) (m : Machine) (done : α → Machine → Prop)
    (halted : Halt → Machine → Prop := fun _ _ => True) : Prop :=
  match x m with
  | .ok a m' => done a m'
  | .error h m' => halted h m'

section Leads

variable {x : Run α} {m : Machine} {done done' : α → Machine → Prop} {halted halted' : Halt → Machine → Prop}

theorem Leads.weaken (leads : Leads x m done halted) (ends : ∀ a m', done a m' → done' a m')
    (halts : ∀ h m', halted h m' → halted' h m') : Leads x m done' halted' := by
  unfold Leads at leads ⊢
  split at leads
  · exact ends _ _ leads
  · exact halts _ _ leads

theorem Leads.imp (leads : Leads x m done halted) (ends : ∀ a m', done a m' → done' a m') :
    Leads x m done' halted :=
  leads.weaken ends fun _ _ => id

/-- From a step that does not halt. -/
theorem Leads.surely (leads : Leads x m done fun _ _ => False) (ends : ∀ a m', done a m' → done' a m') :
    Leads x m done' halted := leads.weaken ends fun _ _ => False.elim

/-- However the step halts. -/
theorem Leads.partly (leads : Leads x m done halted) (ends : ∀ a m', done a m' → done' a m') : Leads x m done' :=
  leads.weaken ends fun _ _ _ => trivial

theorem Leads.and (first : Leads x m done halted) (second : Leads x m done' halted') :
    Leads x m (fun a m' => done a m' ∧ done' a m') (fun h m' => halted h m' ∧ halted' h m') := by
  unfold Leads at first second ⊢
  split at first
  · next eq => rw [eq] at second; exact ⟨first, second⟩
  · next eq => rw [eq] at second; exact ⟨first, second⟩

theorem Leads.ok {a : α} (leads : Leads x m done halted) (ends : x m = .ok a m') : done a m' := by
  unfold Leads at leads
  rwa [ends] at leads

theorem Leads.error {h : Halt} (leads : Leads x m done halted) (halts : x m = .error h m') : halted h m' := by
  unfold Leads at leads
  rwa [halts] at leads

/-- A step leads to what is shown of each way it can come out. -/
theorem leads_of (ends : ∀ a m', x m = .ok a m' → done a m')
    (halts : ∀ h m', x m = .error h m' → halted h m') : Leads x m done halted := by
  unfold Leads
  split
  · next eq => exact ends _ _ eq
  · next eq => exact halts _ _ eq

@[simp] theorem leads_bind {f : α → Run β} {done : β → Machine → Prop} :
    Leads (x >>= f) m done halted ↔
      Leads x m (fun a m' => Leads (f a) m' done halted) halted := by
  unfold Leads
  rw [bind_apply]
  cases x m <;> rfl

@[simp] theorem leads_pure {a : α} : Leads (pure a) m done halted ↔ done a m := Iff.rfl

@[simp] theorem leads_failWith {cause : Cause} :
    Leads (failWith cause : Run α) m done halted ↔ halted (.failed ⟨cause, none⟩) m := Iff.rfl

@[simp] theorem leads_activation {done : Activation → Machine → Prop} :
    Leads activation m done halted ↔ done m.act m := Iff.rfl

@[simp] theorem leads_context {done : Context → Machine → Prop} :
    Leads context m done halted ↔ done m.context m := Iff.rfl

@[simp] theorem leads_tasks {done : TaskQueue → Machine → Prop} :
    Leads tasks m done halted ↔ done m.tasks m := Iff.rfl

variable {done : Unit → Machine → Prop}

@[simp] theorem leads_modifyActivation {f : Activation → Activation} :
    Leads (modifyActivation f) m done halted ↔ done () { m with act := f m.act } := Iff.rfl

@[simp] theorem leads_modifyRoutine {f : Protocol.Routine → Protocol.Routine} :
    Leads (modifyRoutine f) m done halted ↔
      done () { m with act := { m.act with routine := f m.act.routine } } := Iff.rfl

@[simp] theorem leads_addStatement {s : Protocol.Statement} :
    Leads (addStatement s) m done halted ↔
      done () { m with act := { m.act with routine := m.act.routine.addStatement s } } := Iff.rfl

@[simp] theorem leads_modifyContext {f : Context → Context} :
    Leads (modifyContext f) m done halted ↔ done () { m with context := f m.context } := Iff.rfl

@[simp] theorem leads_setTasks {queue : TaskQueue} :
    Leads (setTasks queue) m done halted ↔ done () { m with tasks := queue } := Iff.rfl

@[simp] theorem leads_emit {e : Event} :
    Leads (emit e) m done halted ↔ done () { m with log := m.log.push e } := Iff.rfl

theorem leads_spend :
    Leads (spend point) m done halted ↔
      (m.budget = 0 → halted (.stopped point) m) ∧
      ∀ n, m.budget = n + 1 → done () { m with budget := n } := by
  unfold Leads
  cases eq : m.budget with
  | zero =>
    rw [spend_zero eq]
    simp
  | succ n =>
    rw [spend_succ eq]
    simp

end Leads

/-- An error gets a position, any other halt stays. -/
def Halt.locate (pos : Option Ssa.Position) : Halt → Halt
  | .failed e => .failed (e.locate pos)
  | h => h

theorem located_apply (pos : Option Ssa.Position) (x : Run α) (m : Machine) :
    located pos x m =
      match x m with
      | .ok a m' => .ok a m'
      | .error h m' => .error (h.locate pos) m' := by
  unfold located
  cases x m with
  | ok a m' => rfl
  | error h m' => cases h <;> rfl

@[simp] theorem leads_located {x : Run α} {done : α → Machine → Prop} :
    Leads (located pos x) m done halted ↔ Leads x m done fun h m' => halted (h.locate pos) m' := by
  unfold Leads
  rw [located_apply]
  cases x m <;> rfl

/-- A step inside another activation leads to a machine with the outer one again; if it halts, the
machine is left in the inner one. -/
@[simp] theorem leads_within {inner : Activation} {x : Run Unit} {done : Activation → Machine → Prop} :
    Leads (within inner x) m done halted ↔
      Leads x { m with act := inner } (fun _ m' => done m'.act { m' with act := m.act }) halted := by
  simp only [within, leads_bind, leads_activation, leads_modifyActivation, leads_pure]

theorem leads_changeRoutine {f : Protocol.Routine → Except Protocol.Error (α × Protocol.Routine)}
    {done : α → Machine → Prop} : Leads (changeRoutine f) m done halted ↔
      match f m.act.routine with
      | .ok (a, r) => done a { m with act := m.act.setRoutine r }
      | .error e => halted (.failed ⟨.protocol e, none⟩) m := by
  simp only [changeRoutine, leads_bind, leads_activation]
  cases f m.act.routine with
  | ok result => exact Iff.rfl
  | error e => exact Iff.rfl

@[simp] theorem leads_forM_cons {b : β} {rest : List β} {f : β → Run Unit} {done : Unit → Machine → Prop} :
    Leads (List.forM (b :: rest) f) m done halted ↔
      Leads (f b) m (fun _ m' => Leads (rest.forM f) m' done halted) halted := leads_bind

/-! ### Budgets -/

def Machine.withBudget (m : Machine) (n : Nat) : Machine := { m with budget := n }

@[simp] theorem Machine.withBudget_self (m : Machine) : m.withBudget m.budget = m := rfl

/-- How a step came out, with another budget left over. -/
def leaving (n : Nat) : EStateM.Result Halt Machine α → EStateM.Result Halt Machine α
  | .ok a m => .ok a (m.withBudget n)
  | .error h m => .error h (m.withBudget n)

/-- The machine a step leaves. -/
def after : EStateM.Result Halt Machine α → Machine
  | .ok _ m => m
  | .error _ m => m

def isOk : EStateM.Result Halt Machine α → Bool
  | .ok .. => true
  | .error .. => false

theorem ends_of_isOk {x : Run α} (ends : isOk (x m)) : ∃ a, x m = .ok a (after (x m)) := by
  cases result : x m with
  | ok a m' => exact ⟨a, rfl⟩
  | error h m' =>
    rw [result] at ends
    cases ends

def Stops : EStateM.Result Halt Machine α → Prop
  | .error (.stopped _) _ => True
  | _ => False

instance : (result : EStateM.Result Halt Machine α) → Decidable (Stops result)
  | .error (.stopped _) _ => .isTrue trivial
  | .error (.failed _) _ | .error (.endless _) _ | .ok _ _ => .isFalse id

/-- The step neither looks at the budget nor takes from it. -/
def Blind (x : Run α) : Prop := ∀ m n, x (m.withBudget n) = leaving n (x m)

/-- A step that comes to an end takes a fixed amount from the budget, and ends the same way whatever is
left over. -/
def Metered (x : Run α) : Prop :=
  ∀ m, ¬ Stops (x m) →
    ∃ n, m.budget = n + (after (x m)).budget ∧ ∀ k, x (m.withBudget (n + k)) = leaving k (x m)

theorem Blind.budget {x : Run α} (blind : Blind x) (m : Machine) : (after (x m)).budget = m.budget := by
  have same := blind m m.budget
  rw [Machine.withBudget_self] at same
  cases eq : x m with
  | ok a m' =>
    rw [eq] at same
    exact congrArg (fun r => (after r).budget) same
  | error h m' =>
    rw [eq] at same
    exact congrArg (fun r => (after r).budget) same

theorem Blind.metered {x : Run α} (blind : Blind x) : Metered x := by
  intro m _
  refine ⟨0, by rw [blind.budget, Nat.zero_add], fun k => ?_⟩
  rw [Nat.zero_add]
  exact blind m k

theorem Blind.bind {x : Run α} {f : α → Run β} (first : Blind x) (next : ∀ a, Blind (f a)) :
    Blind (x >>= f) := by
  intro m n
  rw [bind_apply, bind_apply, first m n]
  cases x m with
  | ok a m' => exact next a m' n
  | error h m' => rfl

theorem metered_bind {x : Run α} {f : α → Run β} (first : Metered x) (next : ∀ a, Metered (f a)) :
    Metered (x >>= f) := by
  intro m ends
  rw [bind_apply] at ends ⊢
  have firstAt := first m
  cases eq : x m with
  | ok a m' =>
    rw [eq] at ends firstAt
    obtain ⟨k, spent, again⟩ := firstAt (by simp [Stops])
    obtain ⟨n, spent', again'⟩ := next a m' ends
    have both : m.budget = k + n + (after (f a m')).budget := by
      rw [spent, Nat.add_assoc]
      exact congrArg (k + ·) spent'
    refine ⟨k + n, both, fun left => ?_⟩
    rw [bind_apply, Nat.add_assoc, again]
    exact again' left
  | error h m' =>
    rw [eq] at ends firstAt
    obtain ⟨k, spent, again⟩ := firstAt (by cases h <;> exact ends)
    refine ⟨k, spent, fun left => ?_⟩
    rw [bind_apply, again]
    rfl

theorem Metered.located {x : Run α} (metered : Metered x) (pos : Option Ssa.Position) : Metered (located pos x) := by
  intro m ends
  rw [located_apply] at ends ⊢
  have metered := metered m
  cases eq : x m with
  | ok a m' =>
    rw [eq] at metered
    obtain ⟨n, spent, again⟩ := metered (by simp [Stops])
    refine ⟨n, spent, fun k => ?_⟩
    rw [located_apply, again]
    rfl
  | error h m' =>
    rw [eq] at metered ends
    obtain ⟨n, spent, again⟩ := metered (by cases h <;> exact ends)
    refine ⟨n, spent, fun k => ?_⟩
    rw [located_apply, again]
    rfl

theorem metered_spend (point : Point) : Metered (spend point) := by
  intro m ends
  cases eq : m.budget with
  | zero =>
    rw [spend_zero eq] at ends
    exact absurd trivial ends
  | succ n =>
    rw [spend_succ eq]
    refine ⟨1, Nat.add_comm n 1, fun k => ?_⟩
    rw [Nat.add_comm 1 k]
    exact spend_succ rfl

/-- What may hold of a run that stops at a point, with the budget it had. -/
abbrev Property := Nat → Point → Machine → Prop

/-- Every state in which the step can be stopped, given a smaller budget, has the property for the budget it is
short of. -/
def Safe (property : Property) (x : Run α) (m : Machine) : Prop :=
  ∀ n ≤ m.budget, ∀ point m', x (m.withBudget n) = .error (.stopped point) m' → property (m.budget - n) point m'

section Safe

variable {property : Property} {x : Run α} {f : α → Run β} {m m' : Machine}

theorem Safe.first (safe : Safe property (x >>= f) m) : Safe property x m := by
  intro n small point m' stops
  refine safe n small point m' ?_
  rw [bind_apply, stops]

theorem Safe.next {a : α} (safe : Safe property (x >>= f) m) (metered : Metered x)
    (ends : x m = .ok a m') : Safe property (f a) m' := by
  intro n small point m'' stops
  have spent := metered m (by simp [ends, Stops])
  rw [ends] at spent
  obtain ⟨k, total, again⟩ := spent
  have total : m.budget = k + m'.budget := total
  have short : m.budget - (k + n) = m'.budget - n := by omega
  rw [← short]
  refine safe (k + n) (by omega) point m'' ?_
  rw [bind_apply, again]
  exact stops

theorem Safe.located (safe : Safe property (located pos x) m) : Safe property x m := by
  intro n small point m' stops
  refine safe n small point m' ?_
  rw [located_apply, stops]
  rfl

theorem Safe.spend (safe : Safe property (spend point) m) :
    property m.budget point (m.withBudget 0) := safe 0 (Nat.zero_le _) point _ rfl

end Safe

/-- A property of states is one of states that are come through at any time. -/
instance : Coe (Point → Machine → Prop) Property := ⟨fun property _ => property⟩

/-- The step ends in `done` or halts in `halted`, provided that it is safe. -/
def Guided (property : Property) (x : Run α) (m : Machine) (done : α → Machine → Prop)
    (halted : Halt → Machine → Prop) : Prop := Safe property x m → Leads x m done halted

section Guided

variable {property : Property} {x : Run α} {m : Machine} {done done' : α → Machine → Prop}
  {halted halted' : Halt → Machine → Prop}

theorem Guided.of_leads (leads : Leads x m done halted) : Guided property x m done halted := fun _ => leads

theorem Guided.weaken (guided : Guided property x m done halted) (ends : ∀ a m', done a m' → done' a m')
    (halts : ∀ h m', halted h m' → halted' h m') : Guided property x m done' halted' :=
  fun safe => (guided safe).weaken ends halts

theorem Guided.imp (guided : Guided property x m done halted) (ends : ∀ a m', done a m' → done' a m') :
    Guided property x m done' halted :=
  fun safe => (guided safe).imp ends

theorem Guided.bind {f : α → Run β} {done : β → Machine → Prop} (metered : Metered x)
    (first : Guided property x m (fun a m' => Guided property (f a) m' done halted) halted) :
    Guided property (x >>= f) m done halted := by
  intro safe
  have led := first safe.first
  rw [leads_bind]
  refine leads_of (fun a m' ends => ?_) fun h m' halts => led.error halts
  exact led.ok ends (safe.next metered ends)

theorem Guided.located (guided : Guided property x m done fun h m' => halted (h.locate pos) m') :
    Guided property (located pos x) m done halted :=
  fun safe => leads_located.2 (guided safe.located)

theorem Guided.spend {done : Unit → Machine → Prop} (stops : m.budget = 0 → halted (.stopped point) m)
    (goes : property m.budget point (m.withBudget 0) → ∀ n, m.budget = n + 1 → done () { m with budget := n }) :
    Guided property (spend point) m done halted :=
  fun safe => leads_spend.2 ⟨stops, goes safe.spend⟩

/-- Where nothing is asked of the states a step can be stopped in, it is always safe. -/
theorem Guided.leads (guided : Guided (fun _ _ _ => True) x m done halted) : Leads x m done halted :=
  guided fun _ _ _ _ _ => trivial

end Guided

end ChanFlow.Analysis
