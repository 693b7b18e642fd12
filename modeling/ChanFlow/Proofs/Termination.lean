import ChanFlow.Proofs.Account
import ChanFlow.Proofs.NestSteps

/-!
When an analysis comes to an end.

It does exactly if there is a bound on the number of static loops around the places it reaches. There need not be
one: a static loop that is left for the header of another loop, and come back to from there, is taken for a new
loop inside that one, and counts from its start again.
-/
namespace ChanFlow.Analysis

open Ssa Protocol

variable {p : Program} {o : Options} {entry : Function} {budget src r : Nat} {m : Machine} {arrival : Arrival}
  {env : Env} {walk : Walker}

/-- Some budget is enough for a protocol or an error. -/
def Finishes (p : Program) (o : Options) : Prop :=
  ∃ budget, (∃ protocol, (infer budget p o).result = .ok protocol) ∨ ∃ e, (infer budget p o).result =
    .error (.failed e)

theorem result_infer (found : Enters p o.entry entry) (budget : Nat) :
    (infer budget p o).result =
      match analyse ⟨p, o⟩ (Machine.start p entry budget) with
      | .ok protocol _ => .ok protocol
      | .error h _ => .error h := by
  rw [infer, found]
  dsimp only
  cases analyse ⟨p, o⟩ (Machine.start p entry budget) <;> rfl

section

variable (found : Enters p o.entry entry)
include found

theorem not_stops_of_finished
    (finished : (∃ protocol, (infer budget p o).result = .ok protocol) ∨
      ∃ e, (infer budget p o).result = .error (.failed e)) :
    ¬ Stops (analyse ⟨p, o⟩ (Machine.start p entry budget)) := by
  rw [result_infer found] at finished
  cases result : analyse ⟨p, o⟩ (Machine.start p entry budget) with
  | ok protocol m => exact id
  | error h m =>
    simp only [result] at finished
    cases h with
    | stopped point => simp at finished
    | failed e => exact id
    | endless ty => exact id

/-- Two budgets that are enough give the same result. -/
theorem result_eq_of_not_stops {n : Nat}
    (ends : ¬ Stops (analyse ⟨p, o⟩ (Machine.start p entry budget)))
    (ends' : ¬ Stops (analyse ⟨p, o⟩ (Machine.start p entry n))) :
    (infer n p o).result = (infer budget p o).result := by
  have later {k k' : Nat} (ends : ¬ Stops (analyse ⟨p, o⟩ (Machine.start p entry k))) (le : k ≤ k') :
      (infer k' p o).result = (infer k p o).result := by
    obtain ⟨left, same⟩ := analyse_of_le ends le
    rw [result_infer found, result_infer found, same]
    cases analyse ⟨p, o⟩ (Machine.start p entry k) <;> rfl
  rcases Nat.le_total budget n with le | le
  · exact later ends le
  · exact (later ends' le).symm

end

/-- The analysis of a program comes to an end exactly if there is a bound on the number of static loops around the
places it reaches, and it asks for no part of a type without an end of pointers. -/
theorem finishes_iff (p : Program) (o : Options) :
    Finishes p o ↔ (∃ bound, ∀ point m, Reachable p o point m → m.act.signature.length ≤ bound) ∧
      ∀ budget ty, (infer budget p o).result ≠ .error (.endless ty) := by
  cases found : (p.function? o.entry).filter (·.hasBody) with
  | none =>
    have result (budget : Nat) : (infer budget p o).result = .error (.failed ⟨.missingEntry o.entry, none⟩) := by
      rw [infer, found]
    refine ⟨fun _ => ⟨⟨0, ?_⟩, fun budget ty eq => ?_⟩, fun _ => ⟨0, .inr ⟨_, result 0⟩⟩⟩
    · rintro point m ⟨_, entry, found', _⟩
      exact nomatch found.symm.trans found'
    · exact nomatch (result budget).symm.trans eq
  | some entry =>
    constructor
    · rintro ⟨budget, finished⟩
      have ends := not_stops_of_finished found finished
      -- Only the smaller budgets stop the analysis, so there are finitely many places to look at.
      refine ⟨⟨(Finset.range budget).sup fun n =>
        (after (analyse ⟨p, o⟩ (Machine.start p entry n))).act.signature.length, fun point m reached => ?_⟩, ?_⟩
      · obtain ⟨n, entry', found', stops⟩ := reached
        obtain rfl := Option.mem_unique found found'
        have less := lt_of_stops ends stops
        have le := Finset.le_sup (f := fun n =>
          (after (analyse ⟨p, o⟩ (Machine.start p entry n))).act.signature.length) (Finset.mem_range.2 less)
        simp only [stops] at le
        exact le
      · intro n ty endless
        have ends' : ¬ Stops (analyse ⟨p, o⟩ (Machine.start p entry n)) := by
          intro stops
          rw [result_infer found] at endless
          cases result : analyse ⟨p, o⟩ (Machine.start p entry n) with
          | ok protocol m => simp [result] at endless
          | error h m =>
            simp only [result, Except.error.injEq] at endless
            rw [result, endless] at stops
            exact stops
        rw [result_eq_of_not_stops found ends ends'] at endless
        simp [endless] at finished
    · rintro ⟨⟨bound, shallow⟩, ending⟩
      obtain ⟨budget, ends⟩ := exists_enough found shallow
      have ending := ending budget
      refine ⟨budget, ?_⟩
      rw [result_infer found] at ending ⊢
      cases result : analyse ⟨p, o⟩ (Machine.start p entry budget) with
      | ok protocol m => exact .inl ⟨protocol, rfl⟩
      | error h m =>
        rw [result] at ends
        cases h with
        | stopped point => exact absurd trivial ends
        | failed e => exact .inr ⟨e, rfl⟩
        | endless ty => exact absurd (by rw [result]) (ending ty)

theorem enters_of_block {f : Function} {b : Nat} {block : Block} (entry : p.function? o.entry = some f)
    (found : f.block? b = some block) : Enters p o.entry f := by
  have body : f.hasBody = true := by
    cases blocks : f.blocks with
    | nil => simp [Function.block?, blocks] at found
    | cons => simp [Function.hasBody, blocks]
  rw [Enters, entry, Option.filter_some, if_pos body]

/-- A program of one function that spawns nothing has a protocol, if the walk of that function comes to its end or is
stopped with no more than so many static loops around. -/
theorem exists_inferred {f : Function} {bound : Nat} {P : Protocol → Prop} (runs : Enters p o.entry f)
    (alone : (p.function? o.init).filter (·.hasBody) = none)
    (walked : ∀ budget, Leads (walkBlock ⟨p, o⟩ (budget + 1) .entry)
      ((Machine.start p f budget).openRoutine { name := f.name } .routineStarted)
      (fun _ m => m.tasks.waiting = [] ∧ P (if o.cleanUp then m.closeRoutine.context.protocol.cleanUp o.entry
        else m.closeRoutine.context.protocol)) (CutOff bound)) :
    ∃ protocol budget, (∀ n ≥ budget, (infer n p o).result = .ok protocol) ∧ P protocol := by
  have leads (budget : Nat) :
      Leads (analyse ⟨p, o⟩) (Machine.start p f budget) (fun protocol _ => P protocol) (CutOff bound) := by
    have regular := regular_walkBlock ⟨p, o⟩ (budget + 1)
    rw [Leads, analyse_eq ⟨p, o⟩ (Machine.start p f budget) (Nat.lt_succ_self budget)]
    refine Guided.leads (guided_analyseWith regular ?_)
    unfold initialise
    rw [alone]
    refine .of_leads (guided_walkFunction regular (.of_leads ((walked budget).imp fun _ m ends => ?_)))
    refine guided_drain (fun count m₂ => 0 < count ∧ m₂ = m.closeRoutine) regular ?_ ?_ ?_
      ⟨Nat.succ_pos _, rfl⟩
    · rintro m₂ ⟨less, -⟩
      exact absurd less (Nat.lt_irrefl 0)
    · rintro _ _ ⟨-, rfl⟩ - m₄ - -
      exact ends.2
    · rintro _ _ a rest ⟨-, rfl⟩ waits
      exact absurd (waits.symm.trans ends.1) (List.cons_ne_nil a rest)
  -- Every budget leads to the protocol or to a place inside the function, so one of them is enough.
  have shallow : ∀ point m, Reachable p o point m → m.act.signature.length ≤ bound := by
    rintro point m ⟨budget, g, found, stops⟩
    obtain rfl := Option.mem_unique runs found
    exact ((leads budget).error stops).2
  obtain ⟨budget, ends⟩ := exists_enough runs shallow
  cases result : analyse ⟨p, o⟩ (Machine.start p f budget) with
  | error h m =>
    obtain ⟨⟨point, rfl⟩, -⟩ := (leads budget).error result
    rw [result] at ends
    exact absurd trivial ends
  | ok protocol m =>
    refine ⟨protocol, budget, fun n le => ?_, (leads budget).ok result⟩
    obtain ⟨left, same⟩ := analyse_of_le ends le
    rw [result_infer runs, same, result]
    rfl

/-! ### A loop that starts over -/

/-- The values of the index of a loop that counts from zero. -/
def indexEdges : List PhiEdge := [⟨0, .const (.int 0)⟩, ⟨2, .var "t"⟩]

def countingHeader : Block where
  index := 1
  tag := some "for.loop"
  preds := [0, 2]
  succs := [2, 3]
  instrs := [
    .define "i" .int (.phi indexEdges),
    .define "c" .bool (.binary .lt (.var "i") (.int 3)),
    .perform (.branch (.var "c") 2 3)]

/-- The body of the loop is itself the header of a loop. -/
def countingBody : Block where
  index := 2
  tag := some "for.loop"
  preds := [1]
  succs := [1]
  instrs := [
    .define "t" .int (.binary .add (.var "i") (.int 1)),
    .perform (.jump 1)]

/-- Counts to three. -/
def restarting : Function := .closed "main.main" [
  .of 0 none [] [1] [.perform (.jump 1)],
  countingHeader, countingBody,
  .of 3 (some "for.done") [1] [] [.perform (.ret [])]]

/-- The loop of block 1 as soon as its phi is known, -/
def counting : Loop := { Nest.entered 1 with indexVar := some "i", start := some 0, step := some 1 }

/-- and with its comparison. -/
def counted : Loop := { counting with bound := .static, condVar := some "c", last := some 2 }

/-- The counter that the loop is taken for. -/
def restartingCounter : Counter where
  header := 1
  body := 2
  done := 3
  index := "i"
  indexTy := .basic "int"
  cond := "c"
  condTy := .basic "bool"
  next := "t"
  nextTy := .basic "int"
  start := 0
  step := 1
  op := .lt
  bound := 3
  swapped := false

/-- The loop is reached from above, or again once `t` is known. -/
def Comes (src : Nat) (a : Activation) : Prop := src = 0 ∨ src = 2 ∧ ∃ v, a.resolve? "t" = some v

theorem leads_countingPhi (func : m.act.func = restarting)
    (current : m.act.loops.current = Nest.entered 1) (comes : Comes src m.act) :
    Leads (phi (.along src 1) "i" indexEdges) m (fun _ m' => Rebinds "i" counting m m') fun _ _ => False := by
  have candidate : indexCandidate? m.act.func "i" indexEdges = some (0, 1) := by
    rw [func]
    decide +kernel
  rcases comes with rfl | ⟨rfl, v, bound⟩
  · exact leads_phi_noted current candidate rfl fun _ _ => rfl
  · have taken : indexEdges.find? (·.pred = 2) = some ⟨2, .var "t"⟩ := rfl
    refine leads_phi_noted (v := v) current candidate taken fun m' same => ?_
    rw [← bound, Activation.resolve?, ← same]
    rfl

/-- The analysis was stopped. -/
def Stopped (h : Halt) (_ : Machine) : Prop := ∃ point, h = .stopped point

/-- The step is stopped, whatever the budget is. -/
def Runaway (x : Run Unit) (m : Machine) : Prop := Leads x m (fun _ _ => False) Stopped

theorem leads_walkInstr {i : Instr} {done : Unit → Machine → Prop}
    (goes : ∀ n, Leads (interpret env walk arrival i.action) ((m.emit (.instrVisited i)).withBudget n) done Stopped) :
    Leads (walkInstr env walk arrival i) m done Stopped := by
  refine Guided.leads (guided_walkInstr (fun _ => ⟨_, rfl⟩) fun _ n _ =>
    .of_leads ((goes n).weaken (fun _ _ => id) ?_))
  rintro _ _ ⟨point, rfl⟩
  exact ⟨point, rfl⟩

theorem runaway_followEdge {dst : Nat} (goes : ∀ n, Runaway (arriveAt walk src dst) (m.withBudget n)) :
    Runaway (followEdge walk src dst) m :=
  Guided.leads (guided_followEdge (fun _ => ⟨_, rfl⟩) fun _ n _ => .of_leads (goes n))

/-- The loops after so many rounds, without the current one. -/
def around : Nat → List Loop
  | 0 => []
  | r + 1 => Nest.entered 2 :: counted :: around r

theorem countP_around (r : Nat) : (around r).countP (·.isStatic) = r := by
  induction r with
  | zero => rfl
  | succ r ih => rw [around, List.countP_cons_of_neg (by decide), List.countP_cons_of_pos rfl, ih]

theorem length_signature_around (l : Loop) (r : Nat) :
    (⟨l, around r⟩ : Nest).signature.length = r + if l.isStatic then 1 else 0 := by
  rw [Nest.length_signature, Nest.loops, List.countP_cons, countP_around]

/-- The activation in the round `r`, with `l` as its current loop. -/
structure Within (l : Loop) (r : Nat) (a : Activation) : Prop where
  func : a.func = restarting
  loops : a.loops = ⟨l, around r⟩
  visited : ∀ key ∈ a.visited, key.2.length ≤ r
  labels : ∀ key label, a.labels.get? key = some label → key.2.length ≤ r

/-- The activation on the way to the header for the round `r`. -/
structure Round (r : Nat) (a : Activation) : Prop where
  func : a.func = restarting
  loops : (a.loops.enter 1 .loopHeader).1 = ⟨Nest.entered 1, around r⟩
  visited : ∀ key ∈ a.visited, key.2.length ≤ r ∧ (key.1 = 1 → key.2.length < r)
  labels : ∀ key label, a.labels.get? key = some label → key.2.length ≤ r

theorem Within.bind {l l' : Loop} {a : Activation} (inside : Within l r a) (name : String) (v : Instance) :
    Within l' r ((a.setLoop l').bind name v) :=
  ⟨inside.func, congrArg (fun n : Nest => (⟨l', n.outer⟩ : Nest)) inside.loops, inside.visited, inside.labels⟩

def restartingEnv : Env := ⟨{ functions := [restarting] }, {}⟩

theorem leads_countedComparison (walk : Walker) (current : m.act.loops.current = counting) :
    Leads (define restartingEnv walk (.along src 1) "c" (.basic "bool") restartingCounter.comparison) m
      (fun _ m' => Rebinds "c" counted m m') fun _ _ => False := by
  rw [show counted = restartingCounter.classified restartingEnv.options.maxUnroll by decide +kernel]
  exact leads_comparison_first (l := restartingCounter) rfl rfl current

theorem runaway_header (inner : ∀ r m, Within counted r m.act → Runaway (walk (.along 1 2)) m)
    (round : Round r m.act)
    (comes : Comes src m.act) : Runaway (enterBlock restartingEnv walk (.along src 1)) m := by
  have length : (m.enter countingHeader (some src)).act.signature.length = r := by
    rw [Activation.signature, show (m.enter countingHeader (some src)).act.loops = _ from round.loops,
      length_signature_around]
    rfl
  have found : m.act.func.block? 1 = some countingHeader := by
    rw [round.func]
    rfl
  have static : restartingCounter.Static 1000 := (Counter.static_of_classified (by decide +kernel)).1
  refine leads_enterBlock found (fun old => ?_) ?_
  · have less : (m.enter countingHeader (some src)).act.signature.length < r := (round.visited _ old).2 rfl
    omega
  · have inside : Within (Nest.entered 1) r ((m.enter countingHeader (some src)).onAct fun a =>
        { a with visited := a.key 1 :: a.visited }).act := by
      refine ⟨round.func, round.loops, List.forall_mem_cons.2 ⟨Nat.le_of_eq length, fun key old => ?_⟩,
        round.labels⟩
      exact (round.visited key old).1
    refine leads_forM_cons.2 (leads_walkInstr fun n => ?_)
    refine .surely (leads_countingPhi inside.func (congrArg (·.current) inside.loops) comes) ?_
    rintro _ _ ⟨v, log, rfl⟩
    have inside : Within counting r _ := inside.bind "i" v
    refine leads_forM_cons.2 (leads_walkInstr fun n => ?_)
    refine .surely (leads_countedComparison walk (congrArg (·.current) inside.loops)) ?_
    rintro _ _ ⟨v, log, rfl⟩
    have inside : Within counted r _ := inside.bind "c" v
    refine leads_forM_cons.2 (leads_walkInstr fun n => ?_)
    have counts : counted = restartingCounter.loop .enter 0 := by decide +kernel
    refine .imp (leads_countedEdge static ((congrArg (·.current) inside.loops).trans counts) rfl fun log => ?_)
      (fun _ _ => False.elim)
    have body : restarting.block? 2 = some countingBody := rfl
    exact runaway_followEdge fun n => leads_straight (inside.func ▸ body) (.inl rfl) (inner r _ inside)

/-- The activation before the edge to the header for the round `r`. -/
structure Approaching (r : Nat) (a : Activation) : Prop where
  func : a.func = restarting
  loops : (a.loops.enter 1 .loopHeader).1 = ⟨Nest.entered 1, around r⟩
  other : a.loops.current.repeatsAt 1 = false
  length : a.signature.length = r
  visited : ∀ key ∈ a.visited, key.2.length ≤ r ∧ (key.1 = 1 → key.2.length < r)
  labels : ∀ key label, a.labels.get? key = some label → key.2.length < r

/-- The header is a merge point without a label as yet, since no round had as many index values. -/
theorem runaway_approach (regular : Regular walk)
    (again : ∀ r m, Round r m.act → Comes src m.act → Runaway (walk (.along src 1)) m)
    (approaching : Approaching r m.act) (comes : Comes src m.act) : Runaway (arriveAt walk src 1) m := by
  have found : m.act.func.block? 1 = some countingHeader := by
    rw [approaching.func]
    rfl
  have new : m.act.labels.get? (m.act.key 1) = none := by
    cases known : m.act.labels.get? (m.act.key 1) with
    | none => rfl
    | some label =>
      have short : m.act.signature.length < r := approaching.labels _ label known
      have length := approaching.length
      omega
  refine leads_merge regular found rfl approaching.other new (again r _ ?_ comes)
  refine ⟨approaching.func, approaching.loops, approaching.visited, fun key label known => ?_⟩
  have known : (m.act.labels.insert (m.act.key 1) (m.act.mergeLabel 1)).get? key = some label := known
  rw [Table.get?_insert] at known
  split at known
  · next same => exact same ▸ Nat.le_of_eq approaching.length
  · exact Nat.le_of_lt (approaching.labels key label known)

theorem runaway_body (regular : Regular walk)
    (again : ∀ r m, Round r m.act → Comes 2 m.act → Runaway (walk (.along 2 1)) m)
    (inside : Within counted r m.act) : Runaway (enterBlock restartingEnv walk (.along 1 2)) m := by
  have found : m.act.func.block? 2 = some countingBody := by
    rw [inside.func]
    rfl
  have pushed : (m.enter countingBody (some 1)).act.loops = ⟨Nest.entered 2, counted :: around r⟩ := by
    show (m.act.loops.enter 2 .loopHeader).1 = _
    rw [inside.loops]
    rfl
  have length : (m.enter countingBody (some 1)).act.signature.length = r + 1 := by
    rw [Activation.signature, pushed, Nest.length_signature]
    exact countP_around (r + 1)
  refine leads_enterBlock found (fun old => ?_) ?_
  · have short : (m.enter countingBody (some 1)).act.signature.length ≤ r := inside.visited _ old
    omega
  · have approaching : Approaching (r + 1) ((m.enter countingBody (some 1)).onAct fun a =>
        { a with visited := a.key 2 :: a.visited }).act := by
      refine ⟨inside.func, ?_, ?_, length,
        List.forall_mem_cons.2 ⟨⟨Nat.le_of_eq length, fun first => ?_⟩, ?_⟩, ?_⟩
      · exact congrArg (fun n : Nest => (n.enter 1 .loopHeader).1) pushed
      · exact congrArg (fun n : Nest => n.current.repeatsAt 1) pushed
      · exact absurd first (show 2 ≠ 1 by decide)
      · intro key old
        have short := inside.visited key old
        exact ⟨Nat.le_succ_of_le short, fun _ => Nat.lt_succ_of_le short⟩
      · exact fun key label known => Nat.lt_succ_of_le (inside.labels key label known)
    refine leads_forM_cons.2 (leads_walkInstr fun n => (leads_binary_plain (.inl rfl)).surely ?_)
    rintro _ _ ⟨v, log, rfl⟩
    refine leads_forM_cons.2 (leads_walkInstr fun n => ?_)
    refine .imp (runaway_followEdge fun n => runaway_approach (r := r + 1) regular again ?_ ?_) (fun _ _ => False.elim)
    · exact { approaching with }
    · exact .inr ⟨rfl, v, by simp [Activation.bind, Activation.resolve?, Machine.emit, Machine.withBudget]⟩

/-- However deep the walk may go, it goes from round to round. -/
theorem runaway_walkBlock (depth : Nat) :
    (∀ r src m, Round r m.act → Comes src m.act → Runaway (walkBlock restartingEnv depth (.along src 1)) m) ∧
      ∀ r m, Within counted r m.act → Runaway (walkBlock restartingEnv depth (.along 1 2)) m := by
  induction depth with
  | zero => exact ⟨fun _ _ _ _ _ => ⟨_, rfl⟩, fun _ _ _ => ⟨_, rfl⟩⟩
  | succ depth ih =>
    have regular := regular_walkBlock restartingEnv depth
    exact ⟨fun _ _ _ round comes => runaway_header ih.2 round comes,
      fun _ _ inside => runaway_body regular (fun r m => ih.1 r 2 m) inside⟩

theorem runaway_entry (depth : Nat) {seq : Nat} {routine : Routine}
    (start : m.act = (Activation.start restarting seq [] "main.main").setRoutine routine) :
    Runaway (walkBlock restartingEnv depth .entry) m := by
  cases depth with
  | zero => exact ⟨_, rfl⟩
  | succ depth =>
    have found : m.act.func.block? 0 = restarting.blocks.head? := by
      rw [start]
      rfl
    obtain ⟨context, act, tasks, budget, log⟩ := m
    obtain rfl := start
    refine leads_enterBlock found List.not_mem_nil ?_
    refine leads_forM_cons.2 (leads_walkInstr fun n => ?_)
    refine .imp (runaway_followEdge fun n => ?_) (fun _ _ => False.elim)
    refine runaway_approach (regular_walkBlock restartingEnv depth) (fun r m => (runaway_walkBlock depth).1 r 0 m)
      (r := 0) ⟨rfl, rfl, rfl, rfl, ?_, ?_⟩ (.inl rfl)
    · refine List.forall_mem_cons.2 ⟨⟨Nat.le_refl 0, fun first => ?_⟩, List.forall_mem_nil _⟩
      exact absurd first Nat.zero_ne_one
    · exact fun _ label known => absurd known.symm (Option.some_ne_none label)

theorem leads_restarting (budget : Nat) :
    Leads (analyse restartingEnv) (Machine.start restartingEnv.program restarting budget)
      (fun _ _ => False) Stopped := by
  have regular := regular_walkBlock restartingEnv (budget + 1)
  have uninitialised : initialise restartingEnv (walkBlock restartingEnv (budget + 1)) = pure () := rfl
  rw [Leads, analyse_eq restartingEnv _ (Nat.lt_succ_self budget)]
  refine leads_bind.2 ?_
  rw [uninitialised, leads_pure, leads_bind]
  have runs : Runaway (walkFunction (walkBlock restartingEnv (budget + 1)))
      (Machine.start restartingEnv.program restarting budget) := by
    refine Guided.leads (guided_walkFunction regular (.of_leads ?_))
    exact runaway_entry (budget + 1) rfl
  exact Leads.imp runs (fun _ _ => False.elim)

/-- The program counts to three. Its analysis takes the loop for a new one on every way back, and never ends. -/
theorem restarting_unfinished : restarting.Linked ∧ ¬ Finishes { functions := [restarting] } {} := by
  refine ⟨⟨restarting.draft, rfl⟩, ?_⟩
  rintro ⟨budget, finished⟩
  have ends : ¬ Stops (analyse restartingEnv (Machine.start restartingEnv.program restarting budget)) :=
    not_stops_of_finished rfl finished
  have runs := leads_restarting budget
  cases result : analyse restartingEnv (Machine.start restartingEnv.program restarting budget) with
  | ok protocol m => exact runs.ok result
  | error h m =>
    obtain ⟨point, rfl⟩ := runs.error result
    rw [result] at ends
    exact ends trivial

end ChanFlow.Analysis
