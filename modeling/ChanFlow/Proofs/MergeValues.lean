import ChanFlow.Proofs.ChannelNames

/-!
Values that come to a merge point.

A merge point is interpreted along the edge on which control first comes to it, and later arrivals only call what was
found then. An operand keeps its instance until an instruction touches it (`held_of_untouched`). So a later arrival
brings the instance that a phi was bound to, if its edge has the operand of the first edge, or the phi itself, and
nothing touches that in between (`merge_values_agree`). Other edges may bring other instances.
-/
namespace ChanFlow.Analysis

open Ssa Protocol

variable {action : Action} {name value : String} {x : Operand} {i : Instance} {arrival : Arrival}
  {edges : List PhiEdge} {m : Machine} {j : Instr}

/-! ### Operands -/

/-- Whether an instruction may change the instance of an operand. -/
def touches : Action → Operand → Bool
  | .define value _ _, x => x = .var value
  | .perform (.store target _), x => x = target
  | .perform _, _ => false

theorem untouched_var (untouched : touches action (.var name) = false) : ¬ (touchOf action).names name := by
  cases action with
  | define value ty op => simpa [touches, touchOf] using untouched
  | perform effect =>
    cases effect with
    | store target x => cases target <;> simp_all [touches, touchOf]
    | _ => exact id

theorem untouched_global (untouched : touches action (.global name) = false) : ¬ (touchOf action).globals name := by
  cases action with
  | define value ty op => exact id
  | perform effect =>
    cases effect with
    | store target x => cases target <;> simp_all [touches, touchOf]
    | _ => exact id

/-- Only stores touch globals. -/
theorem not_touches_global (other : isSimple action = false) (name : String) : ¬ (touchOf action).globals name := by
  refine untouched_global ?_
  cases action with
  | define value ty op => rfl
  | perform effect =>
    cases effect with
    | store target x => exact nomatch other
    | _ => rfl

section Phis

variable {m m' : Machine}

/-- A value that is bound has the instance, and so has every operand that had it. -/
theorem held?_bind (held : held? m x = some i) (e : Event) :
    held? { m.emit e with act := m.act.bind value i } x = some i := by
  cases x with
  | var name =>
    show (m.act.locals.insert value i).get? name = some i
    rw [Table.get?_insert]
    split
    · rfl
    · exact held
  | global name => exact held
  | func name => exact held
  | const literal => exact held

theorem leads_bindValue (value : String) (held : held? m x = some i) :
    Leads (bindValue value i) m fun _ m' => ∃ i, m'.act.resolve? value = some i ∧ held? m' x = some i := by
  rw [bindValue, leads_bind, leads_emit, leads_modifyActivation]
  refine ⟨i, ?_, held?_bind held _⟩
  show (m.act.locals.insert value i).get? value = some i
  rw [Table.get?_insert, if_pos rfl]

/-- A value that is anticipated has the instance from then on. -/
theorem leads_anticipate (x : Operand) : Leads (anticipate x) m fun i m' => held? m' x = some i := by
  rw [anticipate, leads_bind, leads_activation]
  cases x with
  | var name =>
    simp only [Operand.var?, Option.bind_some]
    cases found : m.act.func.definition? name with
    | none => trivial
    | some definition =>
      obtain ⟨action, pos⟩ := definition
      cases action with
      | perform effect => trivial
      | define other ty op =>
        obtain rfl : other = name := by simpa [Instr.name?] using List.find?_some found
        have made : (m.act.locals.insert other (m.act.fresh other ty)).get? other = some (m.act.fresh other ty) := by
          rw [Table.get?_insert, if_pos rfl]
        cases op with
        | call c => exact made
        | recv chan commaOk => exact made
        | deref x => exact made
        | unary sign x => exact made
        | makeClosure func bindings => exact made
        | _ => trivial
  | global name => trivial
  | func name => trivial
  | const literal => trivial

theorem leads_takeEdge (value : String) (edge : PhiEdge) :
    Leads (takeEdge value edge) m
      fun _ m' => ∃ i, m'.act.resolve? value = some i ∧ held? m' edge.value = some i := by
  rw [takeEdge, leads_bind]
  refine (leads_held? edge.value).surely fun r m₁ read => ?_
  obtain ⟨rfl, act, globals⟩ := read
  cases held : held? m edge.value with
  | some i =>
    exact leads_bindValue value ((held?_congr act globals edge.value).trans held)
  | none =>
    rw [leads_bind]
    exact (leads_anticipate edge.value).imp fun i m₂ held => leads_bindValue value held

/-- The operand of the edge from a block. -/
def operandFrom? (edges : List PhiEdge) (pred : Nat) : Option Operand := (edges.find? (·.pred = pred)).map (·.value)

/-- A phi is bound to what the operand of its edge has from then on. -/
theorem phi_binds (plain : m.act.loops.current.indexVar ≠ some value) (ends : phi arrival value edges m = .ok () m') :
    ∃ x i, arrival.pred.bind (operandFrom? edges) = some x ∧ m'.act.resolve? value = some i ∧
      held? m' x = some i := by
  have leads : Leads (phi arrival value edges) m fun _ m' => ∃ x i, arrival.pred.bind
    (operandFrom? edges) = some x ∧
      m'.act.resolve? value = some i ∧ held? m' x = some i := by
    rw [phi, leads_bind, leads_activation]
    split
    · trivial
    · next edge taken =>
      obtain ⟨pred, eq, found⟩ := Option.bind_eq_some_iff.1 taken
      have along : arrival.pred.bind (operandFrom? edges) = some edge.value := by
        rw [eq, Option.bind_some, operandFrom?, found, Option.map_some]
      have uncounted : ¬ (atHeader m.act arrival && m.act.loops.current.isStatic &&
          decide (m.act.loops.current.indexVar = some value)) = true := by simp [plain]
      dsimp only
      rw [if_neg uncounted, leads_bind]
      refine leads_of (fun _ m₁ _ => (leads_takeEdge value edge).imp fun _ m₂ taken => ?_)
        fun _ _ _ => trivial
      obtain ⟨i, bound, held⟩ := taken
      exact ⟨edge.value, i, along, bound, held⟩
  exact leads.ok ends

/-- A phi does not look at the budget. -/
theorem phi_withBudget {k : Nat} (ends : phi arrival value edges (m.withBudget k) = .ok () m') :
    phi arrival value edges (m.withBudget 0) = .ok () (m'.withBudget 0) := by
  have goes : ¬ Stops (phi arrival value edges (m.withBudget k)) := by
    rw [ends]
    exact id
  obtain ⟨n, taken, same⟩ :=
    (Alike.of_composed (n := 0) (composed_phi trivial arrival value edges)).metered (m.withBudget k) goes
  have turning : LeadsTurning (phi arrival value edges) (m.withBudget k) (.define value .func (.phi edges)) arrival :=
    leads_phi
  have budget : m'.budget = k := (Leads.ok turning ends).2
  rw [ends] at taken same
  obtain rfl : n = 0 := by
    have taken : k = n + m'.budget := taken
    omega
  exact same 0

end Phis

/-! ### Operands that are left alone -/

/-- The operand has the instance for an activation, wherever that is. -/
def Config.Holds (c : Config) (ident : String × Nat) (i : Instance) : Operand → Prop
  | .var name => ∀ a ∈ c.crew, a.ident = ident → a.resolve? name = some i
  | .global name => c.machine.context.globals.get? name = some i
  | .func name => Instance.ofProgram name .func = i
  | .const literal => Instance.const literal = i

/-- Since a time, an operand has had an instance for an activation. -/
structure Config.Watched (since : Nat) (ident : String × Nat) (x : Operand) (i : Instance) (c : Config) : Prop where
  numbered : ident.2 < c.machine.context.count ident.1
  holds : c.Holds ident i x
  busy : ∀ a d, c.Busy a d → a.ident = ident → d.left < since

section Watch

variable {env : Env} {property : Property} {c c' : Config} {since : Nat} {ident : String × Nat}
  {x : Operand} {i : Instance}

/-- No instruction after a time touches an operand, of those that could. -/
def Untouched (property : Property) (since : Nat) (ident : String × Nat) (x : Operand) : Prop :=
  ∀ n arrival j m, property n (.instr arrival j) m → n < since →
    (∀ name, x = .var name → m.act.ident = ident) → touches j.action x = false

theorem Config.Holds.of_held (here : c.machine = m) (held : held? m x = some i)
    (alone : ∀ a ∈ c.crew, a.ident = ident → a = m.act) : c.Holds ident i x := by
  cases x with
  | var name =>
    intro a about same
    rw [alone a about same]
    exact held
  | global name =>
    subst here
    exact held
  | func name => exact Option.some.inj held
  | const literal => exact Option.some.inj held

theorem Config.Holds.held (holds : c.Holds ident i x) (same : c.machine.act.ident = ident) :
    held? c.machine x = some i := by
  cases x with
  | var name => exact holds _ List.mem_cons_self same
  | global name => exact holds
  | func name => exact congrArg some holds
  | const literal => exact congrArg some holds

theorem Config.Watched.step (sound : c.Sound property) (watched : c.Watched since ident x i)
    (untouched : Untouched property since ident x) (before : c.machine.budget < since) (step : Step property c c') :
    c'.Watched since ident x i := by
  refine ⟨Nat.lt_of_lt_of_le watched.numbered (step.counts _), ?_, fun a' d busy same => ?_⟩
  · cases x with
    | var name =>
      intro a' about same
      rcases step.carried a' about with new | ⟨a, about, touch, author, carries⟩
      · have numbered := watched.numbered
        rw [← same] at numbered
        exact absurd numbered (Nat.not_lt_of_le new.number)
      have same : a.ident = ident := carries.ident.symm.trans same
      refine carries.locals ?_ (watched.holds a about same)
      cases author with
      | none => exact id
      | paid reached own => exact untouched_var (untouched _ _ _ _ reached before fun _ _ => own.trans same)
      | @busy d busy =>
        obtain ⟨-, arrival, m, reached, own⟩ := sound.busy a d busy
        exact untouched_var (untouched _ _ _ _ reached (watched.busy a d busy same) fun _ _ => own.trans same)
    | global name =>
      obtain ⟨touch, ⟨a, about, author⟩, kept⟩ := step.globals
      refine (kept ?_).trans watched.holds
      cases author with
      | none => exact id
      | paid reached own => exact untouched_global (untouched _ _ _ _ reached before fun _ eq => nomatch eq)
      | @busy d busy => exact not_touches_global (sound.busy a d busy).1 name
    | func name => exact watched.holds
    | const literal => exact watched.holds
  · rcases step.busy a' d busy with ⟨left, -⟩ | ⟨a, held, own⟩
    · rwa [left]
    · exact watched.busy a d held (own.trans same)

/-- The activation that pays for an instruction is not busy with another. -/
theorem Config.Sound.idle (sound : c.Sound property) (idle : c.doing = none) {a : Activation} {d : Doing}
    (busy : c.Busy a d) : a.ident ≠ c.machine.act.ident := by
  intro same
  rcases busy with ⟨-, eq⟩ | waits
  · exact nomatch idle.symm.trans eq
  · refine (List.nodup_cons.1 sound.distinct).1 ?_
    rw [← same]
    exact List.mem_map_of_mem (List.mem_append_left _ (List.mem_map_of_mem waits))

/-- An instruction is interpreted after which the operand has the instance. -/
theorem Config.Watched.of_paid (unique : Unique property) (sound : c.Sound property)
    (step : Step property c c')
    (reached : property c.machine.budget (.instr arrival j) (c.machine.withBudget 0))
    (simple : isSimple j.action) (idle : c.doing = none) (staying : Staying c.machine c'.machine)
    (held : held? c'.machine x = some i) : c'.Watched c.machine.budget c.machine.act.ident x i := by
  have act := staying.ident
  refine ⟨Nat.lt_of_lt_of_le sound.issued.act.number (step.counts _), ?_, fun a' d busy same => ?_⟩
  · refine .of_held rfl held fun a about same => ?_
    exact step.sound.eq_of_ident about List.mem_cons_self (same.trans act.symm)
  · exfalso
    rcases step.busy a' d busy with ⟨left, -⟩ | ⟨a, before, own⟩
    · -- What is paid for here stays inside its block.
      obtain ⟨other, arrival', m, reached', -⟩ := step.sound.busy a' d busy
      rw [left] at reached'
      obtain ⟨eq, -⟩ := unique _ _ _ _ _ reached reached'
      cases eq
      exact nomatch simple.symm.trans other
    · exact sound.idle idle before (own.trans same)

end Watch

section Runs

variable {p : Program} {o : Options} {n₁ n₂ : Nat} {point : Point} {m₁ m₂ : Machine}
  {arrival : Arrival} {j : Instr} {x : Operand} {bound : Instance → Prop}

/-- What an instruction that stays inside its block brings about, and every step after it keeps, holds from then on. -/
theorem kept_since {n₁ n₂ : Nat} {j : Instr} {P : Config → Prop}
    (stops₁ : analyse ⟨p, o⟩ (Machine.start p entry n₁) = .error (.stopped (.instr arrival j)) m₁)
    (simple : isSimple j.action)
    (stops₂ : analyse ⟨p, o⟩ (Machine.start p entry n₂) = .error (.stopped point) m₂)
    (paid : isPaid point) (later : n₁ < n₂)
    (begins : ∀ {c c' : Config} {walk : Walker} {k : Nat}, c.Sound (History p o entry n₂) → c.doing = none →
      c.machine.budget = n₂ - n₁ → c.machine.budget = c'.machine.budget + 1 → m₁ = c.machine.withBudget 0 →
      interpret ⟨p, o⟩ walk arrival j.action (m₁.withBudget k) = .ok () c'.machine →
      Step (History p o entry n₂) c c' → Move ⟨p, o⟩ (History p o entry n₂) c c' → P c')
    (keeps : ∀ {c c' : Config}, c.Sound (History p o entry n₂) → P c → c.machine.budget < n₂ - n₁ →
      Step (History p o entry n₂) c c' → Move ⟨p, o⟩ (History p o entry n₂) c c' → P c') :
    m₂.budget = 0 ∧ ∃ d s, Config.Sound (History p o entry n₂) ⟨m₂, d, s⟩ ∧ P ⟨m₂, d, s⟩ := by
  have unique : Unique (History p o entry n₂) := unique_history p o entry n₂
  have reached := History.of_stops (Nat.le_of_lt later) stops₁
  have after {c c' : Config} (sound : c.Sound (History p o entry n₂)) (since : c.machine.budget < n₂ - n₁ → P c)
      (step : Step (History p o entry n₂) c c') (move : Move ⟨p, o⟩ (History p o entry n₂) c c')
      (past : c'.machine.budget < n₂ - n₁) : P c' := by
    by_cases before : c.machine.budget < n₂ - n₁
    · exact keeps sound (since before) before step move
    -- The instruction is paid for by this very move.
    have now (pays : c.machine.budget = c'.machine.budget + 1) : c'.machine.budget + 1 = n₂ - n₁ := by omega
    cases move.upshot with
    | @simple arrival' j' walk pays reached' simple' idle crew goes =>
      rw [now pays] at reached'
      obtain ⟨eq, machine⟩ := unique _ _ _ _ _ reached reached'
      cases eq
      subst machine
      exact begins sound idle (pays.trans (now pays)) pays rfl goes step move
    | other _ _ _ _ passes =>
      cases passes with
      | unpaid same => exact absurd (same ▸ past) before
      | paid pays reached' staying steers =>
        rw [now pays] at reached'
        obtain ⟨eq, -⟩ := unique _ _ _ _ _ reached reached'
        exact nomatch simple.symm.trans (steers _ _ eq)
  have kept : Invariant ⟨p, o⟩ (History p o entry n₂) fun c => c.Sound (History p o entry n₂) ∧
      (c.machine.budget < n₂ - n₁ → P c) := Invariant.of_step after
  obtain ⟨spent, d, s, sound, since⟩ :=
    kept.stops ⟨sound_start _ p entry n₂, fun past => absurd past (Nat.not_lt_of_le (Nat.sub_le _ _))⟩ stops₂
  refine ⟨spent paid, d, s, sound, since ?_⟩
  rw [spent paid]
  omega

/-- An operand that has an instance after an instruction keeps it until it is touched. -/
theorem held_of_untouched (first : StopsAt p o n₁ (.instr arrival j) m₁) (simple : isSimple j.action)
    (ends : ∀ walk k m, interpret ⟨p, o⟩ walk arrival j.action (m₁.withBudget k) = .ok () m →
      ∃ i, bound i ∧ held? m x = some i)
    (second : StopsAt p o n₂ point m₂) (paid : isPaid point) (later : n₁ < n₂)
    (same : m₂.act.ident = m₁.act.ident)
    (untouched : ∀ n arrival' j' m, n₁ < n → n ≤ n₂ → StopsAt p o n (.instr arrival' j') m →
      (∀ name, x = .var name → m.act.ident = m₁.act.ident) → touches j'.action x = false) :
    ∃ i, bound i ∧ held? m₂ x = some i := by
  obtain ⟨entry, found, stops₁⟩ := first
  obtain ⟨entry', found', stops₂⟩ := second
  obtain rfl := Option.mem_unique found found'
  have unique : Unique (History p o entry n₂) := unique_history p o entry n₂
  have left : Untouched (History p o entry n₂) (n₂ - n₁) m₁.act.ident x := by
    intro n arrival' j' m history before own
    refine untouched (n₂ - n) arrival' j' m (by omega) (Nat.sub_le _ _) ⟨entry, found, history.2⟩ own
  have begins {c c' : Config} {walk : Walker} {k : Nat} (sound : c.Sound (History p o entry n₂))
      (idle : c.doing = none) (now : c.machine.budget = n₂ - n₁) (machine : m₁ = c.machine.withBudget 0)
      (goes : interpret ⟨p, o⟩ walk arrival j.action (m₁.withBudget k) = .ok () c'.machine)
      (step : Step (History p o entry n₂) c c') : ∃ i, bound i ∧ c'.Watched (n₂ - n₁) m₁.act.ident x i := by
    have reached := History.of_stops (Nat.le_of_lt later) stops₁
    obtain ⟨i, binds, held⟩ := ends walk k c'.machine goes
    subst machine
    have staying := Staying.trans (.withBudget c.machine _) (staying_simple simple goes).1
    rw [← now] at reached ⊢
    exact ⟨i, binds, .of_paid unique sound step reached simple idle staying held⟩
  obtain ⟨-, d, s, -, i, binds, watched⟩ := kept_since (P := fun c => ∃ i, bound i ∧
      c.Watched (n₂ - n₁) m₁.act.ident x i) stops₁ simple stops₂ paid later
    (fun sound idle now _ machine goes step _ => begins sound idle now machine goes step)
    fun sound watched before step _ => watched.imp fun i held => ⟨held.1, held.2.step sound left before step⟩
  exact ⟨i, binds, watched.holds.held same⟩

/-- An arrival at a merge point brings what a phi was bound to before, if its edge has the operand that the phi was
bound to then, or the phi itself, and no instruction in between touches it. -/
theorem merge_values_agree {src : Nat} {value : String} {ty : Ty} {edges : List PhiEdge} {pos : Option Position}
    (bound : StopsAt p o n₁ (.instr arrival ⟨.define value ty (.phi edges), pos⟩) m₁)
    (arrives : StopsAt p o n₂ (.edge src arrival.block) m₂) (later : n₁ < n₂)
    (same : m₂.act.ident = m₁.act.ident)
    (plain : m₁.act.loops.current.indexVar ≠ some value) (brings : operandFrom? edges src = some x)
    (agrees : operandFrom? edges src = arrival.pred.bind (operandFrom? edges) ∨ x = .var value)
    (untouched : ∀ n arrival' j m, n₁ < n → n < n₂ → StopsAt p o n (.instr arrival' j) m →
      (∀ name, x = .var name → m.act.ident = m₁.act.ident) → touches j.action x = false) :
    ∃ i m, phi arrival value edges m₁ = .ok () m ∧ m.act.resolve? value = some i ∧ held? m₂ x = some i := by
  have unpaid : m₁.withBudget 0 = m₁ := by
    obtain ⟨entry, -, stops⟩ := bound
    rw [← (steady_stops stops).1 rfl, Machine.withBudget_self]
  have ends (walk : Walker) (k : Nat) (m : Machine)
      (goes : interpret ⟨p, o⟩ walk arrival (.define value ty (.phi edges)) (m₁.withBudget k) = .ok () m) :
      ∃ i, (∃ m, phi arrival value edges m₁ = .ok () m ∧ m.act.resolve? value = some i) ∧
        held? m x = some i := by
    have goes : phi arrival value edges (m₁.withBudget k) = .ok () m := goes
    obtain ⟨y, i, along, binds, held⟩ :=
      phi_binds (show (m₁.withBudget k).act.loops.current.indexVar ≠ _ from plain) goes
    refine ⟨i, ⟨m.withBudget 0, unpaid ▸ phi_withBudget goes, binds⟩, ?_⟩
    rcases agrees with agrees | rfl
    · rw [brings, along] at agrees
      obtain rfl := Option.some.inj agrees
      exact held
    · exact binds
  have before (n : Nat) (arrival' : Arrival) (j : Instr) (m : Machine) (upTo : n ≤ n₂)
      (stops : StopsAt p o n (.instr arrival' j) m) : n < n₂ := by
    refine Nat.lt_of_le_of_ne upTo ?_
    rintro rfl
    have here := stop?_eq_some.2 arrives
    rw [stop?_eq_some.2 stops] at here
    cases here
  obtain ⟨i, ⟨m, goes, binds⟩, held⟩ := held_of_untouched bound rfl ends arrives rfl later same
    fun n arrival' j m after upTo stops => untouched n arrival' j m after (before n arrival' j m upTo stops) stops
  exact ⟨i, m, goes, binds, held⟩

end Runs

/-! ### Arrivals along two edges -/

/-- Receives from the channel of a phi in a loop, which brings the phi round again. -/
def relaying : Function := .closed "main.main" [
  .of 0 none [] [1] [
    .define "a" .intChan (.makeChan (.int 1)),
    .perform (.jump 1)],
  .of 1 (some "for.loop") [0, 2] [2, 3] [
    .define "d" .intChan (.phi [⟨0, .var "a"⟩, ⟨2, .var "d"⟩]),
    .define "v" .int (.recv (.var "d") false),
    .define "c" .bool (.binary .eq (.var "v") (.int 0)),
    .perform (.branch (.var "c") 2 3)],
  .of 2 (some "for.body") [1] [1] [
    .perform (.send (.var "d") (.var "v")),
    .perform (.jump 1)],
  .of 3 (some "for.done") [1] [] [.perform (.ret [])]]

/-- The instruction that is the step at a time, if it is one. -/
def instrAt (p : Program) (o : Options) (n : Nat) : Option Instr :=
  match stop? p o n with
  | some (.instr _ j, _) => some j
  | _ => none

theorem instrAt_of_stops {n : Nat} {arrival : Arrival} {j : Instr} (stops : StopsAt p o n (.instr arrival j) m) :
    instrAt p o n = some j := by
  rw [instrAt, stop?_eq_some.2 stops]

/-- The way back of the loop brings the channel that was there before. -/
theorem relaying_agrees :
    ∃ m₁ m₂, StopsAt { functions := [relaying] } {} 3 (.instr ⟨1, some 0⟩
        (.define "d" .intChan (.phi [⟨0, .var "a"⟩, ⟨2, .var "d"⟩]))) m₁ ∧
      StopsAt { functions := [relaying] } {} 10 (.edge 2 1) m₂ ∧ m₂.act.ident = m₁.act.ident ∧
      ∃ i m, phi ⟨1, some 0⟩ "d" [⟨0, .var "a"⟩, ⟨2, .var "d"⟩] m₁ = .ok () m ∧
        m.act.resolve? "d" = some i ∧ held? m₂ (.var "d") = some i := by
  obtain ⟨m₁, bound, ident₁, index⟩ : ∃ m, StopsAt { functions := [relaying] } {} 3 (.instr ⟨1, some 0⟩
      (.define "d" .intChan (.phi [⟨0, .var "a"⟩, ⟨2, .var "d"⟩]))) m ∧
      m.act.ident = ("main.main", 0) ∧ m.act.loops.current.indexVar = none := exists_stop (by decide +kernel)
  obtain ⟨m₂, arrives, ident₂⟩ : ∃ m, StopsAt { functions := [relaying] } {} 10 (.edge 2 1) m ∧
      m.act.ident = ("main.main", 0) := exists_stop (by decide +kernel)
  have untouched : ∀ n < 10, 3 < n → (instrAt { functions := [relaying] } {} n).all
    (!touches ·.action (.var "d")) := by
    decide +kernel
  have same := ident₂.trans ident₁.symm
  refine ⟨m₁, m₂, bound, arrives, same, merge_values_agree bound arrives (by decide) same ?_ rfl (.inr rfl) ?_⟩
  · rw [index]
    exact nofun
  · intro n arrival j m after before stops _
    simpa [instrAt_of_stops stops] using untouched n before after

/-- Sends on the channel of a phi where two branches come together. -/
def joining : Function := .closed "main.main" [
  .of 0 none [] [1, 2] [
    .define "a" .intChan (.makeChan (.int 1)),
    .define "b" .intChan (.makeChan (.int 1)),
    .define "c" .bool (.binary .lt (.int 0) (.int 1)),
    .perform (.branch (.var "c") 1 2)],
  .of 1 none [0] [3] [.perform (.jump 3)],
  .of 2 none [0] [3] [.perform (.jump 3)],
  .of 3 none [1, 2] [] [
    .define "d" .intChan (.phi [⟨1, .var "a"⟩, ⟨2, .var "b"⟩]),
    .perform (.send (.var "d") (.int 1)),
    .perform (.ret [])]]

/-- The instance that a phi is bound to. -/
def phiInstance? (arrival : Arrival) (value : String) (edges : List PhiEdge) (m : Machine) : Option Instance :=
  match phi arrival value edges m with
  | .ok _ m => m.act.resolve? value
  | .error _ _ => none

/-- The phi was bound to the channel of the first branch, and the second one comes with another. -/
theorem joining_disagrees :
    joining.Linked ∧ (infer 100 { functions := [joining] } {}).result.toBool ∧
      ∃ m₁ m₂ m i j, StopsAt { functions := [joining] } {} 7 (.instr ⟨3, some 1⟩
          (.define "d" .intChan (.phi [⟨1, .var "a"⟩, ⟨2, .var "b"⟩]))) m₁ ∧
        StopsAt { functions := [joining] } {} 12 (.edge 2 3) m₂ ∧ m₂.act.ident = m₁.act.ident ∧
        m₂.act.labels.get? (m₂.act.key 3) = some "main.main#3" ∧
        phi ⟨3, some 1⟩ "d" [⟨1, .var "a"⟩, ⟨2, .var "b"⟩] m₁ = .ok () m ∧
          m.act.resolve? "d" = some i ∧
        operandFrom? [⟨1, .var "a"⟩, ⟨2, .var "b"⟩] 2 = some (.var "b") ∧
          held? m₂ (.var "b") = some j ∧ j ≠ i := by
  obtain ⟨m₁, stops₁, ident₁, bound⟩ : ∃ m, StopsAt { functions := [joining] } {} 7 (.instr ⟨3, some 1⟩
      (.define "d" .intChan (.phi [⟨1, .var "a"⟩, ⟨2, .var "b"⟩]))) m ∧
      m.act.ident = ("main.main", 0) ∧ phiInstance? ⟨3, some 1⟩ "d" [⟨1, .var "a"⟩, ⟨2, .var "b"⟩] m =
        some (minted "a" 0) :=
    exists_stop (by decide +kernel)
  obtain ⟨m₂, stops₂, ident₂, label, held⟩ : ∃ m, StopsAt { functions := [joining] } {} 12 (.edge 2 3) m ∧
      m.act.ident = ("main.main", 0) ∧ m.act.labels.get? (m.act.key 3) = some "main.main#3" ∧
      held? m (.var "b") = some (minted "b" 0) := exists_stop (by decide +kernel)
  refine ⟨⟨joining.draft, rfl⟩, by decide +kernel, m₁, m₂, ?_⟩
  rw [phiInstance?] at bound
  split at bound
  · next m goes =>
    exact ⟨m, minted "a" 0, minted "b" 0, stops₁, stops₂, ident₂.trans ident₁.symm,
      label, goes, bound, rfl, held, by decide⟩
  · cases bound

end ChanFlow.Analysis
