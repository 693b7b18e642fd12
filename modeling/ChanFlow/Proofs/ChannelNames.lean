import ChanFlow.Proofs.Once
import ChanFlow.Proofs.Succession

/-!
What a channel is called in a protocol.

An activation keeps one table of the channels that came in through its parameters and captured variables, and calls
every other channel by the value it was created by. The table never changes (`Config.Steady`), and no channel that
the activation creates is in it (`Activation.Titled`).
-/
open List

namespace ChanFlow

open Ssa Protocol

variable {a : Activation} {n : Nat} {point : Point} {m : Machine}

/-- A value that is not listed yet is put in, while others wait. -/
theorem Table.nodup_put {κ β : Type} [DecidableEq κ] (k : κ) {v : β} {es : List (κ × β)} {waiting : List β}
    (distinct : (es.map (·.2) ++ v :: waiting).Nodup) : ((Table.put k v es).map (·.2) ++ waiting).Nodup := by
  induction es with
  | nil => exact distinct
  | cons a rest ih =>
    rw [map_cons, cons_append, nodup_cons] at distinct
    rw [Table.put]
    split
    · exact nodup_middle.1 distinct.2
    · rw [map_cons, cons_append, nodup_cons]
      refine ⟨fun member => distinct.1 ?_, ih distinct.2⟩
      rcases mem_append.1 member with listed | later
      · obtain ⟨e, inside, same⟩ := mem_map.1 listed
        rcases Table.mem_put inside with rfl | old
        · exact mem_append_right _ (same ▸ mem_cons_self)
        · exact mem_append_left _ (same ▸ mem_map_of_mem old)
      · exact mem_append_right _ (mem_cons_of_mem _ later)

/-- The names under which instances come into a function. -/
def Ssa.Function.inlets (f : Function) : List String := (f.params ++ f.freeVars).map (·.name)

namespace Analysis

/-! ### The table of an activation -/

/-- What the table of names of an activation is like. -/
structure Activation.Titled (a : Activation) : Prop where
  /-- Nothing comes into the entry function or the initialiser. -/
  outer : a.callers = [] → a.names = {}
  /-- Nothing that the activation creates has come in. -/
  foreign : ∀ value index ty, a.names.get? (.value ⟨some a.func.name, value⟩ a.seq index ty) = none
  inlets : ∀ i name, a.names.get? i = some name → name ∈ a.func.inlets
  single : a.func.inlets.Nodup → ∀ i j name, a.names.get? i = some name → a.names.get? j = some name → i = j

theorem Activation.Titled.congr {a' : Activation} (titled : a.Titled) (func : a'.func = a.func) (seq : a'.seq = a.seq)
    (callers : a'.callers = a.callers) (names : a'.names = a.names) : a'.Titled := by
  constructor
  · rw [callers, names]
    exact titled.outer
  · rw [names, func, seq]
    exact titled.foreign
  · rw [names, func]
    exact titled.inlets
  · rw [names, func]
    exact titled.single

section Handing

variable {types : TypeTable} {caller callee a : Activation} {m m' : Machine}

theorem names_hand (param : Param) (v : Instance) :
    Leads (hand types caller callee param v) m
      (fun a _ => a.names = callee.names ∨ a.names = callee.names.insert v param.name) fun _ _ => False := by
  rw [hand, leads_bind, leads_emit]
  dsimp only
  rw [leads_pure]
  cases caller.storage.get? v <;> split
  exacts [.inr rfl, .inl rfl, .inr rfl, .inl rfl]

/-- What is in the table was there before or is the name of a parameter, and no name comes in twice. -/
theorem names_handAll (es : List (Param × Option Instance)) :
    Leads (handAll types caller callee es) m (fun a _ =>
      (∀ e ∈ a.names.entries, e ∈ callee.names.entries ∨ e.2 ∈ es.map (·.1.name)) ∧
      ((callee.names.entries.map (·.2) ++ es.map (·.1.name)).Nodup → (a.names.entries.map (·.2)).Nodup))
      fun _ _ => False := by
  induction es generalizing callee m with
  | nil => exact ⟨fun e member => .inl member, fun distinct => by simpa using distinct⟩
  | cons e rest ih =>
    obtain ⟨param, i⟩ := e
    cases i with
    | some v =>
      rw [handAll, leads_bind]
      refine (names_hand param v).imp fun b m₁ handed => ih.imp fun a _ later => ?_
      rcases handed with same | inserted
      · rw [same] at later
        refine ⟨fun e member => (later.1 e member).imp id (mem_cons_of_mem _), fun distinct => later.2 ?_⟩
        exact distinct.sublist (List.Sublist.append_left (sublist_cons_self _ _) _)
      · rw [inserted] at later
        refine ⟨fun e member => ?_, fun distinct => later.2 (Table.nodup_put v distinct)⟩
        rcases later.1 e member with put | rest
        · rcases Table.mem_put put with rfl | old
          · exact .inr mem_cons_self
          · exact .inl old
        · exact .inr (mem_cons_of_mem _ rest)
    | none =>
      rw [handAll, leads_bind, leads_emit]
      refine ih.imp fun a _ later => ?_
      refine ⟨fun e member => (later.1 e member).imp id (mem_cons_of_mem _), fun distinct => later.2 ?_⟩
      exact distinct.sublist (List.Sublist.append_left (sublist_cons_self _ _) _)

end Handing

/-- The parameters that are handed something. -/
theorem sublist_zip_names (params : List Param) (values : List (Option Instance)) :
    ((params.zip values).map (·.1.name)).Sublist (params.map (·.name)) := by
  induction params generalizing values with
  | nil => exact List.Sublist.slnil
  | cons p rest ih =>
    cases values with
    | nil => exact nil_sublist _
    | cons v vs => exact (ih vs).cons_cons p.name

section Prepared

variable {types : TypeTable} {f : Function} {args : List Operand} {captures : List Instance}
  {receiver : Option Instance} {m m' : Machine} {a : Activation}

theorem names_prepare (prepared : prepare types f args captures receiver m = .ok a m') :
    (∀ e ∈ a.names.entries, e.2 ∈ f.inlets) ∧ (f.inlets.Nodup → (a.names.entries.map (·.2)).Nodup) := by
  refine prepare_handed (P := fun a => (∀ e ∈ a.names.entries, e.2 ∈ f.inlets) ∧
    (f.inlets.Nodup → (a.names.entries.map (·.2)).Nodup)) prepared fun seq m₁ => ?_
  refine (names_handAll _).surely fun a _ handed => ?_
  have given : ((handedTo m f args captures receiver).map (·.1.name)).Sublist f.inlets := by
    rw [Function.inlets, handedTo, map_append, map_append]
    exact (sublist_zip_names _ _).append (sublist_zip_names _ _)
  refine ⟨fun e member => ?_, fun distinct => handed.2 (distinct.sublist given)⟩
  rcases handed.1 e member with empty | handed
  · cases empty
  · exact given.subset handed

/-- What comes in was there before the activation got its number. -/
theorem names_within (issued : m.Issued) (target : (Target.routine f captures receiver).Issued m.context.count)
    (prepared : prepare types f args captures receiver m = .ok a m') :
    ∀ e ∈ a.names.entries, e.1.Within m.context.count := by
  have shows : ∀ x ∈ args, View.whole.Shows x := fun x _ => View.shows_whole x
  have agree := agreeAt_prepareSelf types f shows target (issued.twins fun _ => Nat.le_refl _)
  obtain ⟨-, -, handed, -⟩ := agree a m' a m' prepared prepared
  exact fun e member => (entwined_self.1 handed.names e member).1.2

end Prepared

/-- An activation that has just come about. -/
theorem Recruited.titled (recruited : Recruited a) : a.Titled := by
  cases recruited with
  | initial f seq routine =>
    exact ⟨fun _ => rfl, fun _ _ _ => rfl, fun _ _ held => (nomatch held), fun _ _ _ _ held => nomatch held⟩
  | @called m m' types f args captures receiver a issued target prepared =>
    obtain ⟨func, seq, callers, -⟩ := prepare_ok prepared
    obtain ⟨inlets, single⟩ := names_prepare prepared
    refine ⟨fun alone => ?_, fun value index ty => ?_, fun i name held => ?_, fun distinct i j name one two => ?_⟩
    · rw [callers] at alone
      simp at alone
    · cases held : a.names.get? (.value ⟨some a.func.name, value⟩ a.seq index ty) with
      | none => rfl
      | some name =>
        have within : a.seq < m.context.count a.func.name :=
          names_within issued target prepared _ (Table.mem_of_find held)
        rw [func, seq] at within
        exact absurd within (Nat.lt_irrefl _)
    · rw [func]
      exact inlets _ (Table.mem_of_find held)
    · rw [func] at distinct
      exact congrArg Prod.fst
        (inj_on_of_nodup_map (single distinct) (Table.mem_of_find one) (Table.mem_of_find two) rfl)

/-! ### What a run keeps -/

/-- The state at a time is the only one. -/
def Unique (property : Property) : Prop :=
  ∀ n point m point' m', property n point m → property n point' m' → point' = point ∧ m' = m

theorem unique_history (p : Program) (o : Options) (entry : Function) (budget : Nat) :
    Unique (History p o entry budget) := by
  rintro n point m point' m' ⟨-, one⟩ ⟨-, two⟩
  cases one.symm.trans two
  exact ⟨rfl, rfl⟩

/-- What was seen of an activation before still holds of it. -/
structure Config.Steady (property : Property) (c : Config) : Prop where
  titled : ∀ a ∈ c.crew, a.Titled
  numbered : ∀ n point m, property n point m → c.machine.budget < n →
    m.act.seq < c.machine.context.count m.act.func.name
  names : ∀ n point m, property n point m → c.machine.budget < n →
    ∀ a ∈ c.crew, a.ident = m.act.ident → a.names = m.act.names

section Steady

variable {env : Env} {property : Property} {c c' : Config}

/-- A state that was come through was so before this move, or is the one that the move pays for. -/
theorem Upshot.past (upshot : Upshot env property c c') (unique : Unique property) (reached : property n point m)
    (past : c'.machine.budget < n) : c.machine.budget < n ∨ Staying c.machine m := by
  have now {point' : Point} {m' : Machine} (pays : c.machine.budget = c'.machine.budget + 1)
      (reached' : property (c'.machine.budget + 1) point' m') (staying : Staying c.machine m') :
      c.machine.budget < n ∨ Staying c.machine m := by
    by_cases here : n = c'.machine.budget + 1
    · subst here
      obtain ⟨-, rfl⟩ := unique _ _ _ _ _ reached reached'
      exact .inr staying
    · exact .inl (by omega)
  cases upshot with
  | simple pays reached' => exact now pays reached' (.withBudget c.machine 0)
  | other _ _ _ _ passes =>
    cases passes with
    | unpaid same => exact .inl (same ▸ past)
    | paid pays reached' staying => exact now pays reached' staying

/-- The activation of a state that was come through had its number before this move. -/
theorem Config.Steady.number (unique : Unique property) (sound : c.Sound property) (steady : c.Steady property)
    (upshot : Upshot env property c c') (reached : property n point m)
    (past : c'.machine.budget < n) : m.act.seq < c.machine.context.count m.act.func.name := by
  rcases upshot.past unique reached past with before | now
  · exact steady.numbered n point m reached before
  · rw [now.func, now.seq]
    exact sound.issued.act.number

theorem Config.Steady.step (unique : Unique property) (sound : c.Sound property) (steady : c.Steady property)
    (step : Step property c c') (upshot : Upshot env property c c') : c'.Steady property := by
  have number {n : Nat} {point : Point} {m : Machine} (reached : property n point m) (past : c'.machine.budget < n) :=
    steady.number unique sound upshot reached past
  refine ⟨fun a' about => ?_, fun n point m reached past => ?_, fun n point m reached past a' about same => ?_⟩
  · rcases step.carried a' about with new | ⟨a, about, touch, -, carries⟩
    · exact new.recruited.titled
    · exact (steady.titled a about).congr carries.func carries.seq carries.callers carries.names
  · exact Nat.lt_of_lt_of_le (number reached past) (step.counts _)
  · rcases step.carried a' about with new | ⟨a, about, touch, -, carries⟩
    · exact absurd same (ident_ne new.number (number reached past))
    rw [carries.names]
    rw [carries.ident] at same
    rcases upshot.past unique reached past with before | now
    · exact steady.names n point m reached before a about same
    · obtain rfl := sound.eq_of_ident about mem_cons_self (same.trans now.ident)
      exact now.names.symm

end Steady

section Runs

variable {p : Program} {o : Options} {entry : Function} {n n₁ n₂ : Nat} {point point₁ point₂ : Point}
  {m m₁ m₂ : Machine}

theorem History.of_stops (before : n ≤ n₁)
    (stops : analyse ⟨p, o⟩ (Machine.start p entry n) = .error (.stopped point) m) :
    History p o entry n₁ (n₁ - n) point m := by
  refine ⟨Nat.sub_le n₁ n, ?_⟩
  rw [Nat.sub_sub_self before]
  exact stops

theorem steady_start (p : Program) (o : Options) (entry : Function) (n : Nat) :
    Config.Steady (History p o entry n) ⟨Machine.start p entry n, none, []⟩ := by
  refine ⟨?_, ?_, ?_⟩
  · intro a member
    obtain rfl := mem_singleton.1 member
    exact (Recruited.initial entry _ entry.name).titled
  · exact fun left point m reached past => absurd past (Nat.not_lt_of_le reached.1)
  · exact fun left point m reached past => absurd past (Nat.not_lt_of_le reached.1)

theorem steady_stops (stops : analyse ⟨p, o⟩ (Machine.start p entry n) = .error (.stopped point) m) :
    (isPaid point → m.budget = 0) ∧
      ∃ d s, Config.Sound (History p o entry n) ⟨m, d, s⟩ ∧
        Config.Steady (History p o entry n) ⟨m, d, s⟩ := by
  have unique : Unique (History p o entry n) := unique_history p o entry n
  have kept : Invariant ⟨p, o⟩ (History p o entry n)
      fun c => c.Sound (History p o entry n) ∧ c.Steady (History p o entry n) :=
    Invariant.of_step fun sound steady step move => steady.step unique sound step move.upshot
  exact kept.stops ⟨sound_start _ p entry n, steady_start p o entry n⟩ stops

theorem titled_of_stops (stops : StopsAt p o n point m) : m.act.Titled := by
  obtain ⟨entry, -, stops⟩ := stops
  obtain ⟨-, d, s, -, steady⟩ := steady_stops stops
  exact steady.titled m.act mem_cons_self

/-- The table of an activation is the same in every state. -/
theorem names_eq_of_stops (one : StopsAt p o n₁ point₁ m₁) (two : StopsAt p o n₂ point₂ m₂)
    (paid₁ : isPaid point₁)
    (paid₂ : isPaid point₂) (same : m₁.act.ident = m₂.act.ident) : m₁.act.names = m₂.act.names := by
  have later {n₁ n₂ : Nat} {point₁ point₂ : Point} {m₁ m₂ : Machine} (one : StopsAt p o n₁ point₁ m₁)
      (two : StopsAt p o n₂ point₂ m₂) (paid : isPaid point₂) (same : m₁.act.ident = m₂.act.ident)
        (before : n₁ < n₂) :
      m₁.act.names = m₂.act.names := by
    obtain ⟨entry, found, stops₁⟩ := one
    obtain ⟨entry', found', stops₂⟩ := two
    obtain rfl := Option.mem_unique found found'
    obtain ⟨spent, d, s, -, steady⟩ := steady_stops stops₂
    have reached := History.of_stops (Nat.le_of_lt before) stops₁
    have past : m₂.budget < n₂ - n₁ := by
      rw [spent paid]
      omega
    exact (steady.names _ point₁ m₁ reached past m₂.act mem_cons_self same.symm).symm
  rcases Nat.lt_trichotomy n₁ n₂ with before | rfl | after
  · exact later one two paid₂ same before
  · have here := stop?_eq_some.2 one
    rw [stop?_eq_some.2 two] at here
    cases here
    rfl
  · exact (later two one paid₁ same.symm after).symm

end Runs

/-- A channel that the first activation of the entry function creates. -/
def minted (value : String) (index : Int) : Instance :=
  .value ⟨some "main.main", value⟩ 0 index (.chan (.basic "int"))

end Analysis

end ChanFlow
