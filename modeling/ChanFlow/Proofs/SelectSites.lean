import ChanFlow.Proofs.Iterations
import ChanFlow.Proofs.MergeValues

/-!
Which select a test of a case belongs to.

An activation lists its open selects by the tuples they make, and finds the select that a test belongs
to by the instance of its index. The index of a select is what the last extraction of the first part of
its tuple bound, unless the tuple was made anew since. Two selects have one index exactly if two such
extractions, of different tuples, bound the same instance. Where they do not, the select that is found
does not depend on the order of the list.
-/
open List

namespace ChanFlow

open Ssa Protocol

variable {α : Type} {arrival : Arrival} {walk : Walker} {i : Instr} {n : Nat} {a : Activation} {entry : Function}
  {ident : String × Nat}

/-! ### Tables in another order -/

namespace Table

variable {κ β : Type} [DecidableEq κ]

/-- No key is listed twice. -/
def Distinct (t : Table κ β) : Prop := (t.entries.map (·.1)).Nodup

theorem find_eq_some {es : List (κ × β)} (distinct : (es.map (·.1)).Nodup) {k : κ} {v : β} :
    find k es = some v ↔ (k, v) ∈ es := by
  refine ⟨mem_of_find, fun member => ?_⟩
  induction es with
  | nil => cases member
  | cons e rest ih =>
    rw [map_cons, nodup_cons] at distinct
    rw [find]
    rcases mem_cons.1 member with rfl | later
    · rw [if_pos rfl]
    · rw [if_neg, ih distinct.2 later]
      intro same
      exact distinct.1 (mem_map.2 ⟨_, later, same.symm⟩)

theorem map_put (k : κ) (v : β) (es : List (κ × β)) :
    (put k v es).map (·.1) = if k ∈ es.map (·.1) then es.map (·.1) else es.map (·.1) ++ [k] := by
  induction es with
  | nil => rfl
  | cons e rest ih =>
    by_cases here : e.1 = k
    · simp [put, here]
    · have other : k ≠ e.1 := Ne.symm here
      rw [put, if_neg here, map_cons, ih]
      by_cases later : k ∈ rest.map (·.1) <;> simp_all

theorem Distinct.insert {t : Table κ β} (distinct : t.Distinct) (k : κ) (v : β) : (t.insert k v).Distinct := by
  unfold Distinct Table.insert at *
  rw [map_put]
  split
  · exact distinct
  · next new =>
    refine nodup_append.2 ⟨distinct, by simp, fun other member last one same => new ?_⟩
    rwa [← mem_singleton.1 one, ← same]

end Table

theorem find?_perm_of_unique {chosen : α → Bool} {as bs : List α} (perm : bs.Perm as)
    (unique : ∀ a ∈ as, ∀ b ∈ as, chosen a → chosen b → a = b) : bs.find? chosen = as.find? chosen := by
  cases found : as.find? chosen with
  | none =>
    rw [find?_eq_none] at found ⊢
    exact fun b member => found b (perm.mem_iff.1 member)
  | some a =>
    obtain ⟨b, found'⟩ : ∃ b, bs.find? chosen = some b := by
      rw [← Option.isSome_iff_exists, find?_isSome]
      exact ⟨a, perm.mem_iff.2 (mem_of_find?_eq_some found), find?_some found⟩
    rw [found']
    exact congrArg some (unique b (perm.mem_iff.1 (mem_of_find?_eq_some found')) a (mem_of_find?_eq_some found)
      (find?_some found') (find?_some found))

namespace Analysis

/-! ### What instructions do to the open selects -/

/-- The index of an open select. -/
def Activation.indexOf? (a : Activation) (tuple : Instance) : Option Instance := (a.selects.get? tuple).bind (·.index)

/-- What a part of a tuple is when it is extracted: what it was before, or else new. -/
def Activation.partOf (a : Activation) (value : String) (ty : Ty) (tuple : Instance) (part : Nat) : Instance :=
  ((a.tuples.get? tuple).bind (·[part]?.join)).getD (a.fresh value ty)

/-- The first part of the tuple of an open select is extracted. -/
inductive Fetches : Point → Machine → Instance → Instance → Prop
  | extract {arrival : Arrival} {value : String} {ty : Ty} {x : Operand} {pos : Option Position}
    {m : Machine} {tuple : Instance}
    (held : held? m x = some tuple) (listed : (m.act.selects.get? tuple).isSome) :
    Fetches (.instr arrival ⟨.define value ty (.extract x 0), pos⟩) m tuple (m.act.partOf value ty tuple 0)

/-- An open select gets another index: it is made anew, or its index is extracted. -/
inductive Renews : Point → Machine → Instance → Prop
  | select {arrival : Arrival} {value : String} {ty : Ty} {blocking : Bool} {cases : List SelectCase}
    {pos : Option Position}
    {m : Machine} : Renews (.instr arrival ⟨.define value ty (.select blocking cases), pos⟩) m
      (m.act.fresh value ty)
  | extract {point : Point} {m : Machine} {tuple i : Instance} (fetches : Fetches point m tuple i) :
    Renews point m tuple

/-- What an instruction does to the open selects. -/
inductive Relists (point : Point) (m m' : Machine) : Prop
  | kept (selects : m'.act.selects = m.act.selects) (silent : ∀ tuple, ¬ Renews point m tuple)
  | set {tuple : Instance} {site : OpenSelect} (selects : m'.act.selects = m.act.selects.insert tuple site)
    (renews : ∀ other, Renews point m other ↔ other = tuple) (index : ∀ i, Fetches point m tuple i ↔
      site.index = some i)

section Steps

variable {α β : Type} {m m' : Machine}

/-- A select is listed under the tuple it makes, without an index. -/
theorem leads_select (types : TypeTable) (value : String) (ty : Ty) (blocking : Bool) (cases : List SelectCase) :
    Leads (select types value ty blocking cases) m
      fun _ m' => ∃ site, m'.act.selects = m.act.selects.insert (m.act.fresh value ty) site ∧
        site.index = none := by
  have reads : Composed ⟨False, True, False, True⟩ (cases.mapM fun c => channelOf c.chan) :=
    .mapM (fun c => composed_channelOf c.chan) cases
  rw [select, leads_bind]
  refine (((reads.quietly id).leads m).and (reads.leads_kept m)).partly fun chans m₁ read => ?_
  obtain ⟨⟨quiet, -⟩, kept, -⟩ := read
  have selects := kept id
  have tuple : m₁.act.fresh value ty = m.act.fresh value ty := quiet.fresh value ty
  dsimp only
  rw [leads_bind, leads_addStatement, fresh, leads_bind, leads_bind, leads_activation, leads_pure,
    leads_bind, leads_modifyActivation, bindValue, leads_bind, leads_emit, leads_modifyActivation]
  refine ⟨_, congrArg₂ (fun s t => Table.insert s t _) selects tuple, rfl⟩

/-- An extraction of the first part of a tuple gives the select of the tuple an index, if there is one. -/
theorem leads_extract (value : String) (ty : Ty) (x : Operand) :
    Leads (extract value ty x 0) m
      fun _ m' => ∃ tuple, held? m x = some tuple ∧
        m'.act.selects = match m.act.selects.get? tuple with
          | some site => m.act.selects.insert tuple { site with index := some (m.act.partOf value ty tuple 0) }
          | none => m.act.selects := by
  rw [extract, leads_bind, instanceOf, leads_bind]
  refine (leads_held? x).surely fun found m₁ read => ?_
  obtain ⟨rfl, act, -⟩ := read
  cases held : held? m x with
  | none => trivial
  | some tuple =>
    have part : Leads (tuplePart value ty tuple 0) m₁ fun i m₂ => i = m.act.partOf value ty tuple 0 ∧
      m₂.act.selects = m.act.selects := by
      rw [tuplePart, leads_bind, leads_activation, act, Activation.partOf]
      split
      · next found => exact ⟨by rw [found]; rfl, congrArg (·.selects) act⟩
      · next none =>
        rw [none]
        dsimp only
        split
        · exact ⟨rfl, congrArg (·.selects) act⟩
        · exact ⟨rfl, congrArg (·.selects) act⟩
    rw [leads_pure, leads_bind]
    refine part.imp fun i m₂ made => ?_
    obtain ⟨rfl, selects⟩ := made
    rw [leads_bind, notePart, noteChosen, leads_bind, leads_activation, selects]
    cases listed : m.act.selects.get? tuple with
    | none => exact ⟨tuple, rfl, by rw [listed]; exact selects⟩
    | some site =>
      refine ⟨tuple, rfl, ?_⟩
      rw [listed]
      exact congrArg (fun s => Table.insert s tuple _) selects

theorem silent_of_not_onSelects {value : String} {ty : Ty} {op : ValueOp} {pos : Option Position}
    (other : ¬ op.OnSelects) (tuple : Instance) :
    ¬ Renews (.instr arrival ⟨.define value ty op, pos⟩) m tuple := by
  intro renews
  cases renews with
  | select => exact other trivial
  | extract fetches =>
    cases fetches
    exact other rfl

theorem relists_simple {env : Env} (simple : isSimple i.action)
    (ends : interpret env walk arrival i.action (m.withBudget n) = .ok () m') :
    Relists (.instr arrival i) (m.withBudget 0) m' := by
  obtain ⟨action, pos⟩ := i
  cases action with
  | perform effect =>
    have silent (tuple : Instance) : ¬ Renews (.instr arrival ⟨.perform effect, pos⟩) (m.withBudget 0) tuple := by
      rintro (_ | ⟨⟨⟩⟩)
    obtain ⟨step, composed, eq⟩ | ⟨dst, rfl⟩ | ⟨cond, onTrue, onFalse, rfl⟩ | ⟨c, rfl⟩ | ⟨c, rfl⟩ |
      ⟨c, rfl⟩ | rfl :=
      composed_perform env arrival effect
    · rw [interpret, eq] at ends
      exact .kept (((composed.leads_kept (m.withBudget n)).ok ends).1 id) silent
    all_goals cases simple
  | define value ty op =>
    by_cases on : op.OnSelects
    · cases op with
      | select blocking cases =>
        obtain ⟨site, selects, unset⟩ := (leads_select env.program.types value ty blocking cases).ok ends
        refine .set selects (fun other => ⟨fun renews => ?_, fun same => same ▸ .select⟩) fun i =>
          ⟨fun fetches => ?_, fun index => ?_⟩
        · cases renews with
          | select => rfl
          | extract fetches => cases fetches
        · cases fetches
        · cases unset.symm.trans index
      | extract x part =>
        obtain rfl : part = 0 := on
        obtain ⟨tuple, held, selects⟩ := (leads_extract value ty x).ok ends
        have held : held? (m.withBudget 0) x = some tuple := (held?_congr rfl rfl x).trans held
        split at selects
        · next site listed =>
          have fetches : Fetches (.instr arrival ⟨.define value ty (.extract x 0), pos⟩) (m.withBudget 0) tuple
              (m.act.partOf value ty tuple 0) := .extract held (Option.isSome_of_eq_some listed)
          refine .set selects (fun other => ⟨fun renews => ?_, fun same => same ▸ .extract fetches⟩)
            fun i => ⟨fun fetches => ?_, fun same => ?_⟩
          · cases renews with
            | extract fetches =>
              cases fetches with
              | extract held' _ => exact Option.mem_unique held' held
          · cases fetches
            rfl
          · cases same
            exact fetches
        · next unlisted =>
          refine .kept selects fun other renews => ?_
          cases renews with
          | extract fetches =>
            cases fetches with
            | extract held' listed =>
              obtain rfl := Option.mem_unique held' held
              exact absurd unlisted (Option.isSome_iff_ne_none.1 listed)
      | _ => exact on.elim
    · refine .kept ?_ (silent_of_not_onSelects on)
      obtain ⟨step, composed, eq⟩ | ⟨edges, rfl⟩ | ⟨sign, x, y, rfl⟩ | ⟨c, rfl⟩ :=
        composed_define env arrival value ty op
      · rw [interpret, eq] at ends
        exact ((composed.leads_kept (m.withBudget n)).ok ends).1 on
      · exact (Spares.of_composed (composed_phi trivial arrival value edges) (m.withBudget n)).ok ends
      · exact (Spares.of_composed (composed_binary trivial _ arrival value ty sign x y) (m.withBudget n)).ok ends
      · cases simple

end Steps

/-! ### The index that stands -/

/-- An extraction gave a select of an activation its index, and the select was not renewed since. -/
def StandsFor (property : Property) (left : Nat) (ident : String × Nat) (tuple i : Instance) : Prop :=
  ∃ n point m, property n point m ∧ left < n ∧ m.act.ident = ident ∧ Fetches point m tuple i ∧
    ∀ n' point' m', property n' point' m' → left < n' → n' < n → m'.act.ident = ident →
      ¬ Renews point' m' tuple

section StandsFor

variable {property : Property} {left : Nat} {ident : String × Nat} {tuple i : Instance} {point : Point}
  {m : Machine} (unique : Unique property) (reached : property (left + 1) point m)
include unique reached

/-- What does not renew the select leaves its index standing. -/
theorem standsFor_of_silent (silent : m.act.ident = ident → ¬ Renews point m tuple) :
    StandsFor property left ident tuple i ↔ StandsFor property (left + 1) ident tuple i := by
  constructor
  · rintro ⟨n, point₁, m₁, fetched, past, own, fetches, since⟩
    have before : left + 1 < n := by
      refine Nat.lt_of_le_of_ne past ?_
      rintro rfl
      obtain ⟨rfl, rfl⟩ := unique _ _ _ _ _ fetched reached
      exact silent own (.extract fetches)
    exact ⟨n, point₁, m₁, fetched, before, own, fetches,
      fun n' point' m' reached' later => since n' point' m' reached' (Nat.lt_of_succ_lt later)⟩
  · rintro ⟨n, point₁, m₁, fetched, past, own, fetches, since⟩
    refine ⟨n, point₁, m₁, fetched, Nat.lt_of_succ_lt past, own, fetches,
      fun n' point' m' reached' later before own' => ?_⟩
    by_cases now : n' = left + 1
    · subst now
      obtain ⟨rfl, rfl⟩ := unique _ _ _ _ _ reached reached'
      exact silent own'
    · exact since n' point' m' reached' (by omega) before own'

/-- What renews the select decides on its index. -/
theorem standsFor_of_renews (own : m.act.ident = ident) (renews : Renews point m tuple) :
    StandsFor property left ident tuple i ↔ Fetches point m tuple i := by
  constructor
  · rintro ⟨n, point₁, m₁, fetched, past, -, fetches, since⟩
    by_cases now : n = left + 1
    · subst now
      obtain ⟨rfl, rfl⟩ := unique _ _ _ _ _ reached fetched
      exact fetches
    · exact absurd renews (since _ _ _ reached (Nat.lt_succ_self left) (by omega) own)
  · exact fun fetches => ⟨left + 1, point, m, reached, Nat.lt_succ_self left, own, fetches,
      fun n' _ _ _ later before => by omega⟩

end StandsFor

/-! ### What a run keeps -/

theorem silent_of_steers {point : Point} {m : Machine}
    (steers : ∀ arrival i, point = .instr arrival i → isSimple i.action = false)
    (tuple : Instance) : ¬ Renews point m tuple := by
  intro renews
  cases renews with
  | select => exact nomatch steers _ _ rfl
  | extract fetches =>
    cases fetches
    exact nomatch steers _ _ rfl

/-- The open selects of an activation have the indices that stand for them. -/
structure Activation.Listed (property : Property) (left : Nat) (a : Activation) : Prop where
  distinct : a.selects.Distinct
  index : ∀ tuple i, a.indexOf? tuple = some i ↔ StandsFor property left a.ident tuple i

def Config.Listed (property : Property) (c : Config) : Prop := ∀ a ∈ c.crew, a.Listed property c.machine.budget

section Listed

variable {env : Env} {property : Property} {c c' : Config} {ident : String × Nat} {tuple i : Instance}

theorem Activation.Listed.kept {a b : Activation} {left left' : Nat} (listed : b.Listed property left)
    (ident : b.ident = a.ident) (selects : a.selects = b.selects)
    (same : ∀ tuple i, StandsFor property left' b.ident tuple i ↔ StandsFor property left b.ident tuple i) :
    a.Listed property left' where
  distinct := selects ▸ listed.distinct
  index tuple i := by
    rw [indexOf?, selects, ← ident, same]
    exact listed.index tuple i

theorem Config.Listed.step (unique : Unique property) (sound : c.Sound property) (steady : c.Steady property)
    (listed : c.Listed property) (upshot : Upshot env property c c') : c'.Listed property := by
  have known {n : Nat} {point : Point} {m : Machine} (reached : property n point m) (past : c'.machine.budget < n) :=
    steady.number unique sound upshot reached past
  intro a about
  cases upshot with
  | @simple arrival i walk pays reached simple idle crew ends =>
    have before (b : Activation) (old : b ∈ c.crew) : b.Listed property (c'.machine.budget + 1) :=
      pays ▸ listed b old
    rcases crew a about with rfl | old
    · have own := before _ mem_cons_self
      have ident := (staying_simple simple ends).1.ident
      cases relists_simple simple ends with
      | kept selects silent =>
        exact own.kept ident.symm selects fun tuple _ => standsFor_of_silent unique reached fun _ => silent tuple
      | @set tuple site selects renews index =>
        refine ⟨selects ▸ own.distinct.insert tuple site, fun other i => ?_⟩
        rw [Activation.indexOf?, selects, Table.get?_insert, ident]
        by_cases same : other = tuple
        · subst same
          rw [if_pos rfl, Option.bind_some, ← index]
          exact (standsFor_of_renews unique reached rfl ((renews other).2 rfl)).symm
        · rw [if_neg (Ne.symm same)]
          refine (own.index other i).trans (standsFor_of_silent unique reached fun _ => ?_).symm
          exact mt (renews other).1 same
    · refine (before a (mem_of_mem_tail old)).kept rfl rfl fun tuple _ =>
        standsFor_of_silent unique reached fun own => ?_
      exact absurd (mem_map.2 ⟨a, old, own.symm⟩) (nodup_cons.1 sound.distinct).1
  | other heap arena draws scheduled passes =>
    rcases (draws a about).own with ⟨number, -, blank⟩ | ⟨b, old, ident, -, selects⟩
    · refine ⟨by rw [blank]; exact nodup_nil, fun tuple i => iff_of_false ?_ ?_⟩
      · rw [Activation.indexOf?, blank]
        exact nofun
      · rintro ⟨n, point, m, reached, past, own, -⟩
        exact ident_ne number (known reached past) own.symm
    · refine (listed b old).kept ident selects fun tuple _ => ?_
      cases passes with
      | unpaid same => rw [same]
      | paid pays reached staying steers =>
        rw [pays]
        exact standsFor_of_silent unique reached fun _ => silent_of_steers steers tuple

end Listed

section Runs

variable {p : Program} {o : Options} {n : Nat} {point : Point} {m : Machine}

theorem listed_stops (stops : analyse ⟨p, o⟩ (Machine.start p entry n) = .error (.stopped point) m) :
    (isPaid point → m.budget = 0) ∧ ∃ d s, Config.Listed (History p o entry n) ⟨m, d, s⟩ := by
  have unique : Unique (History p o entry n) := unique_history p o entry n
  have kept : Invariant ⟨p, o⟩ (History p o entry n) fun c => c.Sound (History p o entry n) ∧
      c.Steady (History p o entry n) ∧ c.Listed (History p o entry n) := by
    intro c c' ⟨sound, steady, listed⟩ move
    have step := move.step sound
    exact ⟨step.sound, steady.step unique sound step move.upshot,
      listed.step unique sound steady move.upshot⟩
  have start : Config.Listed (History p o entry n) ⟨Machine.start p entry n, none, []⟩ := by
    intro a about
    obtain rfl := mem_singleton.1 about
    refine ⟨nodup_nil, fun tuple i => iff_of_false nofun ?_⟩
    rintro ⟨left, point, m, reached, past, -⟩
    exact Nat.not_lt_of_le reached.1 past
  obtain ⟨spent, d, s, -, -, listed⟩ := kept.stops ⟨sound_start _ p entry n, steady_start p o entry n,
    start⟩ stops
  exact ⟨spent, d, s, listed⟩

/-- The last that a run did to an open select was to extract its index. -/
def LastFetched (p : Program) (o : Options) (n : Nat) (ident : String × Nat) (tuple i : Instance) : Prop :=
  ∃ n₁ point₁ m₁, n₁ < n ∧ StopsAt p o n₁ point₁ m₁ ∧ m₁.act.ident = ident ∧
    Fetches point₁ m₁ tuple i ∧
    ∀ n₂ point₂ m₂, n₁ < n₂ → n₂ < n → StopsAt p o n₂ point₂ m₂ → m₂.act.ident = ident →
      ¬ Renews point₂ m₂ tuple

theorem standsFor_iff (found : Enters p o.entry entry)
    {tuple i : Instance} : StandsFor (History p o entry n) 0 ident tuple i ↔ LastFetched p o n ident tuple i := by
  constructor
  · rintro ⟨left, point₁, m₁, ⟨small, stops⟩, past, own, fetches, since⟩
    refine ⟨n - left, point₁, m₁, by omega, ⟨entry, found, stops⟩, own, fetches, ?_⟩
    rintro n₂ point₂ m₂ later before ⟨entry', found', stops₂⟩ own₂
    obtain rfl := Option.mem_unique found found'
    exact since (n - n₂) point₂ m₂ (.of_stops before.le stops₂) (by omega) (by omega) own₂
  · rintro ⟨n₁, point₁, m₁, before, ⟨entry', found', stops⟩, own, fetches, since⟩
    obtain rfl := Option.mem_unique found found'
    refine ⟨n - n₁, point₁, m₁, .of_stops before.le stops, by omega, own, fetches, ?_⟩
    rintro left point₂ m₂ ⟨small, stops₂⟩ past later own₂
    exact since (n - left) point₂ m₂ (by omega) (by omega) ⟨entry, found, stops₂⟩ own₂

/-- No two entries have this index. -/
def Activation.OneWithIndex (a : Activation) (i : Instance) : Prop :=
  ∀ e ∈ a.selects.entries, ∀ e' ∈ a.selects.entries, e.2.index = some i → e'.2.index = some i → e = e'

/-- In another order of the entries the same select is found, if no two have the index that is asked for. -/
theorem selectTest?_perm (one : ∀ i, a.OneWithIndex i) {selects : Table Instance OpenSelect}
    (perm : selects.entries.Perm a.selects.entries) (cond : Operand) :
    selectTest? { a with selects } cond = selectTest? a cond := by
  have found (i : Instance) : selects.values.find? (·.index = some i) = a.selects.values.find?
    (·.index = some i) := by
    refine find?_perm_of_unique (perm.map _) fun site member site' member' chosen chosen' => ?_
    obtain ⟨e, inside, rfl⟩ := mem_map.1 member
    obtain ⟨e', inside', rfl⟩ := mem_map.1 member'
    rw [one i e inside e' inside' (by simpa using chosen) (by simpa using chosen')]
  unfold selectTest?
  simp only [found]
  rfl

/-- The entries with an index are those whose index was extracted last as this instance. So there is at
most one exactly if the index was not extracted from two tuples in this way, and then the select that a
test belongs to is the same in every order of the entries. -/
theorem select_index_iff (stops : StopsAt p o n point m) (paid : isPaid point) :
    (∀ tuple i, (∃ site, (tuple, site) ∈ m.act.selects.entries ∧ site.index = some i) ↔
      LastFetched p o n m.act.ident tuple i) ∧
    (∀ i, m.act.OneWithIndex i ↔
      ∀ tuple tuple', LastFetched p o n m.act.ident tuple i → LastFetched p o n m.act.ident tuple' i →
        tuple = tuple') ∧
    ((∀ i tuple tuple', LastFetched p o n m.act.ident tuple i →
      LastFetched p o n m.act.ident tuple' i → tuple = tuple') →
      ∀ selects : Table Instance OpenSelect, selects.entries.Perm m.act.selects.entries →
        ∀ cond, selectTest? { m.act with selects } cond = selectTest? m.act cond) := by
  obtain ⟨entry, found, stopped⟩ := stops
  obtain ⟨spent, d, s, listed⟩ := listed_stops stopped
  have distinct : m.act.selects.Distinct := (listed m.act mem_cons_self).distinct
  have entries (tuple i : Instance) : (∃ site, (tuple, site) ∈ m.act.selects.entries ∧ site.index = some i) ↔
      LastFetched p o n m.act.ident tuple i := by
    have index := (listed m.act mem_cons_self).index tuple i
    rw [show (Config.mk m d s).machine.budget = 0 from spent paid, standsFor_iff found] at index
    rw [← index, Activation.indexOf?, Option.bind_eq_some_iff]
    exact exists_congr fun site => and_congr_left' (Table.find_eq_some distinct).symm
  have one (i : Instance) : m.act.OneWithIndex i ↔
      ∀ tuple tuple', LastFetched p o n m.act.ident tuple i → LastFetched p o n m.act.ident tuple' i →
        tuple = tuple' := by
    constructor
    · intro one tuple tuple' last last'
      obtain ⟨site, member, index⟩ := (entries tuple i).2 last
      obtain ⟨site', member', index'⟩ := (entries tuple' i).2 last'
      exact congrArg Prod.fst (one _ member _ member' index index')
    · rintro apart ⟨tuple, site⟩ member ⟨tuple', site'⟩ member' index index'
      obtain rfl := apart tuple tuple' ((entries tuple i).1 ⟨site, member, index⟩)
        ((entries tuple' i).1 ⟨site', member', index'⟩)
      exact inj_on_of_nodup_map distinct member member' rfl
  exact ⟨entries, one, fun apart selects perm cond => selectTest?_perm (fun i => (one i).2 (apart i)) perm cond⟩

end Runs

/-! ### Selects of an unrolled loop -/

def siftingTy : Ty := .tuple [.basic "int", .basic "bool", .basic "int"]

/-- Makes a select in each round of a static loop, and extracts its index in a loop inside that. -/
def sifting : Function := .closed "main.main" [
  .of 0 none [] [1] [
    .define "ch" .intChan (.makeChan (.int 2)),
    .perform (.jump 1)],
  .of 1 (some "for.loop") [0, 5] [2, 6] [
    .define "i" .int (.phi [⟨0, .int 0⟩, ⟨5, .var "s"⟩]),
    .define "c" .bool (.binary .lt (.var "i") (.int 2)),
    .perform (.branch (.var "c") 2 6)],
  .of 2 (some "for.body") [1] [3] [
    .define "t" siftingTy (.select true [.recv (.var "ch")]),
    .perform (.jump 3)],
  .of 3 (some "for.loop") [2, 4] [4, 5] [
    .define "j" .int (.phi [⟨2, .int 0⟩, ⟨4, .var "u"⟩]),
    .define "d" .bool (.binary .lt (.var "j") (.int 1)),
    .perform (.branch (.var "d") 4 5)],
  .of 4 (some "for.body") [3] [3] [
    .define "x" .int (.extract (.var "t") 0),
    .define "u" .int (.binary .add (.var "j") (.int 1)),
    .perform (.jump 3)],
  .of 5 (some "for.done") [3] [1] [
    .define "s" .int (.binary .add (.var "i") (.int 1)),
    .perform (.jump 1)],
  .of 6 (some "for.done") [1] [] [
    .define "e" .bool (.binary .eq (.var "x") (.int 0)),
    .perform (.ret [])]]

def sifted : Program := { functions := [sifting] }

/-- The tuple of the select of a round, and what is noted of the select. -/
def siftingSite (round : Int) (routine : String) (index : Option Instance) : Instance × OpenSelect :=
  (.value ⟨some "main.main", "t"⟩ 0 round siftingTy, { index, slot := 0, routine, cases := 1, blocking := true })

def siftingIndex : Instance := .value ⟨some "main.main", "x"⟩ 0 0 (.basic "int")

/-- What is looked at of a state: the open selects, and which one a test of the index is found to
belong to, in both orders. -/
structure Sifted where
  paid : Bool
  ident : String × Nat
  entries : List (Instance × OpenSelect)
  found : Option (OpenSelect × Nat)
  reversed : Option (OpenSelect × Nat)
deriving DecidableEq

def siftingAt (n : Nat) : Option Sifted :=
  (stop? sifted {} n).map fun s =>
    { paid := isPaid s.1
      ident := s.2.act.ident
      entries := s.2.act.selects.entries
      found := selectTest? s.2.act (.var "e")
      reversed := selectTest? { s.2.act with selects := ⟨s.2.act.selects.entries.reverse⟩ } (.var "e") }

theorem siftingAt_eq {entries : List (Instance × OpenSelect)}
    {found reversed : Option (OpenSelect × Nat)}
    (here : siftingAt n = some ⟨true, ident, entries, found, reversed⟩) :
    ∃ point m, StopsAt sifted {} n point m ∧ isPaid point ∧ m.act.ident = ident ∧
      m.act.selects.entries = entries ∧ selectTest? m.act (.var "e") = found ∧
      selectTest? { m.act with selects := ⟨m.act.selects.entries.reverse⟩ } (.var "e") = reversed := by
  obtain ⟨⟨point, m⟩, stops, eq⟩ := Option.map_eq_some_iff.1 here
  simp only [Sifted.mk.injEq] at eq
  obtain ⟨paid, rfl, rfl, rfl, rfl⟩ := eq
  exact ⟨point, m, stop?_eq_some.1 stops, paid, rfl, rfl, rfl, rfl⟩

/-- Both selects have their index. -/
theorem sifting_at_end :
    siftingAt 51 = some ⟨true, ("main.main", 0),
      [siftingSite 0 "main.main#1" (some siftingIndex), siftingSite 1 "main.main#3_0" (some siftingIndex)],
      some ((siftingSite 0 "main.main#1" (some siftingIndex)).2, 0),
      some ((siftingSite 1 "main.main#3_0" (some siftingIndex)).2, 0)⟩ := by
  decide +kernel

/-- Before the second extraction the order of the selects does not matter. After it, one instance is
the index of both. -/
theorem sifting_index_fetched :
    (∃ point m, StopsAt sifted {} 36 point m ∧ isPaid point ∧ m.act.selects.entries.length = 2 ∧
      LastFetched sifted {} 36 m.act.ident (siftingSite 0 "main.main#1" none).1 siftingIndex ∧
      ∀ selects : Table Instance OpenSelect, selects.entries.Perm m.act.selects.entries →
        ∀ cond, selectTest? { m.act with selects } cond = selectTest? m.act cond) ∧
    LastFetched sifted {} 51 ("main.main", 0) (siftingSite 0 "main.main#1" none).1 siftingIndex ∧
    LastFetched sifted {} 51 ("main.main", 0) (siftingSite 1 "main.main#3_0" none).1 siftingIndex := by
  have once : siftingAt 36 = some ⟨true, ("main.main", 0),
      [siftingSite 0 "main.main#1" (some siftingIndex), siftingSite 1 "main.main#3_0" none],
      some ((siftingSite 0 "main.main#1" (some siftingIndex)).2, 0),
      some ((siftingSite 0 "main.main#1" (some siftingIndex)).2, 0)⟩ := by decide +kernel
  obtain ⟨point₁, m₁, stops₁, paid₁, -, entries₁, -⟩ := siftingAt_eq once
  obtain ⟨point₂, m₂, stops₂, paid₂, ident₂, entries₂, -⟩ := siftingAt_eq sifting_at_end
  obtain ⟨fetched₁, one₁, found₁⟩ := select_index_iff stops₁ paid₁
  obtain ⟨fetched₂, -, -⟩ := select_index_iff stops₂ paid₂
  rw [entries₁] at fetched₁
  rw [entries₂, ident₂] at fetched₂
  have one (i : Instance) : m₁.act.OneWithIndex i := by
    rw [Activation.OneWithIndex, entries₁]
    simp [siftingSite]
  refine ⟨⟨point₁, m₁, stops₁,
    paid₁, by rw [entries₁]; rfl, ?_, found₁ fun i => (one₁ i).1 (one i)⟩, ?_, ?_⟩
  · exact (fetched₁ _ _).1 ⟨_, mem_cons_self, rfl⟩
  · exact (fetched₂ _ _).1 ⟨_, mem_cons_self, rfl⟩
  · exact (fetched₂ _ _).1 ⟨_, mem_cons_of_mem _ mem_cons_self, rfl⟩

/-- The selects of both rounds of the outer loop have one index, and which of them a test is found to
belong to depends on their order. -/
theorem sifting_index_shared :
    sifting.Linked ∧ (infer 100 sifted {}).result.toBool ∧
      ∃ point m, StopsAt sifted {} 51 point m ∧ isPaid point ∧ ¬ m.act.OneWithIndex siftingIndex ∧
        ∃ selects : Table Instance OpenSelect, selects.entries.Perm m.act.selects.entries ∧
          selectTest? { m.act with selects } (.var "e") ≠ selectTest? m.act (.var "e") := by
  obtain ⟨point, m, stops, paid, -, entries, found, reversed⟩ := siftingAt_eq sifting_at_end
  refine ⟨⟨sifting.draft,
    rfl⟩, by decide +kernel, point, m, stops, paid, fun one => ?_, ⟨m.act.selects.entries.reverse⟩,
    reverse_perm _, fun same => ?_⟩
  · rw [Activation.OneWithIndex, entries] at one
    have same := one _ mem_cons_self _ (mem_cons_of_mem _ mem_cons_self) rfl rfl
    exact absurd same (by decide)
  · exact absurd (reversed.symm.trans (same.trans found)) (by decide)

end Analysis

end ChanFlow
