import ChanFlow.Proofs.MergeValues
import Mathlib.Logic.Relation

/-!
What instructions do to storage.

The `Holdings` of a machine are the tables of containers, the containers themselves and the addresses that were noted.
Every instruction that stays inside its block changes them by a few kinds of `Deed`, within the `License` that it has:
only a store overwrites what a slot holds, and only an instance that was just created or stored to a global gets another
container. Every container that is referred to is there (`allocated_of_stops`).
-/
open List

namespace ChanFlow

open Ssa

variable {slot : Slot} {v i : Instance} {shape : Shape} {id : ContainerId} {value : String} {ty : Ty} {address : Bool}
  {env : Env} {walk : Walker} {arrival : Arrival} {action : Action} {m' m m₁ m₂ : Machine} {count : String → Nat}
  {givers : List Activation} {a : Activation} {types : TypeTable} {args : List Operand} {captures : List Instance}
  {receiver : Option Instance} {p : Program} {o : Options} {entry : Function} {point : Point}

theorem Container.get?_set? {c c' : Container} (set : c.set? slot v = some c') (other : Slot) :
    c'.get? other = if other = slot then some (some v) else c.get? other := by
  have swap (t : Table Instance Instance) (i j : Instance) :
      some ((t.insert i v).get? j) = if j = i then some (some v) else some (t.get? j) := by
    rw [Table.get?_insert, apply_ite some]
    exact ite_congr (propext eq_comm) (fun _ => rfl) fun _ => rfl
  cases c with
  | elems length entries =>
    cases slot with
    | index i =>
      cases set
      cases other with
      | index j => simpa only [Container.get?, Slot.index.injEq] using swap entries i j
      | field j => rfl
      | key j => rfl
    | field i => cases set
    | key i => cases set
  | fields slots =>
    cases slot with
    | field i =>
      obtain ⟨there, eq⟩ : i < slots.length ∧ c' = .fields (slots.set i (some v)) := by
        by_cases there : i < slots.length
        · exact ⟨there, (Option.some.inj ((if_pos there).symm.trans set)).symm⟩
        · cases (if_neg there).symm.trans set
      subst eq
      cases other with
      | index j => rfl
      | field j =>
        simp only [Container.get?, getElem?_set, if_pos there, Slot.field.injEq]
        exact ite_congr (propext eq_comm) (fun _ => rfl) fun _ => rfl
      | key j => rfl
    | index i => cases set
    | key i => cases set
  | map entries =>
    cases slot with
    | key i =>
      cases set
      cases other with
      | key j => simpa only [Container.get?, Slot.key.injEq] using swap entries i j
      | field j => rfl
      | index j => rfl
    | field i => cases set
    | index i => cases set

namespace Arena

/-- What a slot holds, if it is there and in use. -/
def content (a : Arena) (id : ContainerId) (slot : Slot) : Option Instance := ((a.get? id).bind (·.get? slot)).join

/-- What a slot holds, if it is there. -/
def slot? (a : Arena) (id : ContainerId) (slot : Slot) : Option (Option Instance) := (a.get? id).bind (·.get? slot)

variable {a a' : Arena} {id : ContainerId} {slot : Slot} {v owner : Instance} {before : Option Instance}

section

variable (written : a.write id slot v owner = .ok (before, a'))
include written

theorem write_eq : ∃ c c', a.get? id = some c ∧ c.get? slot = some before ∧ c.set? slot v = some c' ∧
    a' = ⟨a.containers.set id c'⟩ := by
  unfold write at written
  split at written
  · exact nomatch written
  · next c here =>
    split at written
    · next held set =>
      cases written
      exact ⟨c, _, here, held, set, rfl⟩
    · exact nomatch written

theorem length_write : a'.containers.length = a.containers.length := by
  obtain ⟨_, _, -, -, -, rfl⟩ := write_eq written
  exact length_set

/-- What a slot held before it was written. -/
theorem before_write : before = a.content id slot := by
  obtain ⟨c, _, here, held, -⟩ := write_eq written
  rw [content, here, Option.bind_some, held]
  rfl

/-- A write is to one slot. -/
theorem slot?_write (other : ContainerId) (slot' : Slot) :
    a'.slot? other slot' = if other = id ∧ slot' = slot then some (some v) else a.slot? other slot' := by
  obtain ⟨c, c', here, -, set, rfl⟩ := write_eq written
  obtain ⟨there, -⟩ := List.getElem?_eq_some_iff.1 here
  show ((a.containers.set id c')[other]?).bind _ = _
  rw [getElem?_set, if_pos there]
  by_cases same : id = other
  · subst same
    rw [if_pos rfl, Option.bind_some, Container.get?_set? set, slot?, here]
    by_cases slots : slot' = slot
    · rw [if_pos slots, if_pos ⟨rfl, slots⟩]
    · rw [if_neg slots, if_neg fun both => slots both.2, Option.bind_some]
  · rw [if_neg same, if_neg fun both => same both.1.symm]
    rfl

theorem content_write (other : ContainerId) (slot' : Slot) :
    a'.content other slot' = if other = id ∧ slot' = slot then some v else a.content other slot' := by
  have after := congrArg Option.join (slot?_write written other slot')
  rwa [apply_ite Option.join] at after

end

theorem length_replaceAll (a : Arena) (ids : List ContainerId) (old new : Instance) :
    (a.replaceAll ids old new).2.containers.length = a.containers.length := length_mapIdx

theorem length_alloc (made : a.alloc shape = some (id, a')) :
    id = a.containers.length ∧ a'.containers.length = a.containers.length + 1 := by
  obtain ⟨c, -, eq⟩ := Option.map_eq_some_iff.1 made
  cases eq
  exact ⟨rfl, length_append⟩

end Arena

namespace Analysis

/-! ### Deeds -/

namespace Holdings

/-- The container that an instance has here: that of the scope, or else that of the heap. -/
def sees (h : Holdings) (i : Instance) : Option ContainerId := (h.storage.get? i).or (h.heap.get? i)

/-- Every container that is referred to is there. -/
structure Allocated (h : Holdings) : Prop where
  heap : ∀ e ∈ h.heap.entries, e.2 < h.arena.containers.length
  storage : ∀ e ∈ h.storage.entries, e.2 < h.arena.containers.length
  addresses : ∀ value s, h.addresses.get? value = some s → s.1 < h.arena.containers.length

variable {h : Holdings}

theorem Allocated.sees (allocated : h.Allocated) (held : h.sees i = some id) : id < h.arena.containers.length := by
  rcases Option.or_eq_some_iff.1 held with inScope | ⟨-, onHeap⟩
  · exact allocated.storage _ (Table.mem_of_find inScope)
  · exact allocated.heap _ (Table.mem_of_find onHeap)

end Holdings

/-- An activation refers to the first `n` containers only. -/
structure Activation.Allocated (n : Nat) (a : Activation) : Prop where
  storage : ∀ e ∈ a.storage.entries, e.2 < n
  addresses : ∀ value s, a.addresses.get? value = some s → s.1 < n

/-- What a step may do to storage. -/
structure License where
  /-- The instances that may get another container. -/
  place : Instance → Prop
  /-- The values whose address may be noted. -/
  note : String → Prop
  /-- Whether slots in use may be overwritten. -/
  overwrite : Prop

/-- An instance may get a container, as it has none or as the license says so. -/
def License.allows (l : License) (h : Holdings) (i : Instance) : Prop := h.sees i = none ∨ l.place i

inductive Deed (l : License) : Holdings → Holdings → Prop
  /-- A new container is made for an instance. -/
  | makeOnHeap {h : Holdings} {i : Instance} {shape : Shape} {id : ContainerId} {arena : Arena}
    (made : h.arena.alloc shape = some (id, arena)) (may : l.allows h i) :
    Deed l h { h with arena, heap := h.heap.insert i id }
  | makeInScope {h : Holdings} {i : Instance} {shape : Shape} {id : ContainerId} {arena : Arena}
    (made : h.arena.alloc shape = some (id, arena)) (may : l.allows h i) :
    Deed l h { h with arena, storage := h.storage.insert i id }
  /-- An instance gets a container that another has. -/
  | shareOnHeap {h : Holdings} {i j : Instance} {id : ContainerId} (known : h.sees j = some id) (may : l.place i) :
    Deed l h { h with heap := h.heap.insert i id }
  | shareInScope {h : Holdings} {i j : Instance} {id : ContainerId} (known : h.sees j = some id) (may : l.place i) :
    Deed l h { h with storage := h.storage.insert i id }
  | write {h : Holdings} {id : ContainerId} {slot : Slot} {v owner : Instance}
    {before : Option Instance} {arena : Arena}
    (written : h.arena.write id slot v owner = .ok (before, arena))
    (may : before = none ∨ slot.kind = .map ∨ l.overwrite) : Deed l h { h with arena }
  | replace {h : Holdings} {ids : List ContainerId} {old new : Instance} (may : l.overwrite) :
    Deed l h { h with arena := (h.arena.replaceAll ids old new).2 }
  | note {h : Holdings} {value : String} {id : ContainerId} {slot : Slot} {v : Instance}
    (held : h.arena.content id slot = some v) (kind : slot.kind ≠ .map) (may : l.note value) :
    Deed l h { h with addresses := h.addresses.insert value (id, slot) }

abbrev Deeds (l : License) : Holdings → Holdings → Prop := Relation.ReflTransGen (Deed l)

theorem there_of_content {a : Arena} (held : a.content id slot = some v) : id < a.containers.length := by
  rw [Arena.content, Arena.get?] at held
  by_contra beyond
  rw [getElem?_eq_none (Nat.le_of_not_lt beyond)] at held
  cases held

section Deeds

variable {l : License} {h h' : Holdings}

theorem Deed.length_le (deed : Deed l h h') : h.arena.containers.length ≤ h'.arena.containers.length := by
  cases deed with
  | makeOnHeap made | makeInScope made =>
    exact Nat.le_of_lt (Nat.lt_of_lt_of_eq (Nat.lt_succ_self _) (Arena.length_alloc made).2.symm)
  | write written => exact Nat.le_of_eq (Arena.length_write written).symm
  | replace => exact Nat.le_of_eq (Arena.length_replaceAll _ _ _ _).symm
  | shareOnHeap | shareInScope | note => exact Nat.le_refl _

theorem forall_mem_insert {s : Scope} {n : Nat} (old : ∀ e ∈ s.entries, e.2 < n)
    (new : id < n) : ∀ e ∈ (s.insert i id).entries, e.2 < n := by
  intro e member
  rcases Table.mem_put member with rfl | member
  · exact new
  · exact old e member

theorem Deed.allocated (deed : Deed l h h') (allocated : h.Allocated) : h'.Allocated := by
  have le := deed.length_le
  have heap (e) (member : e ∈ h.heap.entries) := Nat.lt_of_lt_of_le (allocated.heap e member) le
  have storage (e) (member : e ∈ h.storage.entries) := Nat.lt_of_lt_of_le (allocated.storage e member) le
  have addresses (value s) (held : h.addresses.get? value = some s) :=
    Nat.lt_of_lt_of_le (allocated.addresses value s held) le
  cases deed with
  | makeOnHeap made =>
    obtain ⟨rfl, grown⟩ := Arena.length_alloc made
    exact ⟨forall_mem_insert heap (Nat.lt_of_lt_of_eq (Nat.lt_succ_self _) grown.symm), storage, addresses⟩
  | makeInScope made =>
    obtain ⟨rfl, grown⟩ := Arena.length_alloc made
    exact ⟨heap, forall_mem_insert storage (Nat.lt_of_lt_of_eq (Nat.lt_succ_self _) grown.symm), addresses⟩
  | shareOnHeap known => exact ⟨forall_mem_insert heap (allocated.sees known), storage, addresses⟩
  | shareInScope known => exact ⟨heap, forall_mem_insert storage (allocated.sees known), addresses⟩
  | write | replace => exact ⟨heap, storage, addresses⟩
  | note held =>
    refine ⟨heap, storage, fun value s found => ?_⟩
    rw [Table.get?_insert] at found
    split at found
    · cases found
      exact there_of_content held
    · exact addresses value s found

theorem Deeds.length_le (deeds : Deeds l h h') : h.arena.containers.length ≤ h'.arena.containers.length := by
  induction deeds with
  | refl => exact Nat.le_refl _
  | tail _ deed ih => exact Nat.le_trans ih deed.length_le

theorem Deeds.allocated (deeds : Deeds l h h') (allocated : h.Allocated) : h'.Allocated := by
  induction deeds with
  | refl => exact allocated
  | tail _ deed ih => exact deed.allocated ih

end Deeds

/-! ### Steps -/

/-- What a step does to storage is within the license. -/
def Does {α : Type} (l : License) (x : Run α) (m : Machine)
    (done : α → Machine → Prop := fun _ _ => True) : Prop :=
  Leads x m fun a m' => Deeds l m.holdings m'.holdings ∧ done a m'

section Steps

variable {α β : Type} {l : License} {m : Machine}

theorem inert_instanceOf (x : Operand) : Inert (instanceOf x) := .of_composed (composed_instanceOf x)

/-- A step that leaves storage alone is within any license. -/
theorem Does.of_composed {x : Run α} (composed : Composed ⟨True, False, True, True⟩ x) :
    Does l x m fun _ m' => m'.holdings = m.holdings :=
  (Inert.of_composed composed m).imp fun _ _ same => ⟨same ▸ .refl, same⟩

theorem Does.done {x : Run α} (composed : Composed ⟨True, False, True, True⟩ x) : Does l x m :=
  (Inert.of_composed composed m).imp fun _ _ same => ⟨same ▸ .refl, trivial⟩

theorem does_bindValue (value : String) (v : Instance) : Does l (bindValue value v) m :=
  .done (composed_bindValue value v)

theorem leads_instance (x : Operand) :
    Leads (instanceOf x) m fun i m' => held? m x = some i ∧ m'.act = m.act ∧
      m'.context.globals = m.context.globals ∧ m'.holdings = m.holdings := by
  have found : Leads (instanceOf x) m fun i m' => held? m x = some i ∧ m'.act = m.act ∧
      m'.context.globals = m.context.globals := by
    rw [instanceOf, leads_bind]
    refine (leads_held? x).surely fun found m₁ read => ?_
    obtain ⟨rfl, act, globals⟩ := read
    cases held : held? m x with
    | none => trivial
    | some i => exact ⟨rfl, act, globals⟩
  exact (found.and (inert_instanceOf x m)).partly fun _ _ read => ⟨read.1.1, read.1.2.1, read.1.2.2, read.2⟩

namespace Does

variable {x : Run α} {f : α → Run β} {done : α → Machine → Prop} {done' : β → Machine → Prop}

theorem bind (first : Does l x m done) (next : ∀ a m', done a m' → Does l (f a) m' done') :
    Does l (x >>= f) m done' := by
  rw [Does, leads_bind]
  refine first.imp fun a m₁ led => ?_
  exact (next a m₁ led.2).imp fun _ _ led' => ⟨led.1.trans led'.1, led'.2⟩

theorem after {f : α → Run β} (first : Composed ⟨True, False, True, True⟩ x)
    (next : ∀ a m', m'.holdings = m.holdings → Does l (f a) m' done') : Does l (x >>= f) m done' :=
  bind (.of_composed first) next

theorem made {f : Instance → Run β} (next : Does l (f (m.act.fresh value ty)) m done') :
    Does l (fresh value ty >>= f) m done' := next

theorem held {x : Operand} {f : Instance → Run β}
    (next : ∀ i m', held? m x = some i → m'.act = m.act → Does l (f i) m' done') :
    Does l (instanceOf x >>= f) m done' := by
  rw [Does, leads_bind]
  refine (leads_instance x).imp fun i m₁ led => ?_
  obtain ⟨held, act, -, same⟩ := led
  rw [← same]
  exact next i m₁ held act

theorem read {f : Activation → Run β} (next : Does l (f m.act) m done') : Does l (activation >>= f) m done' := next

theorem look {f : Context → Run β} (next : Does l (f m.context) m done') : Does l (context >>= f) m done' := next

theorem container {f : Option ContainerId → Run β} (next : Does l (f (m.holdings.sees i)) m done') :
    Does l (containerOf? i >>= f) m done' := by
  have same : containerOf? i m = .ok (m.holdings.sees i) m := by
    show EStateM.Result.ok (m.act.storage.get? i <|> m.context.heap.get? i) m = _
    rw [Holdings.sees]
    show _ = EStateM.Result.ok ((m.act.storage.get? i).or _) m
    cases m.act.storage.get? i <;> rfl
  rw [Does, leads_bind, Leads, same]
  exact next

theorem pure {a : α} (holds : done a m) : Does l (Pure.pure a : Run α) m done := ⟨.refl, holds⟩

end Does

/-- A container that is made goes to the heap or to the scope. -/
theorem does_make {f : Option ContainerId → Run β} {done : β → Machine → Prop}
    (missing : Does l (f none) m done)
    (made : ∀ id arena, m.context.arena.alloc shape = some (id, arena) →
      Leads (f (some id)) { m with context := { m.context with arena } }
        fun b m' => Deeds l m.holdings m'.holdings ∧ done b m') :
    Does l (allocate shape >>= f) m done := by
  show Leads (allocate shape >>= f) m _ _
  rw [leads_bind, allocate, leads_bind, leads_context]
  cases alloc : m.context.arena.alloc shape with
  | none => exact missing
  | some new => exact made new.1 new.2 alloc

theorem Does.since {x : Run α} {done : α → Machine → Prop} (does : Does l x m done) (deed : Deed l h m.holdings) :
    Leads x m fun b m' => Deeds l h m'.holdings ∧ done b m' :=
  Leads.imp does (fun _ _ led => ⟨.head deed led.1, led.2⟩)

theorem does_readSlot (id : ContainerId) (slot : Slot) (owner : Instance) :
    Does l (readSlot id slot owner) m fun v m' => m'.holdings.arena.content id slot = v := by
  refine .look ?_
  split
  · next contents found =>
    refine .pure ?_
    unfold Arena.read at found
    split at found
    · next held =>
      cases found
      rw [Machine.holdings, Arena.content, held]
      rfl
    · cases found
  · exact trivial

theorem does_writeSlot (v owner : Instance)
    (may : m.context.arena.content id slot = none ∨ slot.kind = .map ∨ l.overwrite) :
    Does l (writeSlot id slot v owner) m fun _ m' => m'.holdings.arena.content id slot = some v := by
  refine .look ?_
  dsimp only
  refine .after (composed_emit? (by simp)) fun _ m₁ same => ?_
  have arena : m₁.context.arena = m.context.arena := congrArg (·.arena) same
  rw [← arena] at may ⊢
  split
  · next before arena written =>
    refine ⟨.single (.write written ?_), (Arena.content_write written id slot).trans (if_pos ⟨rfl, rfl⟩)⟩
    rwa [Arena.before_write written]
  · exact trivial

theorem does_demandContainer (types : TypeTable) (owner : Instance) (expected : SlotKind) :
    Does l (demandContainer types owner expected) m fun id m' => m'.holdings.sees owner = some id := by
  refine .container ?_
  cases held : m.holdings.sees owner with
  | some id => exact .pure held
  | none =>
    dsimp only
    split
    · exact trivial
    · refine does_make trivial fun id arena made => ?_
      have may : l.allows m.holdings owner := .inl held
      have noScope : m.act.storage.get? owner = none := (Option.or_eq_none_iff.1 held).1
      dsimp only
      rw [leads_bind, leads_emit]
      split
      · refine ⟨.single (.makeOnHeap made may), ?_⟩
        show (m.act.storage.get? owner).or ((m.context.heap.insert owner id).get? owner) = some id
        rw [noScope, Option.none_or, Table.get?_insert, if_pos rfl]
      · refine ⟨.single (.makeInScope made may), ?_⟩
        show ((m.act.storage.insert owner id).get? owner).or _ = some id
        rw [Table.get?_insert, if_pos rfl, Option.some_or]

theorem does_contentsOf (types : TypeTable) (id : ContainerId) (slot : Slot) (owner : Instance)
    (value : String) (ty : Ty) (field : Option Nat) :
    Does l (contentsOf types id slot owner value ty field) m fun v m' =>
      m'.holdings.arena.content id slot = some v := by
  refine .bind (does_readSlot id slot owner) fun read m₁ held => ?_
  cases read with
  | some v => exact .pure held
  | none =>
    refine .after (composed_slotType types owner field ty) fun ty m₂ same => ?_
    refine .after (composed_fresh value ty) fun v m₃ same' => ?_
    refine .bind (does_writeSlot v owner (.inl ?_)) fun _ _ held => .pure held
    rw [← held, ← same, ← same']
    rfl

section Composites

variable (types : TypeTable) (value : String) (ty : Ty)

theorem does_alloc (scope : AllocScope) (may : l.place (m.act.fresh value ty)) :
    Does l (alloc types value ty scope) m := by
  refine .made (does_make (does_bindValue value _) fun id arena made => ?_)
  cases scope with
  | heap => exact (does_bindValue value _).since (.makeOnHeap made (.inr may))
  | frame => exact (does_bindValue value _).since (.makeInScope made (.inr may))

theorem does_makeContainer (may : l.place (m.act.fresh value ty)) :
    Does l (makeContainer types value ty) m :=
  .made (does_make (does_bindValue value _) fun _ _ made => (does_bindValue value _).since
    (.makeInScope made (.inr may)))

theorem does_bindSlot (owner : Instance) (field : Option Nat) (kind : slot.kind ≠ .map)
    (may : address → l.note value) : Does l (bindSlot types value ty owner slot field address) m := by
  refine .bind (does_demandContainer types owner slot.kind) fun id m₁ _ => ?_
  refine .bind (does_contentsOf types id slot owner value ty field) fun v m₂ held => ?_
  cases address with
  | false => exact does_bindValue value v
  | true =>
    have noted : Does l (noteAddress value id slot) m₂ := ⟨.single (.note held kind (may rfl)), trivial⟩
    exact .bind noted fun _ _ _ => does_bindValue value v

theorem does_field (x : Operand) (i : Nat) (may : address → l.note value) :
    Does l (field types value ty x i address) m :=
  .after (composed_instanceOf x) fun _ _ _ => does_bindSlot types value ty _ _ nofun may

theorem does_index (x i : Operand) (may : address → l.note value) :
    Does l (index types value ty x i address) m := by
  refine .after (composed_instanceOf x) fun owner m₁ _ => ?_
  split
  · exact .done (composed_bindFresh value ty)
  · exact .after (composed_instanceOf i) fun _ _ _ => does_bindSlot types value ty _ _ nofun may

theorem does_lookup (map key : Operand) (commaOk : Bool) :
    Does l (lookup types value ty map key commaOk) m := by
  refine .after (composed_instanceOf map) fun owner m₁ _ => ?_
  split
  · exact .done (composed_bindFresh value ty)
  · refine .after (composed_instanceOf key) fun i m₂ _ => .bind (does_demandContainer types owner .map)
      fun id m₃ _ => ?_
    refine .bind (does_contentsOf types id (.key i) owner value ty none) fun v m₄ _ => ?_
    split
    · exact .done (composed_bindWithFlag value ty _)
    · exact does_bindValue value v

theorem does_mapUpdate (map key x : Operand) : Does l (mapUpdate types map key x) m := by
  refine .after (composed_instanceOf map) fun owner m₁ _ => .after (composed_instanceOf key) fun k m₂ _ => ?_
  refine .after (composed_instanceOf x) fun v m₃ _ => .bind (does_demandContainer types owner .map)
    fun id m₄ _ => ?_
  exact .bind (does_writeSlot v owner (.inr (.inl rfl))) fun _ _ _ => .pure trivial

theorem does_shareContainer (owner : Instance) (may : l.place i) :
    Does l (shareContainer owner i) m := by
  refine .read (.look ?_)
  split
  · next id held =>
    have known : m.holdings.sees owner = some id := Option.or_eq_some_iff.2 (.inl held)
    exact ⟨.single (.shareInScope known may), trivial⟩
  · next id missing held =>
    have known : m.holdings.sees owner = some id := Option.or_eq_some_iff.2 (.inr ⟨missing, held⟩)
    exact ⟨.single (.shareOnHeap known may), trivial⟩
  · exact .pure trivial

theorem does_slice (x : Operand) (may : l.place (m.act.fresh value ty)) :
    Does l (slice types value ty x) m := by
  refine .held fun owner m₁ _ same => .made ?_
  dsimp only
  split
  · exact .bind (does_shareContainer owner (same ▸ may)) fun _ _ _ => does_bindValue value _
  · exact does_bindValue value _

theorem does_deref (x : Operand) : Does l (deref types value ty x) m := by
  refine .after (.bind .activation fun _ => .pure _) fun address m₁ _ => ?_
  split
  · next id slot =>
    refine .after (composed_instanceOf x) fun pointer m₁ _ => ?_
    exact .bind (does_contentsOf types id slot pointer value ty none) fun v m₂ _ => does_bindValue value v
  · exact .done (composed_bindOperand value x)

theorem does_replaceComposite (old : Option Instance) (shape : Option Shape) (v : Instance) (may : l.overwrite) :
    Does l (replaceComposite old shape v) m := by
  unfold replaceComposite
  split
  · split
    · next old shape _ =>
      refine .look (.read ?_)
      have replaced : Does l (modifyContext fun c =>
          { c with arena := (m.context.arena.replaceAll (m.act.storage.values ++ m.context.heap.values) old v).2 }) m
          fun _ _ => True := ⟨.single (.replace may), trivial⟩
      refine .bind replaced fun _ m₁ _ => ?_
      split
      · exact ⟨.refl, trivial⟩
      · exact .pure trivial
    · exact .pure trivial
  · exact .pure trivial

theorem does_storeGlobal (program : Program) (name : String) (place : l.place v) (may : l.overwrite) :
    Does l (storeGlobal program name v) m := by
  have last (m' : Machine) :
    Does l (context >>= fun c => modifyContext (fun c => { c with globals := c.globals.insert name v })
      >>= fun _ => replaceComposite (c.globals.get? name) ((program.global? name).map fun g =>
        program.types.shape g.ty) v)
      m' fun _ _ => True :=
    .look (.after (.modifyContext (fun _ => rfl) (fun _ _ => Nat.le_refl _) (.inr fun _ => ⟨rfl, rfl⟩))
      fun _ _ _ => does_replaceComposite _ _ v may)
  refine .read ?_
  dsimp only
  split
  · next id held =>
    have known : m.holdings.sees v = some id := Option.or_eq_some_iff.2 (.inl held)
    exact (last _).since (.shareOnHeap known place)
  · exact last m

theorem does_storeLocal (name : String) (v : Instance) (may : l.overwrite) :
    Does l (storeLocal types name v) m := by
  have last (old : Option Instance) (m' : Machine) : Does l (bindValue name v >>= fun _ =>
      replaceComposite old ((m.act.func.valueType? name).map types.shapeBehind) v) m' :=
    .after (composed_bindValue name v) fun _ _ _ => does_replaceComposite old _ v may
  refine .read ?_
  dsimp only
  split
  · exact .after (composed_instanceOf _) fun pointer m₁ _ =>
      .bind (does_writeSlot v pointer (.inr (.inr may))) fun old m' _ => last old m'
  · exact last (m.act.resolve? name) m

end Composites

/-- What is stored in the machine's storage by an action that stays inside its block. -/
def licenseOf (m : Machine) (action : Action) : License where
  place i := match action with
    | .define value ty (.alloc _) | .define value ty .makeMap | .define value ty (.makeSlice _)
    | .define value ty (.slice _) => i = m.act.fresh value ty
    | .perform (.store (.global _) x) => held? m x = some i
    | _ => False
  note value := match action with
    | .define name _ (.fieldAddr ..) | .define name _ (.indexAddr ..) => value = name
    | _ => False
  overwrite := match action with
    | .perform (.store ..) => True
    | _ => False

theorem licenseOf_withBudget (m : Machine) (n : Nat) (action : Action) :
    licenseOf (m.withBudget n) action = licenseOf m action := by
  have held (x : Operand) : held? (m.withBudget n) x = held? m x := held?_congr rfl rfl x
  simp only [licenseOf, held]
  rfl

theorem does_simple (simple : isSimple action) :
    Does (licenseOf m action) (interpret env walk arrival action) m := by
  cases action with
  | define value ty op =>
    cases op with
    | alloc scope => exact does_alloc _ value ty scope rfl
    | binary op x y => exact .done (composed_binary trivial _ arrival value ty op x y)
    | recv chan commaOk => exact .done (composed_recv trivial value ty chan commaOk)
    | deref x => exact does_deref _ value ty x
    | unary op x => exact .done (composed_bindFresh value ty)
    | call c => cases simple
    | convert conversion x => exact .done (composed_bindOperand value x)
    | extract tuple i => exact .done (composed_extract (fun _ => trivial) value ty tuple)
    | field x i => exact does_field _ value ty x i nofun
    | fieldAddr x i => exact does_field _ value ty x i fun _ => rfl
    | index x i => exact does_index _ value ty x i nofun
    | indexAddr x i => exact does_index _ value ty x i fun _ => rfl
    | lookup map key commaOk => exact does_lookup _ value ty map key commaOk
    | makeChan capacity => exact .done (composed_makeChan trivial value ty capacity)
    | makeClosure func bindings => exact .done (composed_makeClosure value ty func bindings)
    | makeMap => exact does_makeContainer _ value ty rfl
    | makeSlice length => exact does_makeContainer _ value ty rfl
    | next iter => exact .done (composed_bindFresh value ty)
    | range x => exact .done (composed_bindFresh value ty)
    | phi edges => exact .done (composed_phi trivial arrival value edges)
    | select blocking cases => exact .done (composed_select trivial trivial _ value ty blocking cases)
    | slice x => exact does_slice _ value ty x rfl
    | typeAssert x commaOk => exact .done (composed_typeAssert value ty x commaOk)
    | unmodelled op args => exact .done (composed_skipUnmodelled op)
  | perform effect =>
    cases effect with
    | ret results => exact .done (composed_returnValues 0 results)
    | send chan value => exact .done (composed_send trivial chan)
    | store addr value =>
      refine .held fun v m₁ held same => ?_
      cases addr with
      | global name => exact does_storeGlobal env.program name held trivial
      | var name => exact does_storeLocal _ name v trivial
      | func name => exact .read ⟨.refl, trivial⟩
      | const literal => exact .read ⟨.refl, trivial⟩
    | mapUpdate map key value => exact does_mapUpdate _ map key value
    | panic x => exact .pure trivial
    | unmodelled op args => exact .done (composed_skipUnmodelled op)
    | jump dst => cases simple
    | branch cond onTrue onFalse => cases simple
    | go c => cases simple
    | defer c => cases simple
    | call c => cases simple
    | runDefers => cases simple

theorem deeds_simple (simple : isSimple action) (ends : interpret env walk arrival action m = .ok () m') :
    Deeds (licenseOf m action) m.holdings m'.holdings := (Leads.ok (does_simple simple) ends).1

end Steps

/-! ### Moves -/

section Moves

variable {env : Env} {property : Property} {c c' : Config}

/-! ### Containers are there -/

/-- Every container that is referred to is there. -/
structure Config.Allocated (c : Config) : Prop where
  heap : ∀ e ∈ c.machine.context.heap.entries, e.2 < c.machine.context.arena.containers.length
  crew : ∀ a ∈ c.crew, a.Allocated c.machine.context.arena.containers.length

theorem Config.Allocated.machine (allocated : c.Allocated) : c.machine.holdings.Allocated :=
  have own := allocated.crew c.machine.act mem_cons_self
  ⟨allocated.heap, own.storage, own.addresses⟩

theorem Config.Allocated.step (allocated : c.Allocated) (upshot : Upshot env property c c') : c'.Allocated := by
  cases upshot with
  | simple pays reached simple idle crew ends =>
    have deeds := deeds_simple simple ends
    have after := deeds.allocated allocated.machine
    refine ⟨after.heap, fun a about => ?_⟩
    rcases crew a about with rfl | about
    · exact ⟨after.storage, after.addresses⟩
    · have before := allocated.crew a (mem_of_mem_tail about)
      exact ⟨fun e member => Nat.lt_of_lt_of_le (before.storage e member) deeds.length_le,
        fun value s noted => Nat.lt_of_lt_of_le (before.addresses value s noted) deeds.length_le⟩
  | other heap arena draws =>
    refine ⟨?_, fun a about => ⟨fun e member => ?_, fun value s noted => ?_⟩⟩
    · rw [heap, arena]
      exact allocated.heap
    · obtain ⟨b, about, member⟩ := (draws a about).storage e member
      exact arena ▸ (allocated.crew b about).storage e member
    · rcases (draws a about).own with ⟨-, blank, -⟩ | ⟨b, about, -, same, -⟩
      · rw [blank] at noted
        cases noted
      · exact arena ▸ (allocated.crew b about).addresses value s (same ▸ noted)

theorem allocated_ofProgram (p : Program) :
    ∀ e ∈ (Context.ofProgram p).heap.entries, e.2 < (Context.ofProgram p).arena.containers.length := by
  have kept (c : Context) (there : ∀ e ∈ c.heap.entries, e.2 < c.arena.containers.length) :
      ∀ e ∈ (p.globals.foldl (Context.addGlobal p.types) c).heap.entries,
        e.2 < (p.globals.foldl (Context.addGlobal p.types) c).arena.containers.length := by
    induction p.globals generalizing c with
    | nil => exact there
    | cons g rest ih =>
      refine ih _ ?_
      unfold Context.addGlobal
      dsimp only
      split
      · next id arena made =>
        obtain ⟨rfl, grown⟩ := Arena.length_alloc made
        intro e member
        rw [grown]
        rcases Table.mem_put member with rfl | old
        · exact Nat.lt_succ_self _
        · exact Nat.lt_succ_of_lt (there e old)
      · exact there
  exact kept {} fun _ member => nomatch member

theorem allocated_start (p : Program) (entry : Function) (budget : Nat) :
    Config.Allocated ⟨Machine.start p entry budget, none, []⟩ where
  heap := allocated_ofProgram p
  crew a about := by
    obtain rfl := mem_singleton.1 about
    exact ⟨fun _ member => (nomatch member), fun _ _ noted => nomatch noted⟩

/-- Wherever an analysis is stopped, every container that is referred to is there. -/
theorem allocated_of_stops {budget : Nat}
    (stops : analyse ⟨p, o⟩ (Machine.start p entry budget) = .error (.stopped point) m) :
    m.Issued ∧ m.holdings.Allocated := by
  have kept : Invariant ⟨p, o⟩ (History p o entry budget) fun c => c.Sound (History p o entry budget) ∧
    c.Allocated :=
    Invariant.of_step fun _ allocated _ move => allocated.step move.upshot
  obtain ⟨-, d, s, sound, allocated⟩ :=
    kept.stops ⟨sound_start _ p entry budget, allocated_start p entry budget⟩ stops
  exact ⟨sound.issued, allocated.machine⟩

end Moves

end Analysis

end ChanFlow
