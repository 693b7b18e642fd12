import ChanFlow.Proofs.HandOver

/-!
Stores and the copies of a pointer.

A pointer stands for what it is bound to, or for a slot if its address was noted. A copy of it is bound to what it was
bound to, and knows of no slot. So a store is seen through another pointer exactly where that one stands for the same
slot or for one that is rewritten, or has the stored value already (`stores_seen_iff`).
-/
open List

namespace ChanFlow

open Ssa Protocol

variable {v c w i : Instance} {p : Program} {o : Options} {m m' m₀ : Machine} {q value target : String} {ty : Ty}
  {action : Action} {types : TypeTable} {s : ContainerId × Slot} {walk : Walker} {arrival : Arrival} {j : Instr}

/-! ### Slots -/

theorem Table.find_map_values {κ β : Type} [DecidableEq κ] (g : β → β) (k : κ) (es : List (κ × β)) :
    Table.find k (es.map fun e => (e.1, g e.2)) = (Table.find k es).map g := by
  induction es with
  | nil => rfl
  | cons e rest ih =>
    rw [map_cons, Table.find, Table.find, ih]
    split <;> rfl

theorem Container.get?_substitute (c : Container) (old new : Instance) (slot : Slot) :
    (c.substitute old new).get? slot = (c.get? slot).map (·.map fun i => if i = old then new else i) := by
  cases c with
  | elems length entries =>
    cases slot with
    | index i => exact congrArg some (Table.find_map_values (fun j => if j = old then new else j) i entries.entries)
    | field i => rfl
    | key i => rfl
  | fields slots =>
    cases slot with
    | field i =>
      show (slots.map _)[i]? = (slots[i]?).map _
      rw [getElem?_map]
      congr 1
      funext s
      cases s with
      | none => rfl
      | some j =>
        rw [Option.map_some, apply_ite some]
        exact ite_congr (propext Option.some_inj) (fun _ => rfl) fun _ => rfl
    | index i => rfl
    | key i => rfl
  | map entries =>
    cases slot with
    | key i => exact congrArg some (Table.find_map_values (fun j => if j = old then new else j) i entries.entries)
    | field i => rfl
    | index i => rfl

/-- Aliases are replaced in the slots of the given containers. -/
theorem Arena.slot?_replaceAll (a : Arena) (ids : List ContainerId) (old new : Instance) (id : ContainerId)
    (slot : Slot) :
    (a.replaceAll ids old new).2.slot? id slot =
      if id ∈ ids then (a.slot? id slot).map (·.map fun i => if i = old then new else i) else a.slot? id slot := by
  have get : (a.replaceAll ids old new).2.get? id =
      (a.get? id).map fun c => if ids.contains id then c.substitute old new else c := getElem?_mapIdx
  rw [slot?, slot?, get]
  cases a.get? id with
  | none => simp
  | some c =>
    by_cases member : id ∈ ids
    · rw [if_pos member, Option.map_some, if_pos (contains_iff_mem.2 member), Option.bind_some, Option.bind_some,
        Container.get?_substitute]
    · rw [if_neg member, Option.map_some, if_neg (member ∘ contains_iff_mem.1)]

theorem Arena.content_replaceAll (a : Arena) (ids : List ContainerId) (old new : Instance) (id : ContainerId)
    (slot : Slot) :
    (a.replaceAll ids old new).2.content id slot =
      if id ∈ ids then (a.content id slot).map fun i => if i = old then new else i else a.content id slot := by
  have after := congrArg Option.join (a.slot?_replaceAll ids old new id slot)
  rw [apply_ite Option.join, Option.join_map_eq_map_join] at after
  exact after

theorem Arena.content_alloc {a a' : Arena} {shape : Shape} {id id' : ContainerId} {slot : Slot}
    (made : a.alloc shape = some (id', a')) (held : a.content id slot = some v) : a'.content id slot = some v := by
  obtain ⟨c, -, eq⟩ := Option.map_eq_some_iff.1 made
  cases eq
  have there := Analysis.there_of_content held
  rw [content, get?] at held ⊢
  rwa [getElem?_append_left there]

namespace Analysis

section Deeds

variable {l : License} {h h' : Holdings} {id : ContainerId} {slot : Slot} {v : Instance} {value : String}

/-- Slots in use keep what they hold, unless they may be overwritten. -/
theorem Deed.content_kept (deed : Deed l h h') (kept : ¬ l.overwrite) (kind : slot.kind ≠ .map)
    (held : h.arena.content id slot = some v) : h'.arena.content id slot = some v := by
  cases deed with
  | makeOnHeap made | makeInScope made => exact Arena.content_alloc made held
  | shareOnHeap | shareInScope | note => exact held
  | @write id' slot' v' owner before arena written may =>
    show arena.content id slot = some v
    rw [Arena.content_write written, if_neg, held]
    rintro ⟨rfl, rfl⟩
    have before := Arena.before_write written
    rcases may with blank | map | may
    · rw [blank, held] at before
      cases before
    · exact kind map
    · exact kept may
  | replace may => exact absurd may kept

/-- Slots in use stay in use. -/
theorem Deed.content_used (deed : Deed l h h') (held : h.arena.content id slot = some v) :
    ∃ v', h'.arena.content id slot = some v' := by
  cases deed with
  | makeOnHeap made | makeInScope made => exact ⟨v, Arena.content_alloc made held⟩
  | shareOnHeap | shareInScope | note => exact ⟨v, held⟩
  | @write id' slot' v' owner before arena written may =>
    show ∃ v', arena.content id slot = some v'
    rw [Arena.content_write written]
    split
    · exact ⟨_, rfl⟩
    · exact ⟨v, held⟩
  | replace may =>
    rw [Arena.content_replaceAll, held]
    split
    · exact ⟨_, rfl⟩
    · exact ⟨v, rfl⟩

theorem Deed.addresses_kept (deed : Deed l h h') (unnoted : ¬ l.note value) :
    h'.addresses.get? value = h.addresses.get? value := by
  cases deed with
  | @note value' id slot v held kind may =>
    have other : value' ≠ value := fun same => unnoted (same ▸ may)
    rw [Table.get?_insert, if_neg other]
  | makeOnHeap | makeInScope | shareOnHeap | shareInScope | write | replace => rfl

theorem Deeds.content_kept (deeds : Deeds l h h') (kept : ¬ l.overwrite) (kind : slot.kind ≠ .map)
    (held : h.arena.content id slot = some v) : h'.arena.content id slot = some v := by
  induction deeds with
  | refl => exact held
  | tail _ deed ih => exact deed.content_kept kept kind ih

theorem Deeds.content_used (deeds : Deeds l h h') (held : h.arena.content id slot = some v) :
    ∃ v', h'.arena.content id slot = some v' := by
  induction deeds with
  | refl => exact ⟨v, held⟩
  | tail _ deed ih =>
    obtain ⟨v', held⟩ := ih
    exact deed.content_used held

theorem Deeds.addresses_kept (deeds : Deeds l h h') (unnoted : ¬ l.note value) :
    h'.addresses.get? value = h.addresses.get? value := by
  induction deeds with
  | refl => rfl
  | tail _ deed ih => exact (deed.addresses_kept unnoted).trans ih

/-- The slots whose addresses were noted are in use, and none is a key of a map. -/
def Filled (arena : Arena) (addresses : Table String (ContainerId × Slot)) : Prop :=
  ∀ value s, addresses.get? value = some s → s.2.kind ≠ .map ∧ ∃ v, arena.content s.1 s.2 = some v

theorem Deed.filled (deed : Deed l h h') (filled : Filled h.arena h.addresses) : Filled h'.arena h'.addresses := by
  intro value s noted
  have old (noted : h.addresses.get? value = some s) :
      s.2.kind ≠ .map ∧ ∃ v, h'.arena.content s.1 s.2 = some v := by
    obtain ⟨kind, v, held⟩ := filled value s noted
    exact ⟨kind, deed.content_used held⟩
  cases deed with
  | @note value' id slot v held kind may =>
    rw [Table.get?_insert] at noted
    split at noted
    · cases noted
      exact ⟨kind, v, held⟩
    · exact old noted
  | makeOnHeap | makeInScope | shareOnHeap | shareInScope | write | replace => exact old noted

theorem Deeds.filled (deeds : Deeds l h h') (filled : Filled h.arena h.addresses) : Filled h'.arena h'.addresses := by
  induction deeds with
  | refl => exact filled
  | tail _ deed ih => exact deed.filled ih

end Deeds

/-! ### Noted slots -/

section Moves

variable {env : Env} {property : Property} {c c' : Config}

def Config.Filled (c : Config) : Prop := ∀ a ∈ c.crew, Analysis.Filled c.machine.context.arena a.addresses

theorem Config.Filled.step (filled : c.Filled) (upshot : Upshot env property c c') : c'.Filled := by
  intro a about
  cases upshot with
  | simple pays reached simple idle crew ends =>
    have deeds := deeds_simple simple ends
    rcases crew a about with rfl | about
    · exact deeds.filled (filled _ mem_cons_self)
    · intro value s noted
      obtain ⟨kind, v, held⟩ := filled a (mem_of_mem_tail about) value s noted
      exact ⟨kind, deeds.content_used held⟩
  | other heap arena draws =>
    rcases (draws a about).own with ⟨-, blank, -⟩ | ⟨b, about, -, same, -⟩
    · rw [blank]
      intro value s noted
      cases noted
    · rw [arena, same]
      exact filled b about

/-- Wherever an analysis is stopped, the slots whose addresses were noted are in use. -/
theorem filled_of_stops {entry : Function} {budget : Nat} {point : Point}
    (stops : analyse ⟨p, o⟩ (Machine.start p entry budget) = .error (.stopped point) m) :
    Filled m.context.arena m.act.addresses := by
  have kept : Invariant ⟨p, o⟩ (History p o entry budget) Config.Filled := fun filled move =>
    filled.step move.upshot
  have start : Config.Filled ⟨Machine.start p entry budget, none, []⟩ := by
    intro a about value s noted
    obtain rfl := mem_singleton.1 about
    cases noted
  obtain ⟨-, d, s, filled⟩ := kept.stops start stops
  exact filled _ mem_cons_self

/-- Addresses are noted for values of instructions that the activation has come to. -/
def Config.Addressed (property : Property) (c : Config) : Prop :=
  ∀ a ∈ c.crew, ∀ value s, a.addresses.get? value = some s → ∃ n arrival j m,
    property n (.instr arrival j) m ∧ m.act.ident = a.ident ∧ (licenseOf m j.action).note value

theorem Config.Addressed.step (noted : c.Addressed property) (upshot : Upshot env property c c') :
    c'.Addressed property := by
  intro a about value s held
  cases upshot with
  | @simple arrival i walk pays reached simple idle crew ends =>
    have staying := (staying_simple simple ends).1
    rcases crew a about with rfl | about
    · by_cases notes : (licenseOf (c.machine.withBudget c'.machine.budget) i.action).note value
      · rw [licenseOf_withBudget, ← licenseOf_withBudget _ 0] at notes
        exact ⟨_, arrival, i, _, reached, staying.ident.symm, notes⟩
      · rw [staying.ident]
        exact noted _ mem_cons_self value s (((deeds_simple simple ends).addresses_kept notes).symm.trans held)
    · exact noted a (mem_of_mem_tail about) value s held
  | other heap arena draws =>
    rcases (draws a about).own with ⟨-, blank, -⟩ | ⟨b, about, ident, same, -⟩
    · rw [blank] at held
      cases held
    · rw [← ident]
      exact noted b about value s (same ▸ held)

/-- A value has no address where no instruction of its activation noted one. -/
theorem unnoted_of_stops {budget : Nat} {point : Point} (stops : StopsAt p o budget point m)
    (unnoted : ∀ n arrival j m', n ≤ budget → StopsAt p o n (.instr arrival j) m' →
      m'.act.ident = m.act.ident →
      ¬ (licenseOf m' j.action).note value) : m.act.addresses.get? value = none := by
  obtain ⟨entry, found, stops⟩ := stops
  have kept : Invariant ⟨p, o⟩ (History p o entry budget) (Config.Addressed (History p o entry budget)) :=
    fun noted move => noted.step move.upshot
  have start : Config.Addressed (History p o entry budget) ⟨Machine.start p entry budget, none, []⟩ := by
    intro a about value s held
    obtain rfl := mem_singleton.1 about
    cases held
  obtain ⟨-, d, s, noted⟩ := kept.stops start stops
  rw [Option.eq_none_iff_forall_ne_some]
  intro s held
  obtain ⟨left, arrival, j, m', reached, own, notes⟩ := noted _ mem_cons_self value s held
  exact unnoted _ arrival j m' (Nat.sub_le _ _) ⟨entry, found, reached.2⟩ own notes

end Moves

/-! ### Pointers -/

/-- What a pointer stands for: what its slot holds if its address was noted, or else what it is bound to. -/
def pointee? (m : Machine) (pointer : String) : Option Instance :=
  match m.act.addresses.get? pointer with
  | some s => m.context.arena.content s.1 s.2
  | none => m.act.resolve? pointer

section Pointers

variable {types : TypeTable} {m m' : Machine} {v i : Instance} {id : ContainerId} {slot : Slot}

theorem leads_boundInstance (bound : m.act.resolve? q = some i) :
    Leads (instanceOf (.var q)) m (fun j m' => j = i ∧ m' = m) fun _ _ => False := by
  rw [instanceOf, leads_bind, instanceOf?, leads_bind, leads_activation, leads_pure, bound]
  exact ⟨rfl, rfl⟩

theorem leads_heldContents {owner : Instance} {field : Option Nat} (held : m.context.arena.content id slot = some v) :
    Leads (contentsOf types id slot owner value ty field) m (fun j m' => j = v ∧ m' = m) fun _ _ => False := by
  have read : m.context.arena.read id slot owner = .ok (some v) := by
    rw [Arena.content] at held
    rw [Arena.read]
    generalize (m.context.arena.get? id).bind (·.get? slot) = r at held
    cases r with
    | none => cases held
    | some r =>
      cases held
      rfl
  rw [contentsOf, leads_bind, readSlot, leads_bind, leads_context, read]
  exact ⟨rfl, rfl⟩

theorem leads_bound (value : String) (v : Instance) :
    Leads (bindValue value v) m (fun _ m' => m'.act.resolve? value = some v) fun _ _ => False := by
  rw [bindValue, leads_bind, leads_emit, leads_modifyActivation]
  show (m.act.locals.insert value v).get? value = some v
  rw [Table.get?_insert, if_pos rfl]

/-- A pointer that is bound is dereferenced to what it stands for. -/
theorem deref_binds (value : String) (ty : Ty) (bound : m.act.resolve? q = some i) (points : pointee? m q = some v) :
    ∃ m', deref types value ty (.var q) m = .ok () m' ∧ m'.act.resolve? value = some v := by
  have leads : Leads (deref types value ty (.var q)) m (fun _ m' => m'.act.resolve? value = some v)
    fun _ _ => False := by
    unfold pointee? at points
    rw [deref, leads_bind, addressOf?, leads_bind, leads_activation, leads_pure]
    rw [show (Operand.var q).var?.bind m.act.addresses.get? = m.act.addresses.get? q from rfl]
    cases noted : m.act.addresses.get? q with
    | none =>
      rw [noted] at points
      obtain rfl := Option.mem_unique bound points
      rw [bindOperand, leads_bind]
      refine (leads_boundInstance bound).imp fun j m' read => ?_
      obtain ⟨rfl, rfl⟩ := read
      exact leads_bound value _
    | some s =>
      rw [noted] at points
      rw [leads_bind]
      refine (leads_boundInstance bound).imp fun j m' read => ?_
      obtain ⟨rfl, rfl⟩ := read
      rw [leads_bind]
      refine (leads_heldContents points).imp fun j m' read => ?_
      obtain ⟨rfl, rfl⟩ := read
      exact leads_bound value _
  cases result : deref types value ty (.var q) m with
  | ok u m' => exact ⟨m', rfl, leads.ok result⟩
  | error h m' => exact (leads.error result).elim

/-- A store of `v` shows in a slot: the slot is the one that is stored to, or it holds `v` already, or it holds what is
overwritten, that is composite, and aliases of it are replaced there. -/
def Reveals (types : TypeTable) (m : Machine) (target : String) (v : Instance) (s : ContainerId × Slot) : Prop :=
  m.act.addresses.get? target = some s ∨ m.context.arena.content s.1 s.2 = some v ∨
    pointee? m target = m.context.arena.content s.1 s.2 ∧
      (∃ shape, (m.act.func.valueType? target).map types.shapeBehind = some shape ∧ shape.isComposite) ∧
      s.1 ∈ m.act.storage.values ++ m.context.heap.values

theorem content_replaced (old : Option Instance) (shape : Option Shape) (id : ContainerId) (slot : Slot) :
    (m.replaced old shape v).content id slot = (m.context.arena.content id slot).map fun c =>
      if id ∈ m.reach ∧ old = some c ∧ shape.any (·.isComposite) then v else c := by
  unfold Machine.replaced
  split
  · next old shape =>
    split
    · next both =>
      rw [Bool.and_eq_true, bne_iff_ne] at both
      rw [Arena.content_replaceAll]
      by_cases member : id ∈ m.reach
      · simp [member, both.1, eq_comm]
      · simp [member]
    · next neither =>
      rw [Bool.and_eq_true, bne_iff_ne, not_and, not_not] at neither
      cases m.context.arena.content id slot with
      | none => rfl
      | some c =>
        refine congrArg some (Eq.symm ?_)
        show (if _ then v else c) = c
        split
        · next all =>
          obtain ⟨-, same, composite⟩ := all
          exact (neither composite).symm.trans (Option.some.inj same)
        · rfl
  · next other =>
    have never (c : Instance) : ¬ (id ∈ m.reach ∧ old = some c ∧ shape.any (·.isComposite)) := by
      rintro ⟨-, rfl, composite⟩
      obtain ⟨s, rfl, -⟩ := (Option.any_eq_true ..).1 composite
      exact other _ _ rfl rfl
    simp [never]

theorem get?_replaced (old : Option Instance) (shape : Option Shape) {id : ContainerId} (outside : id ∉ m.reach) :
    (m.replaced old shape v).get? id = m.context.arena.get? id := by
  unfold Machine.replaced
  split
  · split
    · rw [Arena.replaceAll, Arena.get?, Arena.get?, getElem?_mapIdx]
      simp [outside]
    · rfl
  · rfl

/-- A store of `v` puts it in a place, if it has one, and for what is overwritten into all containers in reach. -/
structure Rewrites (m m' : Machine) (place : Option (ContainerId × Slot)) (old : Option Instance)
    (shape : Option Shape) (v : Instance) : Prop where
  content : ∀ id slot, m'.context.arena.content id slot =
    (if place = some (id, slot) then some v else m.context.arena.content id slot).map fun c =>
      if id ∈ m'.reach ∧ old = some c ∧ shape.any (·.isComposite) then v else c
  outside : ∀ id, id ∉ m'.reach → (∀ slot, place ≠ some (id, slot)) →
    m'.context.arena.get? id = m.context.arena.get? id

theorem leads_writeSlot (id : ContainerId) (slot : Slot) (v owner : Instance) :
    Leads (writeSlot id slot v owner) m fun before m' => before = m.context.arena.content id slot ∧ m'.act = m.act ∧
      m'.context.heap = m.context.heap ∧ (∀ id' slot', m'.context.arena.content id' slot' =
        if id' = id ∧ slot' = slot then some v else m.context.arena.content id' slot') ∧
      ∀ id', id' ≠ id → m'.context.arena.get? id' = m.context.arena.get? id' := by
  rw [writeSlot, leads_bind, leads_context]
  dsimp only
  rw [leads_bind]
  have told (e : Option Event) : Leads (emit? e) m fun _ m₁ => m₁.act = m.act ∧ m₁.context = m.context := by
    cases e with
    | none => exact ⟨rfl, rfl⟩
    | some e => exact ⟨rfl, rfl⟩
  refine (told _).imp fun _ m₁ same => ?_
  obtain ⟨act, context⟩ := same
  split
  · next before arena written =>
    refine ⟨Arena.before_write written, act, congrArg (·.heap) context, Arena.content_write written,
      fun id' other => ?_⟩
    obtain ⟨_, _, -, -, -, rfl⟩ := Arena.write_eq written
    exact getElem?_set_ne (Ne.symm other)
  · exact trivial

theorem leads_storeLocal (target : String) (v : Instance) :
    Leads (storeLocal types target v) m fun _ m' => (m'.reach = m.reach ∧ m'.act.resolve? target = some v) ∧
      Rewrites m m' (m.act.addresses.get? target) (pointee? m target)
        ((m.act.func.valueType? target).map types.shapeBehind) v := by
  have last (m₁ : Machine) (reach : m₁.reach = m.reach) (place : Option (ContainerId × Slot))
    (old : Option Instance)
      (content : ∀ id slot, m₁.context.arena.content id slot =
        if place = some (id, slot) then some v else m.context.arena.content id slot)
      (outside : ∀ id, (∀ slot, place ≠ some (id, slot)) →
        m₁.context.arena.get? id = m.context.arena.get? id) :
      Leads (bindValue target v >>= fun _ =>
        replaceComposite old ((m.act.func.valueType? target).map types.shapeBehind) v)
        m₁ fun _ m' => (m'.reach = m.reach ∧ m'.act.resolve? target = some v) ∧
          Rewrites m m' place old ((m.act.func.valueType? target).map types.shapeBehind) v := by
    rw [leads_bind, bindValue, leads_bind, leads_emit, leads_modifyActivation]
    refine (leads_replaceComposite _ _ v).imp fun _ m' kept => ?_
    obtain ⟨act, heap, arena⟩ := kept
    have reach' : m'.reach = m.reach := by
      rw [← reach, Machine.reach, act, heap]
      rfl
    refine ⟨⟨reach', ?_⟩, fun id slot => ?_, fun id beyond apart => ?_⟩
    · rw [act]
      exact (Table.get?_insert ..).trans (if_pos rfl)
    · rw [arena, content_replaced, reach', ← reach, ← content id slot]
      rfl
    · rw [arena]
      exact (get?_replaced _ _ fun inside => beyond (reach' ▸ reach ▸ inside)).trans (outside id apart)
  rw [storeLocal, leads_bind, leads_activation, pointee?]
  dsimp only
  cases noted : m.act.addresses.get? target with
  | none => exact last m rfl none _ (fun _ _ => rfl) fun _ _ => rfl
  | some s =>
    dsimp only
    rw [leads_bind]
    refine (leads_instance (.var target)).imp fun pointer m₁ read => ?_
    obtain ⟨-, act, -, same⟩ := read
    have heap : m₁.context.heap = m.context.heap := congrArg (·.heap) same
    have arena : m₁.context.arena = m.context.arena := congrArg (·.arena) same
    rw [leads_bind]
    refine (leads_writeSlot s.1 s.2 v pointer).imp fun before m₂ written => ?_
    obtain ⟨rfl, act', heap', content, outside⟩ := written
    rw [arena] at content outside ⊢
    refine last m₂ (by rw [Machine.reach, act', act, heap', heap]; rfl) (some s) _ (fun id slot => ?_)
      fun id apart => ?_
    · refine (content id slot).trans
        (if_congr ⟨fun both => congrArg some (Prod.ext both.1.symm both.2.symm), fun here => ?_⟩ rfl rfl)
      cases here
      exact ⟨rfl, rfl⟩
    · exact outside id fun same => apart s.2 (same ▸ rfl)

theorem leads_storeGlobal (name : String) (v : Instance) :
    Leads (storeGlobal p name v) m fun _ m' => Rewrites m m' none (m.context.globals.get? name)
      ((p.global? name).map fun g => p.types.shape g.ty) v := by
  have last (m₁ : Machine) (arena : m₁.context.arena = m.context.arena)
    (globals : m₁.context.globals = m.context.globals) :
      Leads (context >>= fun c => modifyContext (fun c => { c with globals := c.globals.insert name v })
        >>= fun _ => replaceComposite (c.globals.get? name) ((p.global? name).map fun g => p.types.shape g.ty) v)
      m₁ fun _ m' => Rewrites m m' none (m.context.globals.get? name) ((p.global? name).map fun g =>
        p.types.shape g.ty) v := by
    rw [leads_bind, leads_context, leads_bind, leads_modifyContext, globals]
    refine (leads_replaceComposite _ _ v).imp fun _ m' kept => ?_
    obtain ⟨act, heap, arena'⟩ := kept
    have reach : m'.reach = m₁.reach := by
      rw [Machine.reach, act, heap]
      rfl
    refine ⟨fun id slot => ?_, fun id beyond _ => ?_⟩
    · rw [arena', content_replaced, reach, ← arena]
      rfl
    · rw [arena', ← arena]
      exact get?_replaced _ _ fun inside => beyond (reach ▸ inside)
  rw [storeGlobal, leads_bind, leads_activation]
  dsimp only
  split
  · exact last { m with context := { m.context with heap := m.context.heap.insert v _ } } rfl rfl
  · exact last m rfl rfl

/-- What a store overwrites: what a global has, or what a pointer stands for. -/
def overwritten? (m : Machine) : Operand → Option Instance
  | .global name => m.context.globals.get? name
  | .var name => pointee? m name
  | _ => none

/-- The shape that is declared for what is stored to. -/
def targetShape? (p : Program) (m : Machine) : Operand → Option Shape
  | .global name => (p.global? name).map fun g => p.types.shape g.ty
  | .var name => (m.act.func.valueType? name).map p.types.shapeBehind
  | _ => none

/-- The slot that a store writes itself. -/
def slotOf? (m : Machine) : Operand → Option (ContainerId × Slot)
  | .var name => m.act.addresses.get? name
  | _ => none

theorem leads_store {x y : Operand} (held : held? m y = some v) :
    Leads (store p x y) m fun _ m' =>
      (∀ name, x = .var name → m'.reach = m.reach ∧ m'.act.resolve? name = some v) ∧
        Rewrites m m' (slotOf? m x) (overwritten? m x) (targetShape? p m x) v := by
  rw [store, leads_bind]
  refine (leads_instance y).imp fun v' m₁ read => ?_
  obtain ⟨held', act, globals, same⟩ := read
  obtain rfl : v' = v := Option.mem_unique held' held
  have arena : m.context.arena = m₁.context.arena := congrArg (·.arena) same.symm
  have moved {m' : Machine} {place : Option (ContainerId × Slot)} {old : Option Instance} {shape : Option Shape}
      (rewrites : Rewrites m₁ m' place old shape v') : Rewrites m m' place old shape v' :=
    ⟨arena ▸ rewrites.content, arena ▸ rewrites.outside⟩
  have stray {x : Operand} (other : ∀ name, x ≠ .var name) :
      Leads (activation >>= fun a => emit (.strayStore a.func.name x)) m₁ fun _ m' =>
        (∀ name, x = .var name → m'.reach = m.reach ∧ m'.act.resolve? name = some v') ∧
          Rewrites m m' none none none v' := by
    rw [leads_bind, leads_activation, leads_emit]
    refine ⟨fun name eq => absurd eq (other name), fun id slot => ?_, fun id _ _ => ?_⟩
    · simp [arena]
    · simp [arena]
  cases x with
  | global name =>
    simp only [slotOf?, overwritten?, targetShape?, ← globals]
    exact (leads_storeGlobal name v').imp fun _ m' rewrites => ⟨by simp, moved rewrites⟩
  | var name =>
    simp only [slotOf?, overwritten?, targetShape?, pointee?, ← act, arena]
    refine (leads_storeLocal name v').imp fun _ m' stored => ⟨?_, moved stored.2⟩
    rintro _ ⟨⟩
    have reach : m₁.reach = m.reach := congrArg (fun h => h.storage.values ++ h.heap.values) same
    exact reach ▸ stored.1
  | func name => exact stray (by simp)
  | const literal => exact stray (by simp)

/-- A store over a composite puts the stored value for it in all storage in reach, and changes nothing else. -/
theorem store_consistent {p : Program} {m m' : Machine} {x y : Operand} {v a : Instance} {shape : Shape}
    (held : held? m y = some v) (old : overwritten? m x = some a) (differs : a ≠ v)
    (declared : targetShape? p m x = some shape) (composite : shape.isComposite)
    (stores : store p x y m = .ok () m') :
    (∀ id ∈ m'.reach, ∀ slot, m'.context.arena.content id slot ≠ some a) ∧
    (∀ id ∈ m'.reach, ∀ slot, m.context.arena.content id slot = some a →
      m'.context.arena.content id slot = some v) ∧
    (∀ id slot, slotOf? m x ≠ some (id, slot) →
      (id ∈ m'.reach → m.context.arena.content id slot ≠ some a) →
      m'.context.arena.content id slot = m.context.arena.content id slot) ∧
    ∀ id, id ∉ m'.reach → (∀ slot, slotOf? m x ≠ some (id, slot)) →
      m'.context.arena.get? id = m.context.arena.get? id := by
  have rewrites := ((leads_store held).ok stores).2
  have content (id : ContainerId) (slot : Slot) : m'.context.arena.content id slot =
      (if slotOf? m x = some (id, slot) then some v else m.context.arena.content id slot).map fun c =>
        if id ∈ m'.reach ∧ a = c then v else c := by
    rw [rewrites.content, old, declared]
    simp [composite]
  refine ⟨fun id inside slot holds => ?_, fun id inside slot holds => ?_,
    fun id slot apart other => ?_, rewrites.outside⟩
  · rw [content, Option.map_eq_some_iff] at holds
    obtain ⟨c, -, eq⟩ := holds
    split at eq
    · exact differs eq.symm
    · next keeps => exact keeps ⟨inside, eq.symm⟩
  · rw [content, holds]
    split
    · simp
    · simp [inside]
  · rw [content, if_neg apart]
    cases held : m.context.arena.content id slot with
    | none => rfl
    | some c => exact congrArg some (if_neg fun (both : id ∈ m'.reach ∧ a = c) => other both.1 (both.2 ▸ held))

/-- Two arrays, and a slice of arrays. -/
def sharing : Program where
  globals := [⟨"left", .array 2 (.basic "int")⟩, ⟨"right", .array 2 (.basic "int")⟩,
    ⟨"rows", .slice (.array 2 (.basic "int"))⟩]

/-- The slice has the first array as its first element. -/
def shared : Machine where
  context := { Context.ofProgram sharing with
    arena := ⟨[.elems (some 2) {}, .elems (some 2) {},
      .elems none (({} : Table Instance Instance).insert (.const (.int 0))
        (.ofProgram "left" (.array 2 (.basic "int"))))]⟩ }
  act := .start ⟨⟨"main", [], [], none⟩, []⟩ 0 [] "main"
  budget := 0

theorem shared_replaced : ∃ m', store sharing (.global "left") (.global "right") shared = .ok () m' ∧
    m'.context.arena.content 2 (.index (.const (.int 0))) = some (.ofProgram "right" (.array 2 (.basic "int"))) := by
  have consistent := store_consistent (p := sharing) (m := shared) (x := .global "left") (y := .global "right") rfl rfl
    (by decide) rfl rfl rfl
  exact ⟨_, rfl, consistent.2.1 2 (by decide) _ rfl⟩

end Pointers

/-! ### Runs -/

def isStore : Action → Bool
  | .perform (.store ..) => true
  | _ => false

theorem not_overwrite (other : isStore action = false) : ¬ (licenseOf m action).overwrite := by
  intro may
  cases action with
  | define value ty op => exact may
  | perform effect =>
    cases effect with
    | store x y => cases other
    | _ => exact may

theorem not_note (untouched : touches action (.var q) = false) : ¬ (licenseOf m action).note q := by
  intro may
  cases action with
  | define value ty op =>
    have other : Operand.var q ≠ .var value := of_decide_eq_false untouched
    cases op with
    | fieldAddr x i => exact other (congrArg _ may)
    | indexAddr x i => exact other (congrArg _ may)
    | _ => exact may
  | perform effect => exact may

/-- A store of `v` is seen through a pointer that is known from the state `m₀`, if it is made in the state `m₁`. -/
def Sees (types : TypeTable) (m₀ : Machine) (q : String) (m₁ : Machine) (target : String) (v : Instance) : Prop :=
  match m₀.act.addresses.get? q with
  | some s => Reveals types m₁ target v s
  | none => m₀.act.resolve? q = some v

/-- What is known of a pointer of an activation after a time: what it is bound to, its address, and whether `v` shows in
its slot once the store is made. -/
structure Config.Stands (since : Nat) (ident : String × Nat) (q : String) (i : Instance)
    (noted : Option (ContainerId × Slot)) (stored : Nat) (shows : ContainerId × Slot → Prop) (v : Instance)
    (c : Config) : Prop where
  watched : c.Watched since ident (.var q) i
  address : ∀ a ∈ c.crew, a.ident = ident → a.addresses.get? q = noted
  content : ∀ s, noted = some s → s.2.kind ≠ .map ∧
    ∃ w, c.machine.context.arena.content s.1 s.2 = some w ∧ (c.machine.budget < stored → (w = v ↔ shows s))

section Runs

variable {p : Program} {o : Options} {property : Property} {c c' : Config} {since stored : Nat}
  {ident : String × Nat} {q target : String} {i v : Instance} {noted : Option (ContainerId × Slot)} {m₁ : Machine}
  {arrival₁ : Arrival} {y : Operand} {pos₁ : Option Position}

/-- The store itself. -/
theorem content_store (held : held? m y = some v) (content : m.context.arena.content s.1 s.2 = some w)
    (ends : interpret ⟨p, o⟩ walk arrival (.perform (.store (.var target) y)) m = .ok () m') :
    ∃ w', m'.context.arena.content s.1 s.2 = some w' ∧ (w' = v ↔ Reveals p.types m target v s) := by
  obtain ⟨own, rewrites⟩ := (leads_store (x := .var target) held).ok ends
  have rewrites : Rewrites m m' (m.act.addresses.get? target) (pointee? m target)
    ((m.act.func.valueType? target).map p.types.shapeBehind) v := rewrites
  rw [rewrites.content, content, (own target rfl).1, Reveals, content, Prod.mk.eta]
  by_cases here : m.act.addresses.get? target = some s
  · rw [if_pos here]
    exact ⟨_, rfl, iff_of_true (ite_self v) (.inl here)⟩
  · rw [if_neg here, or_iff_right here, Option.some_inj]
    refine ⟨_, rfl, ?_⟩
    show (if _ then v else w) = v ↔ _
    split
    · next all => exact iff_of_true rfl (.inr ⟨all.2.1, (Option.any_eq_true ..).1 all.2.2, all.1⟩)
    · next never =>
      exact (or_iff_left fun other => never ⟨other.2.2, other.1, (Option.any_eq_true ..).2 other.2.1⟩).symm

variable (unique : Unique property)
  (stores : property stored (.instr arrival₁ ⟨.perform (.store (.var target) y), pos₁⟩) m₁)
    (held : held? m₁ y = some v)
include unique stores held

/-- A slot over an instruction that stays inside its block. -/
theorem content_simple (spent : c.machine.budget = c'.machine.budget + 1)
    (reached : property c.machine.budget (.instr arrival j) (c.machine.withBudget 0)) (simple : isSimple j.action)
    (ends : interpret ⟨p, o⟩ walk arrival j.action (c.machine.withBudget c'.machine.budget) = .ok () c'.machine)
    (only : isStore j.action → c.machine.budget = stored) (kind : s.2.kind ≠ .map)
    (content : c.machine.context.arena.content s.1 s.2 = some w)
    (shown : c.machine.budget < stored → (w = v ↔ Reveals p.types m₁ target v s)) :
    ∃ w', c'.machine.context.arena.content s.1 s.2 = some w' ∧
      (c'.machine.budget < stored → (w' = v ↔ Reveals p.types m₁ target v s)) := by
  by_cases now : c.machine.budget = stored
  · subst now
    obtain ⟨eq, machine⟩ := unique _ _ _ _ _ stores reached
    cases eq
    subst machine
    obtain ⟨w', content', seen⟩ := content_store (m := c.machine.withBudget c'.machine.budget)
      ((held?_congr rfl rfl y).trans held) content ends
    exact ⟨w', content', fun _ => seen⟩
  · have other : isStore j.action = false := by
      rw [← Bool.not_eq_true]
      exact fun store => now (only store)
    exact ⟨w, (deeds_simple simple ends).content_kept (not_overwrite other) kind content,
      fun past => shown (by omega)⟩

theorem Config.Stands.step (sound : c.Sound property)
    (stands : c.Stands since ident q i noted stored (Reveals p.types m₁ target v) v)
    (untouched : Untouched property since ident (.var q))
    (only : ∀ n arrival j m, property n (.instr arrival j) m → n < since → isStore j.action → n = stored)
    (before : c.machine.budget < since) (step : Step property c c') (move : Move ⟨p, o⟩ property c c') :
    c'.Stands since ident q i noted stored (Reveals p.types m₁ target v) v := by
  cases move.upshot with
  | @simple arrival j walk pays reached simple idle crew ends =>
    have staying := (staying_simple simple ends).1
    refine ⟨stands.watched.step sound untouched before step, fun a about same => ?_, fun s place => ?_⟩
    · rcases crew a about with rfl | about
      · have own : c.machine.act.ident = ident := staying.ident.symm.trans same
        have left := untouched _ arrival j _ reached (pays ▸ before) fun _ _ => own
        exact ((deeds_simple simple ends).addresses_kept (not_note left)).trans
          (stands.address _ mem_cons_self own)
      · exact stands.address a (mem_of_mem_tail about) same
    · obtain ⟨kind, w, content, shown⟩ := stands.content s place
      rw [← pays] at reached
      exact ⟨kind, content_simple unique stores held pays reached simple ends
        (fun store => only _ _ _ _ reached before store) kind content shown⟩
  | other heap arena draws scheduled passes =>
    refine ⟨stands.watched.step sound untouched before step, fun a about same => ?_, fun s place => ?_⟩
    · rcases (draws a about).own with ⟨new, -⟩ | ⟨b, about, own, eq, -⟩
      · have numbered := stands.watched.numbered
        rw [← same] at numbered
        exact absurd numbered (Nat.not_lt_of_le new)
      · rw [eq]
        exact stands.address b about (own.trans same)
    · obtain ⟨kind, w, content, shown⟩ := stands.content s place
      rw [arena]
      refine ⟨kind, w, content, fun past => shown ?_⟩
      cases passes with
      | unpaid same => exact same ▸ past
      | paid pays reached staying steers =>
        by_contra late
        have now : c'.machine.budget + 1 = stored := by omega
        rw [now] at reached
        obtain ⟨eq, -⟩ := unique _ _ _ _ _ reached stores
        cases steers _ _ eq.symm

/-- What is known of a pointer in a state is known from then on. -/
theorem Config.Stands.start {k : Nat} (sound : c.Sound property) (step : Step property c c') (idle : c.doing = none)
    (machine : m₀ = c.machine.withBudget 0) (spent : c.machine.budget = c'.machine.budget + 1)
    (reached : property c.machine.budget (.instr arrival j) (c.machine.withBudget 0)) (simple : isSimple j.action)
    (ends : interpret ⟨p, o⟩ walk arrival j.action (m₀.withBudget k) = .ok () c'.machine)
    (only : isStore j.action → c.machine.budget = stored) (before : stored ≤ c.machine.budget)
    (untouched : touches j.action (.var q) = false) (bound : m₀.act.resolve? q = some i)
    (filled : Analysis.Filled m₀.context.arena m₀.act.addresses) :
    c'.Stands c.machine.budget m₀.act.ident q i (m₀.act.addresses.get? q) stored
      (Reveals p.types m₁ target v) v := by
  subst machine
  have left : c'.machine.budget = k := (staying_simple simple ends).2
  subst left
  have ends : interpret ⟨p, o⟩ walk arrival j.action (c.machine.withBudget c'.machine.budget) =
    .ok () c'.machine := ends
  have staying : Staying c.machine c'.machine := .trans (.withBudget c.machine _) (staying_simple simple ends).1
  have issued : (c.machine.withBudget c'.machine.budget).Issued := (sound.issued.withBudget _).issued
  have kept : held? c'.machine (.var q) = some i :=
    (advances_simple issued simple ends).carries.locals (untouched_var untouched) bound
  refine ⟨.of_paid unique sound step reached simple idle staying kept, fun a about same => ?_, fun s place => ?_⟩
  · obtain rfl := step.sound.eq_of_ident about mem_cons_self (same.trans staying.ident.symm)
    exact (deeds_simple simple ends).addresses_kept (not_note untouched)
  · obtain ⟨kind, w, content⟩ := filled q s place
    exact ⟨kind, content_simple unique stores held spent reached simple ends only kind content
      fun past => absurd past (Nat.not_lt_of_le before)⟩

end Runs

/-- A pointer that is known at step `n₀` is read at step `n₂` by the same activation, which leaves it
alone in between, and there is no store in all that time but the one at step `n₁`. -/
structure Reread (p : Program) (o : Options) (n₀ n₁ n₂ : Nat) (m₀ m₂ : Machine) (q value : String)
    (ty : Ty) : Prop where
  known : ∃ arrival j, StopsAt p o n₀ (.instr arrival j) m₀ ∧ isSimple j.action
  bound : (m₀.act.resolve? q).isSome
  reads : ∃ arrival pos, StopsAt p o n₂ (.instr arrival ⟨.define value ty (.deref (.var q)), pos⟩) m₂
  first : n₀ ≤ n₁
  second : n₁ < n₂
  same : m₂.act.ident = m₀.act.ident
  untouched : ∀ n arrival j m, n₀ ≤ n → n ≤ n₂ → StopsAt p o n (.instr arrival j) m →
    m.act.ident = m₀.act.ident → touches j.action (.var q) = false
  only : ∀ n arrival j m, n₀ ≤ n → n < n₂ → StopsAt p o n (.instr arrival j) m →
    isStore j.action → n = n₁

/-- Reading through a pointer succeeds, and gives `v` exactly if `shown` holds. -/
def GivesIff (types : TypeTable) (m : Machine) (q value : String) (ty : Ty) (v : Instance) (shown : Prop) : Prop :=
  ∃ i m', deref types value ty (.var q) m = .ok () m' ∧ m'.act.resolve? value = some i ∧ (i = v ↔ shown)

/-- What a pointer is dereferenced to after a store, in whichever activation that is made. -/
theorem deref_after_store {n₀ n₁ n₂ : Nat} {arrival₁ : Arrival} {y : Operand} {pos₁ : Option Position}
    {m₁ m₂ : Machine}
    (stores : StopsAt p o n₁ (.instr arrival₁ ⟨.perform (.store (.var target) y), pos₁⟩) m₁)
    (held : held? m₁ y = some v) (reread : Reread p o n₀ n₁ n₂ m₀ m₂ q value ty) :
    GivesIff p.types m₂ q value ty v (Sees p.types m₀ q m₁ target v) := by
  obtain ⟨⟨arrival₀, j, known, simple⟩, bound, ⟨arrival₂, pos₂, derefs⟩, first, second, same,
    untouched, only⟩ := reread
  obtain ⟨i, bound⟩ := Option.isSome_iff_exists.1 bound
  have here := untouched n₀ arrival₀ j m₀ (Nat.le_refl _) (by omega) known rfl
  have once := only n₀ arrival₀ j m₀ (Nat.le_refl _) (by omega) known
  obtain ⟨entry, found, stops₀⟩ := known
  obtain ⟨entry₁, found₁, stops₁⟩ := stores
  obtain ⟨entry₂, found₂, stops₂⟩ := derefs
  obtain rfl := Option.mem_unique found found₁
  obtain rfl := Option.mem_unique found found₂
  have unique : Unique (History p o entry n₂) := unique_history p o entry n₂
  have reached := History.of_stops (Nat.le_of_lt (Nat.lt_of_le_of_lt first second)) stops₀
  have stored := History.of_stops (Nat.le_of_lt second) stops₁
  have left : Untouched (History p o entry n₂) (n₂ - n₀) m₀.act.ident (.var q) := by
    intro n arrival j m history before own
    exact untouched (n₂ - n) arrival j m (by omega) (Nat.sub_le _ _) ⟨entry, found, history.2⟩ (own q rfl)
  have once' (n arrival j m) (history : History p o entry n₂ n (.instr arrival j) m) (before : n < n₂ - n₀)
      (store : isStore j.action) : n = n₂ - n₁ := by
    by_cases last : n = 0
    · -- The analysis stops at the dereference.
      subst last
      have ends : History p o entry n₂ 0 _ m₂ := ⟨Nat.zero_le _, stops₂⟩
      obtain ⟨eq, -⟩ := unique _ _ _ _ _ ends history
      cases eq
      cases store
    · have upTo := history.1
      have now := only (n₂ - n) arrival j m (by omega) (by omega) ⟨entry, found, history.2⟩ store
      omega
  have begins {c c' : Config} {walk : Walker} {k : Nat} (sound : c.Sound (History p o entry n₂))
    (idle : c.doing = none)
      (now : c.machine.budget = n₂ - n₀) (spent : c.machine.budget = c'.machine.budget + 1)
      (machine : m₀ = c.machine.withBudget 0)
      (ends : interpret ⟨p, o⟩ walk arrival₀ j.action (m₀.withBudget k) = .ok () c'.machine)
      (step : Step (History p o entry n₂) c c') (move : Move ⟨p, o⟩ (History p o entry n₂) c c') :
      c'.Stands (n₂ - n₀) m₀.act.ident q i (m₀.act.addresses.get? q) (n₂ - n₁)
        (Reveals p.types m₁ target v) v := by
    rw [← now]
    refine .start unique stored held sound step idle machine spent ?_ simple ends (fun store => ?_)
      (by omega) here bound (filled_of_stops stops₀)
    · rw [now, ← machine]
      exact reached
    · rw [now, once store]
  obtain ⟨spent, d, s, sound, stands⟩ := kept_since (P := fun c => c.Stands (n₂ - n₀) m₀.act.ident q i
      (m₀.act.addresses.get? q) (n₂ - n₁) (Reveals p.types m₁ target v) v) stops₀ simple stops₂ rfl
    (Nat.lt_of_le_of_lt first second) begins
    (fun sound stands before step move => stands.step unique stored held sound left once' before step move)
  have binding : m₂.act.resolve? q = some i := stands.watched.holds _ mem_cons_self same
  have address : m₂.act.addresses.get? q = m₀.act.addresses.get? q := stands.address _ mem_cons_self same
  cases noted : m₀.act.addresses.get? q with
  | none =>
    have points : pointee? m₂ q = some i := by rw [pointee?, address, noted, binding]
    obtain ⟨m', ends, binds⟩ := deref_binds value ty binding points
    refine ⟨i, m', ends, binds, ?_⟩
    rw [Sees, noted, bound, Option.some_inj]
  | some s =>
    obtain ⟨-, w, content, shown⟩ := stands.content s noted
    have points : pointee? m₂ q = some w := by
      rw [pointee?, address, noted]
      exact content
    obtain ⟨m', ends, binds⟩ := deref_binds value ty binding points
    refine ⟨w, m', ends, binds, ?_⟩
    rw [Sees, noted]
    refine shown ?_
    rw [spent]
    omega

/-! ### Arguments -/

theorem leads_handBinds (types : TypeTable) (caller callee : Activation) (param : Param) (i : Instance) :
    Leads (hand types caller callee param i) m
      fun a _ => ∀ name, a.resolve? name = if param.name = name then some i else callee.resolve? name := by
  rw [hand, leads_bind, leads_emit]
  intro name
  cases caller.storage.get? i <;> cases types.carriesChan param.ty <;> exact Table.get?_insert _ _ _ _

theorem leads_handAllBinds (types : TypeTable) (caller callee : Activation) (es : List (Param × Option Instance)) :
    Leads (handAll types caller callee es) m fun a _ =>
      (∀ name, name ∉ es.map (·.1.name) → a.resolve? name = callee.resolve? name) ∧
      ((es.map (·.1.name)).Nodup → ∀ param i, (param, some i) ∈ es → a.resolve? param.name = some i) := by
  induction es generalizing callee m with
  | nil => exact ⟨fun _ _ => rfl, fun _ _ _ member => absurd member not_mem_nil⟩
  | cons e rest ih =>
    obtain ⟨param, i⟩ := e
    cases i with
    | none =>
      rw [handAll, leads_bind, leads_emit]
      refine (ih callee).imp fun a _ led => ⟨fun name other => ?_, fun distinct param' i member => ?_⟩
      · exact led.1 name fun member => other (mem_cons_of_mem _ member)
      · rcases mem_cons.1 member with eq | member
        · cases eq
        · exact led.2 (nodup_cons.1 distinct).2 param' i member
    | some v =>
      rw [handAll, leads_bind]
      refine (leads_handBinds types caller callee param v).imp fun callee' m₁ here => ?_
      refine (ih callee').imp fun a _ led => ⟨fun name other => ?_, fun distinct param' i member => ?_⟩
      · rw [map_cons, mem_cons, not_or] at other
        rw [led.1 name other.2, here, if_neg (Ne.symm other.1)]
      · rcases mem_cons.1 member with eq | member
        · cases eq
          rw [led.1 _ (nodup_cons.1 distinct).1, here, if_pos rfl]
        · exact led.2 (nodup_cons.1 distinct).2 param' i member

/-- A parameter stands for what its argument is bound to. -/
theorem pointee_param {f : Function} {args : List Operand} {captures : List Instance} {receiver : Option Instance}
    {a : Activation} {param : Param} (ends : calleeActivation types f args captures receiver m = .ok a m')
    (distinct : ((handedTo m f args captures receiver).map (·.1.name)).Nodup)
    (given : (param, some i) ∈ handedTo m f args captures receiver) :
    pointee? { m' with act := a } param.name = some i := by
  obtain ⟨m₁, n, prepared, rfl⟩ := prepare_of_callee ends
  obtain ⟨addresses, -⟩ := prepare_outfits prepared
  have bound : a.resolve? param.name = some i := by
    refine prepare_handed (P := fun a => a.resolve? param.name = some i) prepared fun _ _ => ?_
    exact (leads_handAllBinds types m.act _ _).imp fun a _ led => led.2 distinct param i given
  have noted : a.addresses.get? param.name = none := by
    rw [addresses]
    rfl
  unfold pointee?
  rw [noted]
  exact bound

section Calls

variable {p : Program} {o : Options} {n₁ n₂ : Nat} {arrival₁ : Arrival} {target : String} {y : Operand}
  {pos₁ : Option Position} {point : Point} {m₁ m₂ : Machine} {v : Instance}

/-- A pointer stays bound to what is stored through it, until it is touched. -/
theorem bound_since_store
    (stores : StopsAt p o n₁ (.instr arrival₁ ⟨.perform (.store (.var target) y), pos₁⟩) m₁)
    (held : held? m₁ y = some v) (calls : StopsAt p o n₂ point m₂) (paid : isPaid point) (later : n₁ < n₂)
    (same : m₂.act.ident = m₁.act.ident)
    (untouched : ∀ n arrival j m, n₁ < n → n ≤ n₂ → StopsAt p o n (.instr arrival j) m →
      m.act.ident = m₁.act.ident →
      touches j.action (.var target) = false) : m₂.act.resolve? target = some v := by
  have ends (walk : Walker) (k : Nat) (m : Machine)
      (goes : interpret ⟨p, o⟩ walk arrival₁ (.perform (.store (.var target) y)) (m₁.withBudget k) = .ok () m) :
      ∃ i, i = v ∧ held? m (.var target) = some i := by
    have held : held? (m₁.withBudget k) y = some v := (held?_congr rfl rfl y).trans held
    exact ⟨v, rfl, (((leads_store (x := .var target) held).ok goes).1 target rfl).2⟩
  obtain ⟨i, rfl, bound⟩ := held_of_untouched stores rfl ends calls paid later same
    fun n arrival j m after upTo stops own => untouched n arrival j m after upTo stops (own target rfl)
  exact bound

/-- A pointer that is left alone from step `n₁` on is handed to a parameter. -/
structure HandedOn (p : Program) (o : Options) (n₁ : Nat) (m₁ : Machine) (target : String) (f : Function)
    (args : List Operand) (captures : List Instance) (receiver : Option Instance) (m : Machine) (param : Param)
    (a : Activation) (m' : Machine) : Prop where
  calls : ∃ n₂ point m₂, StopsAt p o n₂ point m₂ ∧ isPaid point ∧ n₁ < n₂ ∧
    m₂.act.ident = m₁.act.ident ∧
    m.act = m₂.act ∧ ∀ n arrival j m, n₁ < n → n ≤ n₂ → StopsAt p o n (.instr arrival j) m →
      m.act.ident = m₁.act.ident → touches j.action (.var target) = false
  prepared : calleeActivation p.types f args captures receiver m = .ok a m'
  distinct : ((handedTo m f args captures receiver).map (·.1.name)).Nodup
  given : (param, held? m (.var target)) ∈ handedTo m f args captures receiver

/-- A store through `target`, which has no address as a parameter has none, is seen through another pointer. -/
def SeesBack (types : TypeTable) (m₀ : Machine) (q : String) (m₁ : Machine) (target : String)
    (v : Instance) : Prop :=
  match m₀.act.addresses.get? q with
  | none => m₀.act.resolve? q = some v
  | some (id, slot) => m₁.context.arena.content id slot = some v ∨
    m₁.act.resolve? target = m₁.context.arena.content id slot ∧
      (∃ shape, (m₁.act.func.valueType? target).map types.shapeBehind = some shape ∧ shape.isComposite) ∧
      id ∈ m₁.act.storage.values ++ m₁.context.heap.values

theorem sees_iff_seesBack (unnoted : m₁.act.addresses.get? target = none) :
    Sees types m₀ q m₁ target v ↔ SeesBack types m₀ q m₁ target v := by
  unfold Sees SeesBack
  cases m₀.act.addresses.get? q with
  | none => exact Iff.rfl
  | some s =>
    show Reveals types m₁ target v s ↔ _
    rw [Reveals, pointee?, unnoted]
    exact or_iff_right nofun

/-- After a store through a pointer, another pointer that is known from before is dereferenced to the
stored value exactly if its slot shows it, or, having no slot, if it is bound to that value already. A
parameter to which the pointer is handed stands for the stored value. What a callee stores through a
parameter its caller reads where the caller's pointer had that value already, or where its slot held
the composite that the parameter stands for. -/
theorem stores_seen_iff
    (stores : StopsAt p o n₁ (.instr arrival₁ ⟨.perform (.store (.var target) y), pos₁⟩) m₁)
    (held : held? m₁ y = some v) :
    (∀ {n₀ n₂ : Nat} {m₀ m₂ : Machine} {q value : String} {ty : Ty}, Reread p o n₀ n₁ n₂ m₀ m₂
      q value ty → GivesIff p.types m₂ q value ty v (Sees p.types m₀ q m₁ target v)) ∧
    (∀ {f : Function} {args : List Operand} {captures : List Instance} {receiver : Option Instance} {m m' : Machine}
      {param : Param} {a : Activation}, HandedOn p o n₁ m₁ target f args captures receiver m param a m' →
      pointee? { m' with act := a } param.name = some v) ∧
    ((∀ n arrival j m, n ≤ n₁ → StopsAt p o n (.instr arrival j) m → m.act.ident = m₁.act.ident →
        ¬ (licenseOf m j.action).note target) →
      ∀ {n₀ n₂ : Nat} {m₀ m₂ : Machine} {q value : String} {ty : Ty}, Reread p o n₀ n₁ n₂ m₀ m₂
        q value ty → GivesIff p.types m₂ q value ty v (SeesBack p.types m₀ q m₁ target v)) := by
  refine ⟨deref_after_store stores held, ?_, fun unnoted _ _ _ _ _ _ _ reread => ?_⟩
  · intro f args captures receiver m m' param a handed
    obtain ⟨⟨n₂, point, m₂, calls, paid, later, same, act, untouched⟩, prepared, distinct, given⟩ := handed
    have bound : held? m (.var target) = some v := by
      rw [held?, act]
      exact bound_since_store stores held calls paid later same untouched
    rw [bound] at given
    exact pointee_param prepared distinct given
  · rw [← sees_iff_seesBack (unnoted_of_stops stores unnoted)]
    exact deref_after_store stores held reread

end Calls

/-! ### Two addresses of one field -/

/-- Stores through one address of a field, and reads through another. -/
def pairing : Function := .closed "main.main" [
  .of 0 none [] [] [
    .define "a" .intChan (.makeChan (.int 1)),
    .define "s" (.pointer (.struct [.intChan])) (.alloc .heap),
    .define "p" (.pointer .intChan) (.fieldAddr (.var "s") 0),
    .define "q" (.pointer .intChan) (.fieldAddr (.var "s") 0),
    .perform (.store (.var "p") (.var "a")),
    .define "d" .intChan (.deref (.var "q")),
    .perform (.send (.var "d") (.int 1)),
    .perform (.ret [])]]

/-- Lends the address of a field to a callee, and reads through it afterwards. -/
def lending : Function := .closed "main.main" [
  .of 0 none [] [] [
    .define "s" (.pointer (.struct [.intChan])) (.alloc .heap),
    .define "p" (.pointer .intChan) (.fieldAddr (.var "s") 0),
    .define "b" .intChan (.makeChan (.int 1)),
    .perform (.call ⟨.static "main.fill", [.var "p"]⟩),
    .define "d" .intChan (.deref (.var "p")),
    .perform (.ret [])]]

/-- Stores a channel through its parameter. -/
def filling : Function where
  name := "main.fill"
  params := [⟨"q", .pointer .intChan⟩]
  freeVars := []
  results := none
  blocks := [
    .of 0 none [] [] [
      .define "a" .intChan (.makeChan (.int 1)),
      .perform (.store (.var "q") (.var "a")),
      .perform (.ret [])]]

def lent : Program := { functions := [lending, filling] }

/-- The channel of the callee. -/
def filled : Instance := .value ⟨some "main.fill", "a"⟩ 0 0 .intChan

theorem name?_of_note (notes : (licenseOf m j.action).note value) : j.name? = some value := by
  obtain ⟨action, pos⟩ := j
  unfold licenseOf at notes
  dsimp only at notes
  split at notes
  · exact congrArg some notes.symm
  · exact congrArg some notes.symm
  · exact notes.elim

/-- The channel that is stored through one address of a field is read through the other, and the one that a callee
stores through its parameter is not read by its caller. -/
theorem pairing_seen :
    (∃ m₁ m₂ m', StopsAt { functions := [pairing] } {} 4 (.instr ⟨0, none⟩
        (.perform (.store (.var "p") (.var "a")))) m₁ ∧
      StopsAt { functions := [pairing] } {} 5 (.instr ⟨0, none⟩
        (.define "d" .intChan (.deref (.var "q")))) m₂ ∧
      pointee? m₁ "q" ≠ some (minted "a" 0) ∧
      deref {} "d" .intChan (.var "q") m₂ = .ok () m' ∧ m'.act.resolve? "d" = some (minted "a" 0)) ∧
    ∃ m₁ m₂ m' i, StopsAt lent {} 6 (.instr ⟨0, none⟩ (.perform (.store (.var "q") (.var "a")))) m₁ ∧
      held? m₁ (.var "a") = some filled ∧
      StopsAt lent {} 8 (.instr ⟨0, none⟩ (.define "d" .intChan (.deref (.var "p")))) m₂ ∧
      deref {} "d" .intChan (.var "p") m₂ = .ok () m' ∧ m'.act.resolve? "d" = some i ∧ i ≠ filled := by
  constructor
  · obtain ⟨m₁, stores, ident₁, held, known, unseen, address, noted⟩ :
      ∃ m, StopsAt { functions := [pairing] } {} 4
        (.instr ⟨0, none⟩ (.perform (.store (.var "p") (.var "a")))) m ∧ m.act.ident = ("main.main", 0) ∧
        held? m (.var "a") = some (minted "a" 0) ∧ (m.act.resolve? "q").isSome ∧
          pointee? m "q" ≠ some (minted "a" 0) ∧
        m.act.addresses.get? "p" = some (0, .field 0) ∧ m.act.addresses.get? "q" = some (0, .field 0) :=
      exists_stop (by decide +kernel)
    obtain ⟨m₂, derefs, ident₂⟩ : ∃ m, StopsAt { functions := [pairing] } {} 5
        (.instr ⟨0, none⟩ (.define "d" .intChan (.deref (.var "q")))) m ∧
        m.act.ident = ("main.main", 0) := exists_stop (by decide +kernel)
    have untouched : ∀ n ≤ 5, 4 ≤ n → (instrAt { functions := [pairing] } {} n).all
      (!touches ·.action (.var "q")) := by
      decide +kernel
    obtain ⟨v, m', ends, binds, seen⟩ := (stores_seen_iff stores held).1 ⟨⟨_, _, stores, rfl⟩, known,
      ⟨_, _, derefs⟩, Nat.le_refl 4, Nat.lt_succ_self 4, ident₂.trans ident₁.symm,
      fun n _ _ _ first last stops _ => by simpa [instrAt_of_stops stops] using untouched n last first,
      fun n _ _ _ first last _ _ => by omega⟩
    have shows : Sees {} m₁ "q" m₁ "p" (minted "a" 0) := by
      rw [Sees, noted]
      exact .inl address
    obtain rfl := seen.2 shows
    exact ⟨m₁, m₂, m', stores, derefs, unseen, ends, binds⟩
  · obtain ⟨m₀, knows, ident₀, known, noted⟩ : ∃ m, StopsAt lent {} 2
        (.instr ⟨0, none⟩ (.define "b" .intChan (.makeChan (.int 1)))) m ∧
        m.act.ident = ("main.main", 0) ∧ (m.act.resolve? "p").isSome ∧
          m.act.addresses.get? "p" = some (0, .field 0) :=
      exists_stop (by decide +kernel)
    obtain ⟨m₁, stores, held, content, shape⟩ : ∃ m, StopsAt lent {} 6
        (.instr ⟨0, none⟩ (.perform (.store (.var "q") (.var "a")))) m ∧
        held? m (.var "a") = some filled ∧ m.context.arena.content 0 (.field 0) ≠ some filled ∧
        ((m.act.func.valueType? "q").map (TypeTable.shapeBehind {})).any (·.isComposite) = false :=
      exists_stop (by decide +kernel)
    obtain ⟨m₂, derefs, ident₂⟩ : ∃ m, StopsAt lent {} 8
        (.instr ⟨0, none⟩ (.define "d" .intChan (.deref (.var "p")))) m ∧
        m.act.ident = ("main.main", 0) := exists_stop (by decide +kernel)
    have untouched : ∀ n ≤ 8, 2 ≤ n → (instrAt lent {} n).all fun j =>
        !touches j.action (.var "p") && (n == 6 || !isStore j.action) := by decide +kernel
    have unnoted : ∀ n ≤ 6, (instrAt lent {} n).all (·.name? ≠ some "q") := by decide +kernel
    obtain ⟨i, m', ends, binds, seen⟩ := (stores_seen_iff stores held).2.2
      (fun n _ _ _ upTo stops _ notes => by
        simpa [instrAt_of_stops stops, name?_of_note notes] using unnoted n upTo)
      ⟨⟨_, _, knows, rfl⟩, known, ⟨_, _, derefs⟩, by decide, by decide, ident₂.trans ident₀.symm,
        fun n _ _ _ first last stops _ => by
          have checked := untouched n last first
          simp_all [instrAt_of_stops stops],
        fun n _ _ _ first last stops store => by
          have checked := untouched n (Nat.le_of_lt last) first
          simp_all [instrAt_of_stops stops]⟩
    refine ⟨m₁, m₂, m', i, stores, held, derefs, ends, binds, fun same => ?_⟩
    have sees := seen.1 same
    rw [SeesBack, noted] at sees
    rcases sees with already | ⟨-, ⟨kind, typed, composite⟩, -⟩
    · exact content already
    · rw [show lent.types = {} from rfl] at typed
      simp [typed, composite] at shape

/-! ### A converted pointer -/

/-- Stores through a pointer of which a copy was made, and reads through the copy. -/
def copying : Function := .closed "main.main" [
  .of 0 none [] [] [
    .define "a" .intChan (.makeChan (.int 1)),
    .define "b" .intChan (.makeChan (.int 1)),
    .define "p" (.pointer .intChan) (.alloc .heap),
    .perform (.store (.var "p") (.var "a")),
    .define "q" (.pointer .intChan) (.convert .changeType (.var "p")),
    .perform (.store (.var "p") (.var "b")),
    .define "d" .intChan (.deref (.var "q")),
    .perform (.send (.var "d") (.int 1)),
    .perform (.ret [])]]

/-- The copy is still read as the channel that was there when it was made. -/
theorem copying_unseen :
    copying.Linked ∧ ∃ m₁ m₂ m', StopsAt { functions := [copying] } {} 5 (.instr ⟨0, none⟩
        (.perform (.store (.var "p") (.var "b")))) m₁ ∧
      held? m₁ (.var "q") = held? m₁ (.var "p") ∧ held? m₁ (.var "b") = some (minted "b" 0) ∧
      StopsAt { functions := [copying] } {} 6 (.instr ⟨0, none⟩
        (.define "d" .intChan (.deref (.var "q")))) m₂ ∧
      deref {} "d" .intChan (.var "q") m₂ = .ok () m' ∧ m'.act.resolve? "d" = some (minted "a" 0) := by
  obtain ⟨m₁, stops₁, copy, stored⟩ : ∃ m, StopsAt { functions := [copying] } {} 5
      (.instr ⟨0, none⟩ (.perform (.store (.var "p") (.var "b")))) m ∧
      held? m (.var "q") = held? m (.var "p") ∧ held? m (.var "b") = some (minted "b" 0) :=
        exists_stop (by decide +kernel)
  obtain ⟨m₂, stops₂, bound, points⟩ : ∃ m, StopsAt { functions := [copying] } {} 6
      (.instr ⟨0, none⟩ (.define "d" .intChan (.deref (.var "q")))) m ∧
      m.act.resolve? "q" = some (minted "a" 0) ∧ pointee? m "q" = some (minted "a" 0) :=
        exists_stop (by decide +kernel)
  obtain ⟨m', ends, binds⟩ := deref_binds "d" .intChan bound points
  exact ⟨⟨copying.draft, rfl⟩, m₁, m₂, m', stops₁, copy, stored, stops₂, ends, binds⟩

end Analysis

end ChanFlow
