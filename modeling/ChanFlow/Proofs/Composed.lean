import ChanFlow.Proofs.Step

/-!
What the instructions that stay inside their block are made of.

A `Composed` step is put together from elementary ones: reading the state, binding values and writing
storage, adding a statement that names no routine, and failing. What such steps keep is shown once for
each way of putting them together, not for each instruction.
-/
namespace ChanFlow

/-- Whether an operation has to do with the open selects: making one, or taking the first part of a tuple. -/
def Ssa.ValueOp.OnSelects : Ssa.ValueOp → Prop
  | .select .. => True
  | .extract _ part => part = 0
  | _ => False

/-- Whether a channel is made or used. -/
def Ssa.ValueOp.Talks : Ssa.ValueOp → Prop
  | .makeChan _ | .recv .. | .select .. => True
  | _ => False

def Ssa.Effect.Talks : Ssa.Effect → Prop
  | .send .. => True
  | _ => False

namespace Protocol.Statement

/-- A statement on channels: an operation, or a select whose cases have no bodies yet. -/
def Elementary : Statement → Prop
  | newChan .. | send _ | recv _ | close _ => True
  | select cases =>
    ∀ body ∈ cases, (∃ chan, body = [send chan]) ∨ (∃ chan, body = [recv chan]) ∨ body = [tau]
  | _ => False

theorem Elementary.silent {s : Statement} (elementary : s.Elementary) : s.callees = [] := by
  cases s with
  | select cases =>
    rw [callees]
    induction cases with
    | nil => rw [calleesOfCases]
    | cons body rest ih =>
      obtain ⟨first, others⟩ := List.forall_mem_cons.1 elementary
      rw [calleesOfCases, ih others]
      obtain ⟨chan, rfl⟩ | ⟨chan, rfl⟩ | rfl := first <;> simp [callees, calleesOfAll]
  | newChan | send | recv | close => simp [callees]
  | _ => exact elementary.elim

end Protocol.Statement

namespace Analysis

open Ssa Protocol

variable {α β : Type}

/-- An activation without its values and without the statements of the current list. -/
def Activation.skeleton (a : Activation) : Activation :=
  { a with
    routine := { a.routine with stmts := [] }
    locals := {}, storage := {}, returned := [], selects := {}, commaOk := {}, tuples := {}
    addresses := {} }

/-- How many activations of a function there have been. -/
def Context.count (c : Context) (func : String) : Nat := (c.counters.get? func).getD 0

theorem Context.count_numberActivation (c : Context) (func other : String) :
    (c.numberActivation func).2.count other = if func = other then c.count func + 1 else c.count other := by
  simp only [count, numberActivation, Table.get?_insert]
  split <;> rfl

/-- What steps that stay inside a block may change, beside the values and the current list. -/
structure Reach where
  /-- The open selects. -/
  sites : Prop
  /-- Containers, who has them, and noted addresses. -/
  storage : Prop
  /-- The current loop. -/
  loop : Prop
  /-- The statements. -/
  talk : Prop

/-- Steps made of elementary ones that stay inside a block, and change no more than they may. -/
inductive Composed (reach : Reach) : {α : Type} → Run α → Prop where
  | pure {α : Type} (a : α) : Composed reach (Pure.pure a)
  | bind {α β : Type} {x : Run α} {f : α → Run β} (first : Composed reach x)
    (next : ∀ a, Composed reach (f a)) :
      Composed reach (x >>= f)
  | failWith {α : Type} (cause : Cause) (other : ∀ e, cause ≠ .protocol e) :
    Composed reach (failWith cause : Run α)
  | endless {α : Type} (ty : Ty) : Composed reach (throw (.endless ty) : Run α)
  | activation : Composed reach activation
  | context : Composed reach context
  | modifyActivation {f : Activation → Activation} (skeleton : ∀ a, (f a).skeleton = a.skeleton)
      (stmts : ∀ a, (f a).routine.stmts = a.routine.stmts) (selects : reach.sites ∨
        ∀ a, (f a).selects = a.selects)
      (storage : reach.storage ∨ ∀ a, (f a).storage = a.storage ∧ (f a).addresses = a.addresses) :
      Composed reach (modifyActivation f)
  | modifyContext {f : Context → Context} (protocol : ∀ c, (f c).protocol = c.protocol)
      (counts : ∀ c func, c.count func ≤ (f c).count func)
      (storage : reach.storage ∨ ∀ c, (f c).heap = c.heap ∧ (f c).arena = c.arena) :
        Composed reach (modifyContext f)
  | addStatement {s : Statement} (may : reach.talk) (elementary : s.Elementary) : Composed reach (addStatement s)
  | emit {e : Event} (other : ∀ block, e ≠ .blockRevisited block) : Composed reach (emit e)
  | changeLoop (may : reach.loop) (event : Loop → Option Event) (change : Loop → Loop) :
    Composed reach (changeLoop event change)

section Steps

variable {reach : Reach}

theorem Composed.mapM {f : β → Run α} (each : ∀ b, Composed reach (f b)) (bs : List β) :
    Composed reach (bs.mapM f) := by
  rw [← List.mapM'_eq_mapM]
  induction bs with
  | nil => exact .pure []
  | cons b rest ih => exact (each b).bind fun a => ih.bind fun as => .pure (a :: as)

/-! ### Values -/

theorem composed_values {f : Activation → Activation} (kept : ∀ a, (f a).skeleton = a.skeleton ∧
    (f a).routine.stmts = a.routine.stmts ∧ (f a).selects = a.selects ∧ (f a).storage = a.storage ∧
    (f a).addresses = a.addresses) : Composed reach (modifyActivation f) :=
  .modifyActivation (fun a => (kept a).1) (fun a => (kept a).2.1) (.inr fun a => (kept a).2.2.1)
    (.inr fun a => (kept a).2.2.2)

theorem composed_emit? {e : Option Event} (other : ∀ block, e ≠ some (.blockRevisited block)) :
    Composed reach (emit? e) := by
  cases e with
  | none => exact .pure ()
  | some e => exact .emit fun block eq => other block (congrArg some eq)

theorem composed_numberActivation (routine : String) : Composed reach (numberActivation routine) := by
  refine .bind .context fun _ =>
    .bind (.modifyContext (fun _ => rfl) (fun c func => ?_) (.inr fun _ => ⟨rfl, rfl⟩)) fun _ => .pure _
  rw [c.count_numberActivation]
  split
  · next same => exact same ▸ Nat.le_succ _
  · exact Nat.le_refl _

theorem composed_instanceOf? (x : Operand) : Composed reach (instanceOf? x) := by
  cases x with
  | var name => exact .bind .activation fun _ => .pure _
  | global name => exact .bind .context fun _ => .pure _
  | func name =>
    obtain ⟨callables, kept⟩ : ∃ callables : Context → Table Instance FunctionValue, ∀ c : Context,
      (c.valueOfFunction name).2 =
        { c with callables := callables c } := by
      refine ⟨fun c => (c.valueOfFunction name).2.callables, fun c => ?_⟩
      simp only [Context.valueOfFunction]
      split <;> rfl
    simp only [instanceOf?, kept]
    exact .bind .context fun _ =>
      .bind (.modifyContext (fun _ => rfl) (fun _ _ => Nat.le_refl _) (.inr fun _ => ⟨rfl, rfl⟩))
      fun _ => .pure _
  | const literal => exact .pure _

theorem composed_instanceOf (x : Operand) : Composed reach (instanceOf x) := by
  refine .bind (composed_instanceOf? x) fun found => ?_
  split
  · exact .pure _
  · exact .bind .activation fun _ => .failWith _ nofun

section

variable (value : String)
include value

theorem composed_bindValue (i : Instance) : Composed reach (bindValue value i) :=
  .bind (.emit nofun) fun _ => composed_values fun _ => ⟨rfl, rfl, rfl, rfl, rfl⟩

theorem composed_fresh (ty : Ty) : Composed reach (fresh value ty) :=
  .bind .activation fun _ => .pure _

theorem composed_bindFresh (ty : Ty) : Composed reach (bindFresh value ty) :=
  .bind (composed_fresh value ty) (composed_bindValue value)

theorem composed_bindOperand (x : Operand) : Composed reach (bindOperand value x) :=
  .bind (composed_instanceOf x) (composed_bindValue value)

theorem composed_bindWithFlag (ty : Ty) (first : Option Instance) : Composed reach (bindWithFlag value ty first) :=
  .bind (composed_fresh value ty) fun _ =>
    .bind (composed_values fun _ => ⟨rfl, rfl, rfl, rfl, rfl⟩) fun _ => composed_bindValue value _

end

theorem composed_containerOf? (i : Instance) : Composed reach (containerOf? i) :=
  .bind .activation fun _ => .bind .context fun _ => .pure _

theorem composed_returnValues (slot : Nat) (xs : List Operand) : Composed reach (returnValues slot xs) := by
  induction xs generalizing slot with
  | nil => exact .pure ()
  | cons x rest ih =>
    refine .bind (composed_instanceOf? x) fun found => ?_
    split
    · exact .bind (composed_values fun _ => ⟨rfl, rfl, rfl, rfl, rfl⟩) fun _ => ih _
    · exact .bind (.emit nofun) fun _ => ih _

theorem composed_skipUnmodelled (op : String) : Composed reach (skipUnmodelled op) :=
  .bind .activation fun _ => .emit nofun

/-! ### Channels -/

theorem composed_channelOf (x : Operand) : Composed reach (channelOf x) :=
  .bind (composed_instanceOf x) fun _ => .bind .activation fun _ => .pure _

theorem composed_makeChan (may : reach.talk) (value : String) (ty : Ty) (capacity : Operand) :
    Composed reach (makeChan value ty capacity) := by
  unfold makeChan
  split
  · exact .bind .activation fun _ => .failWith _ nofun
  · exact .bind (composed_bindFresh value ty) fun _ => .addStatement may trivial

theorem composed_send (may : reach.talk) (chan : Operand) : Composed reach (send chan) :=
  .bind (composed_channelOf chan) fun _ => .addStatement may trivial

theorem composed_close (may : reach.talk) (chan : Operand) : Composed reach (close chan) :=
  .bind (composed_channelOf chan) fun _ => .addStatement may trivial

theorem composed_recv (may : reach.talk) (value : String) (ty : Ty) (chan : Operand) (commaOk : Bool) :
    Composed reach (recv value ty chan commaOk) := by
  refine .bind (composed_channelOf chan) fun _ =>
    .bind (.addStatement may trivial) fun _ => ?_
  split
  · exact composed_bindWithFlag value ty none
  · exact composed_bindFresh value ty

theorem elementary_readyCases (cases : List SelectCase) (chans : List String) (blocking : Bool) :
    (Statement.select (if blocking then cases.zipWith readyCase chans else cases.zipWith readyCase
      chans ++ [[.tau]])).Elementary := by
  have ready : (Statement.select (cases.zipWith readyCase chans)).Elementary := by
    intro body member
    obtain ⟨i, found⟩ := List.mem_iff_getElem?.1 member
    obtain ⟨c, chan, -, -, rfl⟩ := List.getElem?_zipWith_eq_some.1 found
    cases c with
    | send => exact .inl ⟨chan, rfl⟩
    | recv => exact .inr (.inl ⟨chan, rfl⟩)
  cases blocking with
  | true => exact ready
  | false => exact List.forall_mem_append.2 ⟨ready, List.forall_mem_singleton.2 (.inr (.inr rfl))⟩

theorem composed_select (may : reach.sites) (talk : reach.talk) (types : TypeTable) (value : String)
    (ty : Ty) (blocking : Bool)
    (cases : List SelectCase) : Composed reach (select types value ty blocking cases) :=
  .bind (.mapM (fun c => composed_channelOf c.chan) cases) fun chans =>
    .bind (.addStatement talk (elementary_readyCases cases chans blocking)) fun _ =>
      .bind (composed_fresh value ty) fun tuple =>
    .bind (.modifyActivation (fun _ => rfl) (fun _ => rfl) (.inl may) (.inr fun _ => ⟨rfl, rfl⟩))
      fun _ => composed_bindValue value tuple

theorem composed_tuplePart (value : String) (ty : Ty) (tuple : Instance) (index : Nat) :
    Composed reach (tuplePart value ty tuple index) := by
  refine .bind .activation fun a => ?_
  split
  · exact .pure _
  · dsimp only
    split
    · exact .bind (composed_values fun _ => ⟨rfl, rfl, rfl, rfl, rfl⟩) fun _ => .pure _
    · exact .pure _

theorem composed_noteChosen (may : reach.sites) (tuple part : Instance) : Composed reach (noteChosen tuple part) := by
  refine .bind .activation fun a => ?_
  split
  · exact .bind (.emit nofun) fun _ => .modifyActivation (fun _ => rfl) (fun _ => rfl) (.inl may)
      (.inr fun _ => ⟨rfl, rfl⟩)
  · exact .pure ()

theorem composed_noteFlag (tuple part : Instance) : Composed reach (noteFlag tuple part) := by
  refine .bind .activation fun a => ?_
  split
  · exact composed_values fun _ => ⟨rfl, rfl, rfl, rfl, rfl⟩
  · exact .pure ()

theorem composed_notePart {index : Nat} (may : index = 0 → reach.sites) (tuple part : Instance) :
    Composed reach (notePart tuple part index) := by
  unfold notePart
  split
  · exact composed_noteChosen (may rfl) tuple part
  · exact composed_noteFlag tuple part
  · exact .pure ()

theorem composed_extract {index : Nat} (may : index = 0 → reach.sites) (value : String) (ty : Ty) (x : Operand) :
    Composed reach (extract value ty x index) :=
  .bind (composed_instanceOf x) fun tuple => .bind (composed_tuplePart value ty tuple index) fun part =>
    .bind (composed_notePart may tuple part) fun _ => composed_bindValue value part

/-! ### Composite values -/

theorem composed_readSlot (id : ContainerId) (slot : Slot) (owner : Instance) :
    Composed reach (readSlot id slot owner) := by
  refine .bind .context fun c => ?_
  split
  · exact .pure _
  · exact .failWith _ nofun

theorem composed_slotType (types : TypeTable) (owner : Instance) (field : Option Nat) (ty : Ty) :
    Composed reach (slotType types owner field ty) := by
  unfold slotType
  split
  · exact .pure _
  · split
    · exact .pure _
    · exact .endless _

theorem composed_typeAssert (value : String) (ty : Ty) (x : Operand) (commaOk : Bool) :
    Composed reach (typeAssert value ty x commaOk) := by
  refine .bind (composed_instanceOf x) fun v => ?_
  split
  · exact composed_bindWithFlag value ty (some v)
  · exact composed_bindValue value v

theorem composed_makeClosure (value : String) (ty : Ty) (func : String) (bindings : List Operand) :
    Composed reach (makeClosure value ty func bindings) :=
  .bind (.mapM composed_instanceOf bindings) fun _ => .bind (composed_fresh value ty) fun i =>
    .bind (.emit nofun) fun _ =>
      .bind (.modifyContext (fun _ => rfl) (fun _ _ => Nat.le_refl _) (.inr fun _ => ⟨rfl, rfl⟩))
      fun _ => composed_bindValue value i

section Storage

variable (stores : reach.storage)

include stores

theorem composed_allocate (shape : Shape) : Composed reach (allocate shape) := by
  refine .bind .context fun c => ?_
  split
  · exact .bind (.modifyContext (fun _ => rfl) (fun _ _ => Nat.le_refl _) (.inl stores)) fun _ => .pure _
  · exact .pure _

theorem composed_addToHeap (i : Instance) (id : ContainerId) : Composed reach (addToHeap i id) :=
  .modifyContext (fun _ => rfl) (fun _ _ => Nat.le_refl _) (.inl stores)

theorem composed_addToScope (i : Instance) (id : ContainerId) : Composed reach (addToScope i id) :=
  .modifyActivation (fun _ => rfl) (fun _ => rfl) (.inr fun _ => rfl) (.inl stores)

theorem composed_writeSlot (id : ContainerId) (slot : Slot) (v owner : Instance) :
    Composed reach (writeSlot id slot v owner) := by
  refine .bind .context fun c => .bind (composed_emit? (by simp)) fun _ => ?_
  split
  · exact .bind (.modifyContext (fun _ => rfl) (fun _ _ => Nat.le_refl _) (.inl stores)) fun _ => .pure _
  · exact .failWith _ nofun

theorem composed_demandContainer (types : TypeTable) (owner : Instance) (expected : SlotKind) :
    Composed reach (demandContainer types owner expected) := by
  refine .bind (composed_containerOf? owner) fun found => ?_
  split
  · exact .pure _
  · dsimp only
    split
    · exact .failWith _ nofun
    · refine .bind (composed_allocate stores _) fun made => ?_
      split
      · exact .failWith _ nofun
      · refine .bind (.emit nofun) fun _ => ?_
        split
        · exact .bind (composed_addToHeap stores _ _) fun _ => .pure _
        · exact .bind (composed_addToScope stores _ _) fun _ => .pure _

theorem composed_contentsOf (types : TypeTable) (id : ContainerId) (slot : Slot) (owner : Instance) (value : String)
    (ty : Ty) (field : Option Nat) : Composed reach (contentsOf types id slot owner value ty field) := by
  refine .bind (composed_readSlot id slot owner) fun found => ?_
  split
  · exact .pure _
  · exact .bind (composed_slotType types owner field ty) fun _ => .bind (composed_fresh value _) fun v =>
      .bind (composed_writeSlot stores id slot v owner) fun _ => .pure _

theorem composed_alloc (types : TypeTable) (value : String) (ty : Ty) (scope : AllocScope) :
    Composed reach (alloc types value ty scope) := by
  refine .bind (composed_fresh value ty) fun i => .bind (composed_allocate stores _) fun made => ?_
  split
  · cases scope with
    | heap => exact .bind (composed_addToHeap stores i _) fun _ => composed_bindValue value i
    | frame => exact .bind (composed_addToScope stores i _) fun _ => composed_bindValue value i
  · exact composed_bindValue value i

theorem composed_makeContainer (types : TypeTable) (value : String) (ty : Ty) :
    Composed reach (makeContainer types value ty) := by
  refine .bind (composed_fresh value ty) fun i => .bind (composed_allocate stores _) fun made => ?_
  split
  · exact .bind (composed_addToScope stores i _) fun _ => composed_bindValue value i
  · exact composed_bindValue value i

theorem composed_noteAddress (value : String) (id : ContainerId) (slot : Slot) :
    Composed reach (noteAddress value id slot) :=
  .modifyActivation (fun _ => rfl) (fun _ => rfl) (.inr fun _ => rfl) (.inl stores)

section

variable (types : TypeTable) (value : String) (ty : Ty)
include types value ty

theorem composed_bindSlot (owner : Instance) (slot : Slot)
    (field : Option Nat) (address : Bool) : Composed reach (bindSlot types value ty owner slot field address) := by
  refine .bind (composed_demandContainer stores types owner slot.kind) fun id =>
    .bind (composed_contentsOf stores types id slot owner value ty field) fun v => ?_
  split
  · exact .bind (composed_noteAddress stores value id slot) fun _ => composed_bindValue value v
  · exact composed_bindValue value v

theorem composed_field (x : Operand) (i : Nat) (address : Bool) : Composed reach (field types value ty x i address) :=
  .bind (composed_instanceOf x) fun owner => composed_bindSlot stores types value ty owner (.field i) (some i) address

theorem composed_index (x i : Operand) (address : Bool) : Composed reach (index types value ty x i address) := by
  refine .bind (composed_instanceOf x) fun owner => ?_
  split
  · exact composed_bindFresh value ty
  · exact .bind (composed_instanceOf i) fun i => composed_bindSlot stores types value ty owner (.index i) none address

theorem composed_lookup (map key : Operand) (commaOk : Bool) :
    Composed reach (lookup types value ty map key commaOk) := by
  refine .bind (composed_instanceOf map) fun owner => ?_
  split
  · exact composed_bindFresh value ty
  · refine .bind (composed_instanceOf key) fun key =>
      .bind (composed_demandContainer stores types owner .map) fun id =>
      .bind (composed_contentsOf stores types id (.key key) owner value ty none) fun v => ?_
    split
    · exact composed_bindWithFlag value ty (some v)
    · exact composed_bindValue value v

end

theorem composed_mapUpdate (types : TypeTable) (map key value : Operand) :
    Composed reach (mapUpdate types map key value) :=
  .bind (composed_instanceOf map) fun owner => .bind (composed_instanceOf key) fun key =>
    .bind (composed_instanceOf value) fun v => .bind (composed_demandContainer stores types owner .map) fun id =>
    .bind (composed_writeSlot stores id (.key key) v owner) fun _ => .pure ()

theorem composed_shareContainer (owner i : Instance) : Composed reach (shareContainer owner i) := by
  refine .bind .activation fun a => .bind .context fun c => ?_
  split
  · exact composed_addToScope stores i _
  · exact composed_addToHeap stores i _
  · exact .pure ()

theorem composed_slice (types : TypeTable) (value : String) (ty : Ty) (x : Operand) :
    Composed reach (slice types value ty x) := by
  refine .bind (composed_instanceOf x) fun owner => .bind (composed_fresh value ty) fun i => ?_
  split
  · exact .bind (composed_shareContainer stores owner i) fun _ => composed_bindValue value i
  · exact composed_bindValue value i

theorem composed_deref (types : TypeTable) (value : String) (ty : Ty) (x : Operand) :
    Composed reach (deref types value ty x) := by
  refine .bind (.bind .activation fun _ => .pure _) fun found => ?_
  split
  · exact .bind (composed_instanceOf x) fun pointer =>
      .bind (composed_contentsOf stores types _ _ pointer value ty none) fun v => composed_bindValue value v
  · exact composed_bindOperand value x

theorem composed_replaceAliases (old new : Instance) : Composed reach (replaceAliases old new) := by
  refine .bind .context fun c => .bind .activation fun a =>
    .bind (.modifyContext (fun _ => rfl) (fun _ _ => Nat.le_refl _) (.inl stores)) fun _ => ?_
  split
  · exact .emit nofun
  · exact .pure ()

theorem composed_replaceComposite (old : Option Instance) (shape : Option Shape) (v : Instance) :
    Composed reach (replaceComposite old shape v) := by
  unfold replaceComposite
  split
  · split
    · exact composed_replaceAliases stores _ v
    · exact .pure ()
  · exact .pure ()

theorem composed_storeGlobal (program : Program) (name : String) (v : Instance) :
    Composed reach (storeGlobal program name v) := by
  have rest : Composed reach (do
      let old := (← context).globals.get? name
      modifyContext fun c => { c with globals := c.globals.insert name v }
      replaceComposite old ((program.global? name).map fun g => program.types.shape g.ty) v) :=
    .bind .context fun _ =>
      .bind (.modifyContext (fun _ => rfl) (fun _ _ => Nat.le_refl _) (.inr fun _ => ⟨rfl, rfl⟩))
      fun _ => composed_replaceComposite stores _ _ v
  refine .bind .activation fun a => ?_
  split
  · exact .bind (composed_addToHeap stores v _) fun _ => rest
  · exact rest

theorem composed_storeLocal (types : TypeTable) (name : String) (v : Instance) :
    Composed reach (storeLocal types name v) := by
  refine .bind .activation fun a => ?_
  have rest (old : Option Instance) : Composed reach (do
      bindValue name v
      replaceComposite old ((a.func.valueType? name).map types.shapeBehind) v) :=
    .bind (composed_bindValue name v) fun _ => composed_replaceComposite stores old _ v
  dsimp only
  split
  · exact .bind (composed_instanceOf (.var name)) fun pointer =>
      .bind (composed_writeSlot stores _ _ v pointer) fun old => rest old
  · exact rest (a.resolve? name)

theorem composed_store (program : Program) (addr value : Operand) : Composed reach (store program addr value) := by
  refine .bind (composed_instanceOf value) fun v => ?_
  split
  · exact composed_storeGlobal stores program _ v
  · exact composed_storeLocal stores program.types _ v
  · exact .bind .activation fun _ => .emit nofun

theorem composed_takeStorage (callee : Activation) (returned : List (Option Instance)) :
    Composed reach (takeStorage callee returned) := by
  induction returned with
  | nil => exact .pure ()
  | cons r rest ih =>
    unfold takeStorage
    split
    · exact .bind (.modifyActivation (fun _ => rfl) (fun _ => rfl) (.inr fun _ => rfl) (.inl stores)) fun _ => ih
    · exact ih

theorem composed_takeResults (types : TypeTable) (callee : Activation) (value : String) (ty : Ty) :
    Composed reach (takeResults types callee value ty) := by
  refine .bind (composed_takeStorage stores callee callee.returned) fun _ => .bind (composed_fresh value ty) fun i => ?_
  split
  · exact .bind (.modifyActivation (fun _ => rfl) (fun _ => rfl) (.inr fun _ => rfl) (.inl stores))
      fun _ => composed_bindValue value i
  · exact composed_bindValue value _

theorem composed_takeResult (types : TypeTable) (callee : Activation) (result : Result) :
    Composed reach (takeResult types callee result) := by
  cases result with
  | none => exact .pure ()
  | some named => exact composed_takeResults stores types callee named.1 named.2

end Storage

/-! ### Merges, calls and branches up to the point where they leave the block -/

theorem composed_anticipate (x : Operand) : Composed reach (anticipate x) := by
  refine .bind .activation fun a => ?_
  dsimp only
  split
  · split
    all_goals first
      | exact .failWith _ nofun
      | exact .bind (composed_fresh _ _) fun i => .bind (.emit nofun) fun _ =>
          .bind (composed_bindValue _ i) fun _ => .pure i
  · exact .failWith _ nofun

theorem composed_takeEdge (value : String) (edge : PhiEdge) : Composed reach (takeEdge value edge) := by
  refine .bind (composed_instanceOf? edge.value) fun found => ?_
  split
  · exact composed_bindValue value _
  · exact .bind (composed_anticipate edge.value) fun i => composed_bindValue value i

theorem composed_phi (may : reach.loop) (arrival : Arrival) (value : String) (edges : List PhiEdge) :
    Composed reach (phi arrival value edges) := by
  refine .bind .activation fun a => ?_
  split
  · exact .failWith _ nofun
  · next edge _ =>
    dsimp only
    split
    · refine .bind ?_ fun _ => .bind .activation fun _ => composed_bindValue value _
      unfold advanceIndex
      split
      · exact .changeLoop may _ _
      · exact .pure ()
    · refine .bind (.bind .activation fun a => ?_) fun _ => composed_takeEdge value edge
      split
      · split
        · exact .changeLoop may _ _
        · exact .pure ()
      · exact .pure ()

theorem composed_binary (may : reach.loop) (maxUnroll : Nat) (arrival : Arrival) (value : String) (ty : Ty) (op : BinOp)
    (x y : Operand) : Composed reach (binary maxUnroll arrival value ty op x y) := by
  refine .bind (.bind .activation fun a => ?_) fun _ => composed_bindFresh value ty
  split
  · exact .changeLoop may _ _
  · exact .pure ()

theorem composed_settleLoop (may : reach.loop) (arrival : Arrival) : Composed reach (settleLoop arrival) := by
  refine .bind .activation fun _ => ?_
  split
  · exact .changeLoop may _ _
  · exact .pure ()

theorem composed_routineNamed (program : Program) (name : String) (captures : List Instance)
    (receiver : Option Instance) : Composed reach (routineNamed program name captures receiver) := by
  unfold routineNamed
  split
  · exact .pure _
  · exact .bind (.emit nofun) fun _ => .pure _

theorem composed_methodTarget (program : Program) (receiver : Operand) (method : String) :
    Composed reach (methodTarget program receiver method) := by
  refine .bind (composed_instanceOf receiver) fun recv => .bind .activation fun a => ?_
  dsimp only
  split
  · exact .bind (.emit nofun) fun _ => .pure _
  · split
    · exact .bind (.emit nofun) fun _ => .pure _
    · split
      · exact .bind (.emit nofun) fun _ => .pure _
      · split
        · exact .bind (.failWith _ nofun) fun _ => composed_routineNamed program _ [] (some recv)
        · exact composed_routineNamed program _ [] (some recv)

theorem composed_target (program : Program) (callee : Callee) : Composed reach (target program callee) := by
  cases callee with
  | static func => exact composed_routineNamed program func [] none
  | builtin name => exact .pure _
  | value x =>
    refine .bind (composed_instanceOf? x) fun i => .bind .context fun c => ?_
    split
    · exact composed_routineNamed program _ _ none
    · exact .bind .activation fun _ => .bind (.emit nofun) fun _ => .pure _
  | invoke receiver method => exact composed_methodTarget program receiver method

theorem composed_hand (types : TypeTable) (caller callee : Activation) (param : Param) (v : Instance) :
    Composed reach (hand types caller callee param v) :=
  .bind (.emit nofun) fun _ => .pure _

theorem composed_handAll (types : TypeTable) (caller callee : Activation)
    (handed : List (Param × Option Instance)) : Composed reach (handAll types caller callee handed) := by
  induction handed generalizing callee with
  | nil => exact .pure _
  | cons entry rest ih =>
    match entry with
    | (param, some v) => exact .bind (composed_hand types caller callee param v) ih
    | (param, none) => exact .bind (.emit nofun) fun _ => ih callee

theorem composed_bindForeign (types : TypeTable) (routine value : String) (ty : Ty) :
    Composed reach (bindForeign types routine value ty) := by
  refine .bind (composed_numberActivation routine) fun n => ?_
  dsimp only
  split
  · exact .bind (composed_values fun _ => ⟨rfl, rfl, rfl, rfl, rfl⟩) fun _ => composed_bindValue value _
  · exact composed_bindValue value _

theorem composed_bindFreshResult (result : Result) : Composed reach (bindFreshResult result) := by
  cases result with
  | none => exact .pure ()
  | some named => exact composed_bindFresh named.1 named.2

theorem composed_bindForeignResult (types : TypeTable) (routine : String) (result : Result) :
    Composed reach (bindForeignResult types routine result) := by
  cases result with
  | none => exact .pure ()
  | some named => exact composed_bindForeign types routine named.1 named.2

theorem composed_callBuiltin (may : reach.talk) (name : String) (args : List Operand) (result : Result) :
    Composed reach (callBuiltin name args result) := by
  unfold callBuiltin
  split
  · exact .bind .activation fun _ => .emit nofun
  · exact composed_close may _
  · refine .bind (composed_instanceOf? _) fun found => ?_
    split
    · exact composed_bindValue _ _
    · exact composed_bindFresh _ _
  · exact .pure ()
  · exact composed_bindFreshResult _

theorem composed_noteCommaOk (cond : Operand) : Composed reach (noteCommaOk cond) := by
  refine .bind .activation fun a => ?_
  split
  · split
    · exact .emit nofun
    · exact .pure ()
  · exact .pure ()

end Steps

/-! ### All of them -/

/-- Defining a value stays inside the block, unless the value is a phi, a binary operation or a call. -/
theorem composed_define (env : Env) (arrival : Arrival) (value : String) (ty : Ty) (op : ValueOp) :
    (∃ step, Composed ⟨op.OnSelects, True, False, op.Talks⟩ step ∧
      ∀ walk, define env walk arrival value ty op = step) ∨
      (∃ edges, op = .phi edges) ∨ (∃ sign x y, op = .binary sign x y) ∨ ∃ c, op = .call c := by
  cases op with
  | phi edges => exact .inr (.inl ⟨edges, rfl⟩)
  | binary sign x y => exact .inr (.inr (.inl ⟨sign, x, y, rfl⟩))
  | call c => exact .inr (.inr (.inr ⟨c, rfl⟩))
  | alloc scope => exact .inl ⟨_, composed_alloc trivial _ value ty scope, fun _ => rfl⟩
  | recv chan commaOk => exact .inl ⟨_, composed_recv trivial value ty chan commaOk, fun _ => rfl⟩
  | deref x => exact .inl ⟨_, composed_deref trivial _ value ty x, fun _ => rfl⟩
  | unary sign x => exact .inl ⟨_, composed_bindFresh value ty, fun _ => rfl⟩
  | convert conversion x => exact .inl ⟨_, composed_bindOperand value x, fun _ => rfl⟩
  | extract tuple i => exact .inl ⟨_, composed_extract id value ty tuple, fun _ => rfl⟩
  | field x i => exact .inl ⟨_, composed_field trivial _ value ty x i false, fun _ => rfl⟩
  | fieldAddr x i => exact .inl ⟨_, composed_field trivial _ value ty x i true, fun _ => rfl⟩
  | index x i => exact .inl ⟨_, composed_index trivial _ value ty x i false, fun _ => rfl⟩
  | indexAddr x i => exact .inl ⟨_, composed_index trivial _ value ty x i true, fun _ => rfl⟩
  | lookup map key commaOk => exact .inl ⟨_, composed_lookup trivial _ value ty map key commaOk, fun _ => rfl⟩
  | makeChan capacity => exact .inl ⟨_, composed_makeChan trivial value ty capacity, fun _ => rfl⟩
  | makeClosure func bindings => exact .inl ⟨_, composed_makeClosure value ty func bindings, fun _ => rfl⟩
  | makeMap => exact .inl ⟨_, composed_makeContainer trivial _ value ty, fun _ => rfl⟩
  | makeSlice length => exact .inl ⟨_, composed_makeContainer trivial _ value ty, fun _ => rfl⟩
  | next iter => exact .inl ⟨_, composed_bindFresh value ty, fun _ => rfl⟩
  | range x => exact .inl ⟨_, composed_bindFresh value ty, fun _ => rfl⟩
  | select blocking cases => exact .inl ⟨_, composed_select trivial trivial _ value ty blocking cases, fun _ => rfl⟩
  | slice x => exact .inl ⟨_, composed_slice trivial _ value ty x, fun _ => rfl⟩
  | typeAssert x commaOk => exact .inl ⟨_, composed_typeAssert value ty x commaOk, fun _ => rfl⟩
  | unmodelled op args => exact .inl ⟨_, composed_skipUnmodelled op, fun _ => rfl⟩

/-- The effects that leave the block, or change more than its values. -/
theorem composed_perform (env : Env) (arrival : Arrival) (effect : Effect) :
    (∃ step, Composed ⟨False, True, False, effect.Talks⟩ step ∧
      ∀ walk, perform env walk arrival effect = step) ∨ (∃ dst, effect = .jump dst) ∨
      (∃ cond onTrue onFalse, effect = .branch cond onTrue onFalse) ∨ (∃ c, effect = .go c) ∨
      (∃ c, effect = .defer c) ∨ (∃ c, effect = .call c) ∨ effect = .runDefers := by
  cases effect with
  | jump dst => exact .inr (.inl ⟨dst, rfl⟩)
  | branch cond onTrue onFalse => exact .inr (.inr (.inl ⟨cond, onTrue, onFalse, rfl⟩))
  | go c => exact .inr (.inr (.inr (.inl ⟨c, rfl⟩)))
  | defer c => exact .inr (.inr (.inr (.inr (.inl ⟨c, rfl⟩))))
  | call c => exact .inr (.inr (.inr (.inr (.inr (.inl ⟨c, rfl⟩)))))
  | runDefers => exact .inr (.inr (.inr (.inr (.inr (.inr rfl)))))
  | ret results => exact .inl ⟨_, composed_returnValues 0 results, fun _ => rfl⟩
  | send chan value => exact .inl ⟨_, composed_send trivial chan, fun _ => rfl⟩
  | store addr value => exact .inl ⟨_, composed_store trivial _ addr value, fun _ => rfl⟩
  | mapUpdate map key value => exact .inl ⟨_, composed_mapUpdate trivial _ map key value, fun _ => rfl⟩
  | panic x => exact .inl ⟨_, .pure (), fun _ => rfl⟩
  | unmodelled op args => exact .inl ⟨_, composed_skipUnmodelled op, fun _ => rfl⟩

end Analysis

end ChanFlow
