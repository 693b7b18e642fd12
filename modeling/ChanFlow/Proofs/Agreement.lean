import ChanFlow.Proofs.Guide
import ChanFlow.Proofs.Twins

/-!
Steps that agree.

Two steps `Agree` if they take twins to twins, whenever both of them come to an end. Along with that it is noted
which locals and globals of the first machine a step may touch; all others keep their instances.

There is one lemma for each step on values, channels and composites. Where both machines are the same, they say that
every instance a machine holds has been issued before.
-/
namespace ChanFlow.Analysis

open Ssa Protocol

variable {g g' : Activation → Activation} {value name : String} {i i' part part' v v' : Instance} {c c' : Context}

variable {T : Twinning}

/-- The locals and globals that a step may change. -/
structure Touch where
  names : String → Prop
  globals : String → Prop

def Touch.any : Touch := ⟨fun _ => True, fun _ => True⟩

/-- What is not touched keeps its instance, if it has one. -/
structure Touch.Spares (touch : Touch) (m m' : Machine) : Prop where
  locals : ∀ {x i}, ¬ touch.names x → m.act.resolve? x = some i → m'.act.resolve? x = some i
  globals : ∀ {name}, ¬ touch.globals name → m'.context.globals.get? name = m.context.globals.get? name

/-- What an activation keeps all along. -/
def Activation.frame (a : Activation) : Activation :=
  { func := a.func, seq := a.seq, callers := a.callers, routine := { a.routine with stmts := [] }, names := a.names }

/-- Two machines before and after steps of one activation each. -/
structure Touch.Keeps (touch : Touch) (m m' m₁ m₁' : Machine) : Prop extends touch.Spares m m₁ where
  frame : m₁.act.frame = m.act.frame
  frame' : m₁'.act.frame = m'.act.frame
  counts : ∀ func, m.context.count func ≤ m₁.context.count func

theorem Touch.Keeps.trans {touch : Touch} {m m' m₁ m₁' m₂ m₂' : Machine} (one : touch.Keeps m m' m₁ m₁')
    (two : touch.Keeps m₁ m₁' m₂ m₂') : touch.Keeps m m' m₂ m₂' where
  frame := two.frame.trans one.frame
  frame' := two.frame'.trans one.frame'
  counts func := Nat.le_trans (one.counts func) (two.counts func)
  locals untouched held := two.locals untouched (one.locals untouched held)
  globals untouched := (two.globals untouched).trans (one.globals untouched)

theorem Touch.Keeps.refl (touch : Touch) (m m' : Machine) : touch.Keeps m m' m m' :=
  ⟨⟨fun _ => id, fun _ => rfl⟩, rfl, rfl, fun _ => Nat.le_refl _⟩

/-- From these machines the steps lead to twins, if both end. -/
def AgreeAt (T : Twinning) (view : View) (touch : Touch) (m m' : Machine) {α β : Type} (x : Run α) (x' : Run β)
    (V : α → β → Prop) : Prop :=
  ∀ a m₁ a' m₁', x m = .ok a m₁ → x' m' = .ok a' m₁' → Twins T view m₁ m₁' ∧
    touch.Keeps m m' m₁ m₁' ∧ V a a'

/-- The steps take twins to twins, if both end. -/
def Agree (T : Twinning) (view : View) (touch : Touch) {α β : Type} (x : Run α) (x' : Run β)
    (V : α → β → Prop) : Prop :=
  ∀ m m', Twins T view m m' → AgreeAt T view touch m m' x x' V

/-- The step takes twins to twins with the same result, if both end. -/
abbrev Concurs (T : Twinning) (view : View) (touch : Touch) {α : Type} (x : Run α) : Prop :=
  Agree T view touch x x Eq

variable {view : View} {touch : Touch} {m m' : Machine}

/-! ### Rules -/

section Rules

variable {α β γ δ : Type} {x : Run α} {x' : Run β} {V : α → β → Prop} {f : α → Run γ}
  {f' : β → Run δ} {W : γ → δ → Prop}

theorem AgreeAt.bindAt (first : AgreeAt T view touch m m' x x' V)
    (next : ∀ a m₁ a' m₁', x m = .ok a m₁ → x' m' = .ok a' m₁' → Twins T view m₁ m₁' → V a a' →
      AgreeAt T view touch m₁ m₁' (f a) (f' a') W) : AgreeAt T view touch m m' (x >>= f) (x' >>= f') W := by
  intro b m₂ b' m₂' ends ends'
  rw [bind_apply] at ends ends'
  cases one : x m with
  | error h m₁ => exact nomatch one ▸ ends
  | ok a m₁ =>
    cases one' : x' m' with
    | error h m₁' => exact nomatch one' ▸ ends'
    | ok a' m₁' =>
      rw [one] at ends
      rw [one'] at ends'
      obtain ⟨twins, spares, related⟩ := first a m₁ a' m₁' one one'
      obtain ⟨twins, spares', related⟩ := next a m₁ a' m₁' one one' twins related b m₂ b' m₂' ends ends'
      exact ⟨twins, spares.trans spares', related⟩

theorem AgreeAt.bind (first : AgreeAt T view touch m m' x x' V)
    (next : ∀ a a', V a a' → Agree T view touch (f a) (f' a') W) :
    AgreeAt T view touch m m' (x >>= f) (x' >>= f') W :=
  first.bindAt fun a m₁ a' m₁' _ _ twins related => next a a' related m₁ m₁' twins

namespace Agree

theorem bind (first : Agree T view touch x x' V) (next : ∀ a a', V a a' → Agree T view touch (f a) (f' a') W) :
    Agree T view touch (x >>= f) (x' >>= f') W := fun m m' twins => (first m m' twins).bind next

theorem pure {a : α} {b : β} (related : V a b) : Agree T view touch (pure a) (pure b) V := by
  rintro m m' twins _ _ _ _ ⟨⟩ ⟨⟩
  exact ⟨twins, .refl touch m m', related⟩

theorem done : Agree T view touch (Pure.pure ()) (Pure.pure ()) Eq := .pure rfl

/-- A step that fails agrees with every other. -/
theorem failWith (cause : Cause) : Agree T view touch (Analysis.failWith cause : Run α) x' V :=
  fun _ _ _ _ _ _ _ ends => nomatch ends

theorem endless (ty : Ty) : Agree T view touch (throw (.endless ty) : Run α) x' V :=
  fun _ _ _ _ _ _ _ ends => nomatch ends

theorem activation : Agree T view touch activation activation (ActivationTwins T view) := by
  rintro m m' twins _ _ _ _ ⟨⟩ ⟨⟩
  exact ⟨twins, .refl touch m m', twins.act⟩

theorem context : Agree T view touch context context (ContextTwins T) := by
  rintro m m' twins _ _ _ _ ⟨⟩ ⟨⟩
  exact ⟨twins, .refl touch m m', twins.context⟩

/-- Names that may be seen are names of functions. -/
theorem listing {name : String} (named : view.listed name) (step : T.listed name → Agree T view touch x x' V) :
    Agree T view touch x x' V := fun m m' twins => step (twins.act.listed name named) m m' twins

theorem modifyActivation (keeps : ∀ a a', ActivationTwins T view a a' → ActivationTwins T view (g a) (g' a'))
    (frame : ∀ a, (g a).frame = a.frame) (frame' : ∀ a, (g' a).frame = a.frame)
    (spares : ∀ a x i, ¬ touch.names x → a.resolve? x = some i → (g a).resolve? x = some i) :
    Agree T view touch (modifyActivation g) (Analysis.modifyActivation g') Eq := by
  rintro m m' twins _ _ _ _ ⟨⟩ ⟨⟩
  exact ⟨⟨twins.context, keeps _ _ twins.act⟩, 
    ⟨⟨spares m.act _ _, fun _ => rfl⟩, frame m.act, frame' m'.act, fun _ => Nat.le_refl _⟩, rfl⟩

theorem modifyContext {g g' : Context → Context}
    (keeps : ∀ c c', ContextTwins T c c' → ContextTwins T (g c) (g' c'))
    (counters : ∀ c, (g c).counters = c.counters)
    (spares : ∀ c name, ¬ touch.globals name → (g c).globals.get? name = c.globals.get? name) :
    Agree T view touch (modifyContext g) (Analysis.modifyContext g') Eq := by
  rintro m m' twins _ _ _ _ ⟨⟩ ⟨⟩
  have counts (func : String) : m.context.count func ≤ (g m.context).count func :=
    Nat.le_of_eq (by rw [Context.count, Context.count, counters])
  exact ⟨⟨keeps _ _ twins.context, twins.act⟩, ⟨⟨fun _ => id, spares m.context _⟩, rfl, rfl, counts⟩,
    rfl⟩

/-- The locals are left as they are. -/
theorem onActivation
    (same : ∀ a, (g a).frame = a.frame ∧ (g a).locals = a.locals ∧ (g' a).frame = a.frame)
    (keeps : ∀ a a', ActivationTwins T view a a' → ActivationTwins T view (g a) (g' a')) :
    Agree T view touch (Analysis.modifyActivation g) (Analysis.modifyActivation g') Eq :=
  .modifyActivation keeps (fun a => (same a).1) (fun a => (same a).2.2)
    fun a x _ _ held => (congrArg (·.get? x) (same a).2.1).trans held

/-- The globals are left as they are. -/
theorem onContext {g g' : Context → Context} (same : ∀ c, (g c).counters = c.counters ∧ (g c).globals = c.globals)
    (keeps : ∀ c c', ContextTwins T c c' → ContextTwins T (g c) (g' c')) :
    Agree T view touch (Analysis.modifyContext g) (Analysis.modifyContext g') Eq :=
  .modifyContext keeps (fun c => (same c).1) fun c name _ => congrArg (·.get? name) (same c).2

theorem emit (e e' : Event) : Agree T view touch (emit e) (Analysis.emit e') Eq := by
  rintro m m' twins _ _ _ _ ⟨⟩ ⟨⟩
  exact ⟨{ twins with }, ⟨⟨fun _ => id, fun _ => rfl⟩, rfl, rfl, fun _ => Nat.le_refl _⟩, rfl⟩

/-- What is reported does not count. -/
theorem emit? (e e' : Option Event) : Agree T view touch (emit? e) (Analysis.emit? e') Eq := by
  rintro m m' twins _ _ _ _ ends ends'
  cases e <;> cases e' <;> cases ends <;> cases ends' <;>
    exact ⟨{ twins with }, ⟨⟨fun _ => id, fun _ => rfl⟩, rfl, rfl, fun _ => Nat.le_refl _⟩, rfl⟩

theorem spend (point point' : Point) : Agree T view touch (spend point) (Analysis.spend point') Eq := by
  rintro m m' twins _ _ _ _ ends ends'
  unfold Analysis.spend at ends ends'
  split at ends
  · exact nomatch ends
  split at ends'
  · exact nomatch ends'
  cases ends
  cases ends'
  exact ⟨{ twins with }, ⟨⟨fun _ => id, fun _ => rfl⟩, rfl, rfl, fun _ => Nat.le_refl _⟩, rfl⟩

theorem mapM {xs : List γ} {g : γ → Run α} {g' : γ → Run β}
    (each : ∀ c ∈ xs, Agree T view touch (g c) (g' c) V) :
    Agree T view touch (xs.mapM g) (xs.mapM g') (List.Forall₂ V) := by
  induction xs with
  | nil => exact .pure .nil
  | cons c rest ih =>
    rw [List.forall_mem_cons] at each
    rw [List.mapM_cons, List.mapM_cons]
    exact .bind each.1 fun _ _ here => .bind (ih each.2) fun _ _ later => .pure (.cons here later)

end Agree

end Rules

/-! ### Operands and bindings -/

/-- A value that both machines see and that the step may touch. -/
structure Binds (view : View) (touch : Touch) (value : String) : Prop where
  shown : ¬ view.hidden value
  touched : touch.names value

namespace ActivationTwins

variable {a a' : Activation} (twins : ActivationTwins T view a a')
include twins

theorem fresh (shown : ¬ view.hidden value) (ty : Ty) : T.inst (a.fresh value ty) (a'.fresh value ty) := by
  unfold Activation.fresh
  rw [twins.loops]
  exact twins.own value _ ty shown

theorem channelName (inst : T.inst i i') : a'.channelName i' = a.channelName i := by
  rw [Activation.channelName_eq, Activation.channelName_eq, T.name inst]
  have named := twins.names.get? inst
  generalize a.names.get? i = name, a'.names.get? i' = name' at named
  cases named with
  | none => rfl
  | some same => rw [same]

theorem bind (value : String) (inst : T.inst i i') : ActivationTwins T view (a.bind value i) (a'.bind value i') where
  __ := twins
  locals y shown := by
    unfold Activation.resolve? Activation.bind
    rw [Table.get?_insert, Table.get?_insert]
    split
    · exact .some inst
    · exact twins.locals y shown

theorem setTuple (inst : T.inst i i') {ss ss' : List (Option Instance)} (slots : SlotsTwins T ss ss') :
    ActivationTwins T view { a with tuples := a.tuples.insert i ss } { a' with tuples := a'.tuples.insert i' ss' } where
  __ := twins
  tuples := twins.tuples.insert inst slots

end ActivationTwins

theorem ContextTwins.valueOfFunction (twins : ContextTwins T c c') {func : String} (listed : T.listed func) :
    ContextTwins T (c.valueOfFunction func).2 (c'.valueOfFunction func).2 := by
  have inst := T.program func .func listed
  have known := twins.callables.get? inst
  unfold Context.valueOfFunction
  dsimp only
  generalize c.callables.get? (.ofProgram func .func) = v, c'.callables.get? (.ofProgram func .func) = v' at known
  cases known with
  | some same => exact twins
  | none => exact { twins with callables := twins.callables.insert inst ⟨rfl, listed, .nil⟩ }

theorem Context.kept_valueOfFunction (c : Context) (func : String) :
    (c.valueOfFunction func).2.counters = c.counters ∧ (c.valueOfFunction func).2.globals = c.globals := by
  unfold Context.valueOfFunction
  dsimp only
  split <;> exact ⟨rfl, rfl⟩

section Values

variable {x : Operand} {value : String} {ty : Ty}

theorem agree_instanceOf? (shows : view.Shows x) :
    Agree T view touch (instanceOf? x) (instanceOf? x) (Option.Rel T.inst) := by
  cases x with
  | var name => exact .bind .activation fun _ _ twins => .pure (twins.locals name (shows.var name rfl))
  | global name => exact .bind .context fun _ _ twins => .pure (twins.globals name)
  | func name =>
    refine .listing (shows.func name rfl) fun listed => .bind .context fun _ _ _ => ?_
    exact .bind (.onContext (fun c => c.kept_valueOfFunction name) fun _ _ twins => twins.valueOfFunction listed)
      fun _ _ _ => .pure (.some (T.program name .func listed))
  | const literal => exact .pure (.some (T.const literal))

theorem agree_instanceOf (shows : view.Shows x) : Agree T view touch (instanceOf x) (instanceOf x) T.inst := by
  refine .bind (agree_instanceOf? shows) fun i i' same => ?_
  cases same with
  | some inst => exact .pure inst
  | none => exact .bind .activation fun _ _ _ => .failWith _

theorem agree_bindValue (binds : Binds view touch value) (inst : T.inst i i') :
    Agree T view touch (bindValue value i) (bindValue value i') Eq := by
  refine .bind (.emit _ _) fun _ _ _ => .modifyActivation (fun _ _ twins => twins.bind value inst) (fun _ => rfl)
    (fun _ => rfl) ?_
  intro a y j untouched held
  have other : value ≠ y := fun same => untouched (same ▸ binds.touched)
  show (a.locals.insert value i).get? y = some j
  rw [Table.get?_insert, if_neg other]
  exact held

theorem agree_fresh (shown : ¬ view.hidden value) : Agree T view touch (fresh value ty) (fresh value ty) T.inst :=
  .bind .activation fun _ _ twins => .pure (twins.fresh shown ty)

section

variable (binds : Binds view touch value)
include binds

theorem agree_bindFresh : Concurs T view touch (bindFresh value ty) :=
  .bind (agree_fresh binds.shown) fun _ _ inst => agree_bindValue binds inst

theorem agree_bindOperand (shows : view.Shows x) : Concurs T view touch (bindOperand value x) :=
  .bind (agree_instanceOf shows) fun _ _ inst => agree_bindValue binds inst

theorem agree_bindWithFlag {first first' : Option Instance} (same : Option.Rel T.inst first first') :
    Agree T view touch (bindWithFlag value ty first) (bindWithFlag value ty first') Eq := by
  refine .bind (agree_fresh binds.shown) fun _ _ inst =>
    .bind (.onActivation (fun _ => ⟨rfl, rfl, rfl⟩) fun _ _ twins => ?_)
    fun _ _ _ => agree_bindValue binds inst
  exact { twins.setTuple inst (.cons same (.cons .none .nil)) with }

end

theorem agree_containerOf? (inst : T.inst i i') :
    Agree T view touch (containerOf? i) (containerOf? i') (Option.Rel T.cell) := by
  refine .bind .activation fun a a' twins => .bind .context fun c c' both => .pure ?_
  have here := twins.storage.get? inst
  have there := both.heap.get? inst
  generalize a.storage.get? i = s, a'.storage.get? i' = s' at here
  cases here with
  | none => exact there
  | some cell => exact .some cell

end Values

/-! ### Channels -/

section Routine

variable {r r' : Routine}

theorem RoutineTwins.addStatement (twins : RoutineTwins view r r') (s : Statement) :
    RoutineTwins view (r.addStatement s) (r'.addStatement s) where
  __ := twins
  stmts := by
    unfold Routine.addStatement
    dsimp only
    rw [twins.stmts]
  opened := twins.opened

end Routine

theorem ActivationTwins.setRoutine {a a' : Activation} (twins : ActivationTwins T view a a') {r r' : Routine}
    (routine : RoutineTwins view r r') : ActivationTwins T view (a.setRoutine r) (a'.setRoutine r') where
  __ := twins
  routine := routine

theorem agree_addStatement (s : Statement) : Concurs T view touch (addStatement s) := by
  unfold addStatement modifyRoutine
  exact .onActivation (fun _ => ⟨rfl, rfl, rfl⟩) fun _ _ twins => twins.setRoutine (twins.routine.addStatement s)

section Channels

variable {x : Operand} {value : String} {ty : Ty}

theorem agree_channelOf (shows : view.Shows x) : Concurs T view touch (channelOf x) :=
  .bind (agree_instanceOf shows) fun _ _ inst => .bind .activation fun _ _ twins => .pure (twins.channelName inst).symm

theorem agree_makeChan (binds : Binds view touch value) (capacity : Operand) :
    Concurs T view touch (makeChan value ty capacity) := by
  unfold makeChan
  split
  · exact .bind .activation fun _ _ _ => .failWith _
  · exact .bind (agree_bindFresh binds) fun _ _ _ => agree_addStatement _

/-- The channels of twins have one name. -/
theorem agree_utter (shows : view.Shows x) (s : String → Statement) :
    Concurs T view touch (channelOf x >>= fun name => addStatement (s name)) := by
  refine .bind (agree_channelOf shows) fun name _ same => ?_
  subst same
  exact agree_addStatement _

theorem agree_recv (binds : Binds view touch value) (shows : view.Shows x) (commaOk : Bool) :
    Concurs T view touch (recv value ty x commaOk) := by
  refine .bind (agree_channelOf shows) fun name _ same => ?_
  subst same
  refine .bind (agree_addStatement _) fun _ _ _ => ?_
  split
  · exact agree_bindWithFlag binds .none
  · exact agree_bindFresh binds

theorem agree_select (types : TypeTable) (binds : Binds view touch value) (blocking : Bool) {cases : List SelectCase}
    (shows : ∀ c ∈ cases, view.Shows c.chan) :
    Concurs T view touch (select types value ty blocking cases) := by
  refine .bind (.mapM fun c member => agree_channelOf (shows c member)) fun chans _ same => ?_
  rw [List.forall₂_eq_eq_eq] at same
  subst same
  refine .bind (agree_addStatement _) fun _ _ _ => .bind (agree_fresh binds.shown) fun i i' inst => ?_
  refine .bind (.onActivation (fun _ => ⟨rfl, rfl, rfl⟩) fun a a' twins => ?_) fun _ _ _ =>
    agree_bindValue binds inst
  have slots : SlotsTwins T (List.replicate ((types.underlying ty).tupleLength?.getD 0) none)
      (List.replicate ((types.underlying ty).tupleLength?.getD 0) none) := slotsTwins_replicate _
  have opened := twins.setTuple inst slots
  refine { opened with selects := opened.selects.insert inst ⟨.none, ?_, twins.routine.name, rfl, rfl⟩ }
  show a'.routine.stmts.length - 1 = a.routine.stmts.length - 1
  rw [twins.routine.stmts]

theorem agree_tuplePart (shown : ¬ view.hidden value) (inst : T.inst i i') (index : Nat) :
    Agree T view touch (tuplePart value ty i index) (tuplePart value ty i' index) T.inst := by
  refine .bind .activation fun a a' twins => ?_
  have part := twins.fresh shown ty
  have here := twins.tuples.get? inst
  generalize a.tuples.get? i = parts, a'.tuples.get? i' = parts' at here
  cases here with
  | none => exact .bind .done fun _ _ _ => .pure part
  | @some ss ss' slots =>
    have held := slots.part index
    simp only [Option.bind_some]
    generalize ss[index]?.join = p, ss'[index]?.join = p' at held
    cases held with
    | some inst => exact .pure inst
    | none =>
      refine .bind (.onActivation (fun _ => ⟨rfl, rfl, rfl⟩) fun _ _ twins => ?_) fun _ _ _ => .pure part
      exact twins.setTuple inst (slots.set index part)

theorem agree_noteChosen (inst : T.inst i i') (same : T.inst part part') :
    Agree T view touch (noteChosen i part) (noteChosen i' part') Eq := by
  refine .bind .activation fun a a' twins => ?_
  have here := twins.selects.get? inst
  generalize a.selects.get? i = site, a'.selects.get? i' = site' at here
  cases here with
  | none => exact .done
  | some site =>
    refine .bind (.emit _ _) fun _ _ _ => .onActivation (fun _ => ⟨rfl, rfl, rfl⟩) fun _ _ twins => ?_
    exact { twins with selects := twins.selects.insert inst { site with index := .some same } }

/-- Which of the flags are extracted does not count. -/
theorem agree_noteFlag (i i' part part' : Instance) : Agree T view touch (noteFlag i part) (noteFlag i' part') Eq := by
  refine .bind .activation fun a a' _ => ?_
  have one {i part : Instance} : Agree T view touch (modifyActivation fun a =>
      { a with commaOk := a.commaOk.insert i (some part) }) (Pure.pure ()) Eq := by
    rintro m m' twins _ _ _ _ ⟨⟩ ⟨⟩
    exact ⟨⟨twins.context, { twins.act with }⟩,
      ⟨⟨fun _ => id, fun _ => rfl⟩, rfl, rfl, fun _ => Nat.le_refl _⟩, rfl⟩
  have other {i part : Instance} : Agree T view touch (Pure.pure ()) (modifyActivation fun a =>
      { a with commaOk := a.commaOk.insert i (some part) }) Eq := by
    rintro m m' twins _ _ _ _ ⟨⟩ ⟨⟩
    exact ⟨⟨twins.context, { twins.act with }⟩,
      ⟨⟨fun _ => id, fun _ => rfl⟩, rfl, rfl, fun _ => Nat.le_refl _⟩, rfl⟩
  cases a.commaOk.get? i with
  | none =>
    cases a'.commaOk.get? i' with
    | none => exact .done
    | some _ => exact other
  | some _ =>
    cases a'.commaOk.get? i' with
    | none => exact one
    | some _ => exact .onActivation (fun _ => ⟨rfl, rfl, rfl⟩) fun _ _ twins => { twins with }

theorem agree_notePart (inst : T.inst i i') (same : T.inst part part') (index : Nat) :
    Agree T view touch (notePart i part index) (notePart i' part' index) Eq := by
  unfold notePart
  split
  · exact agree_noteChosen inst same
  · exact agree_noteFlag i i' part part'
  · exact .done

theorem agree_extract (binds : Binds view touch value) (shows : view.Shows x) (index : Nat) :
    Concurs T view touch (extract value ty x index) := by
  refine .bind (agree_instanceOf shows) fun _ _ inst => ?_
  refine .bind (agree_tuplePart binds.shown inst index) fun _ _ part => ?_
  exact .bind (agree_notePart inst part index) fun _ _ _ => agree_bindValue binds part

end Channels

/-! ### Composite values -/

theorem isString_twins (types : TypeTable) (inst : T.inst i i') : isString types i' = isString types i := by
  rw [isString, isString, T.ty inst]

theorem ContextTwins.setArena (twins : ContextTwins T c c') {a a' : Arena} (arena : ArenaTwins T a a') :
    ContextTwins T { c with arena := a } { c' with arena := a' } where
  __ := twins
  arena := arena

section Storage

variable {i i' v v' : Instance} {id id' : ContainerId} {s s' : Slot}

theorem agree_allocate (shape : Shape) : Agree T view touch (allocate shape) (allocate shape) (Option.Rel T.cell) := by
  refine .bind .context fun c c' both => ?_
  have made := both.arena.alloc shape
  generalize c.arena.alloc shape = r, c'.arena.alloc shape = r' at made
  cases made with
  | none => exact .pure .none
  | some made =>
    exact .bind (.onContext (fun _ => ⟨rfl, rfl⟩) fun _ _ twins => twins.setArena made.2) fun _ _ _ =>
      .pure (.some made.1)

theorem agree_addToHeap (inst : T.inst i i') (cell : T.cell id id') :
    Agree T view touch (addToHeap i id) (addToHeap i' id') Eq :=
  .onContext (fun _ => ⟨rfl, rfl⟩) fun _ _ twins => { twins with heap := twins.heap.insert inst cell }

theorem agree_addToScope (inst : T.inst i i') (cell : T.cell id id') :
    Agree T view touch (addToScope i id) (addToScope i' id') Eq :=
  .onActivation (fun _ => ⟨rfl, rfl, rfl⟩) fun _ _ twins => { twins with storage := twins.storage.insert inst cell }

theorem agree_readSlot (cell : T.cell id id') (slot : SlotTwins T s s') :
    Agree T view touch (readSlot id s i) (readSlot id' s' i') (Option.Rel T.inst) := by
  refine .bind .context fun c c' both => ?_
  cases read : c.arena.read id s i with
  | error e => exact .failWith _
  | ok held =>
    cases read' : c'.arena.read id' s' i' with
    | error e => exact fun _ _ _ _ _ _ _ _ ends => nomatch ends
    | ok held' => exact .pure (both.arena.read cell slot read read')

theorem agree_writeSlot (cell : T.cell id id') (slot : SlotTwins T s s') (value : T.inst v v') :
    Agree T view touch (writeSlot id s v i) (writeSlot id' s' v' i') (Option.Rel T.inst) := by
  refine .bind .context fun c c' both => .bind (.emit? _ _) fun _ _ _ => ?_
  cases write : c.arena.write id s v i with
  | error e => exact .failWith _
  | ok done =>
    cases write' : c'.arena.write id' s' v' i' with
    | error e => exact fun _ _ _ _ _ _ _ _ ends => nomatch ends
    | ok done' =>
      obtain ⟨before, after⟩ := both.arena.write cell slot value write write'
      exact .bind (.onContext (fun _ => ⟨rfl, rfl⟩) fun _ _ twins => twins.setArena after) fun _ _ _ => .pure before

theorem agree_demandContainer (types : TypeTable) (inst : T.inst i i') (expected : SlotKind) :
    Agree T view touch (demandContainer types i expected) (demandContainer types i' expected) T.cell := by
  refine .bind (agree_containerOf? inst) fun found found' same => ?_
  cases same with
  | some cell => exact .pure cell
  | none =>
    dsimp only
    rw [T.ty inst, T.level inst]
    cases i.ty? with
    | none => exact .failWith _
    | some ty =>
      refine .bind (agree_allocate _) fun made made' same => ?_
      cases same with
      | none => exact .failWith _
      | some cell =>
        refine .bind (.emit _ _) fun _ _ _ => ?_
        split
        · exact .bind (agree_addToHeap inst cell) fun _ _ _ => .pure cell
        · exact .bind (agree_addToScope inst cell) fun _ _ _ => .pure cell

theorem agree_slotType (types : TypeTable) (inst : T.inst i i') (field : Option Nat) (ty : Ty) :
    Agree T view touch (slotType types i field ty) (slotType types i' field ty) Eq := by
  unfold slotType
  rw [T.ty inst]
  split
  · exact .pure rfl
  · split
    · exact .pure rfl
    · exact .endless _

theorem agree_contentsOf (types : TypeTable) (cell : T.cell id id') (slot : SlotTwins T s s')
    (inst : T.inst i i') (shown : ¬ view.hidden value) (ty : Ty) (field : Option Nat) :
    Agree T view touch (contentsOf types id s i value ty field) (contentsOf types id' s' i' value ty field) T.inst := by
  refine .bind (agree_readSlot cell slot) fun held held' same => ?_
  cases same with
  | some inst => exact .pure inst
  | none =>
    refine .bind (agree_slotType types inst field ty) fun elem _ same => ?_
    subst same
    exact .bind (agree_fresh shown) fun _ _ new => .bind (agree_writeSlot cell slot new) fun _ _ _ => .pure new

theorem agree_shareContainer {owner owner' : Instance} (owners : T.inst owner owner') (inst : T.inst i i') :
    Agree T view touch (shareContainer owner i) (shareContainer owner' i') Eq := by
  refine .bind .activation fun a a' twins => .bind .context fun c c' both => ?_
  have here := twins.storage.get? owners
  have there := both.heap.get? owners
  generalize a.storage.get? owner = x, a'.storage.get? owner' = x' at here
  generalize c.heap.get? owner = y, c'.heap.get? owner' = y' at there
  cases here with
  | some cell => exact agree_addToScope inst cell
  | none =>
    cases there with
    | some cell => exact agree_addToHeap inst cell
    | none => exact .done

theorem agree_noteAddress (cell : T.cell id id') (slot : SlotTwins T s s') :
    Agree T view touch (noteAddress value id s) (noteAddress value id' s') Eq := by
  refine .onActivation (fun _ => ⟨rfl, rfl, rfl⟩) fun a a' twins => { twins with addresses := fun y shown => ?_ }
  rw [Table.get?_insert, Table.get?_insert]
  split
  · exact .some ⟨cell, slot⟩
  · exact twins.addresses y shown

theorem agree_replaceAliases (before : T.inst i i') (after : T.inst v v') :
    Agree T view touch (replaceAliases i v) (replaceAliases i' v') Eq := by
  refine .bind .context fun c c' both => .bind .activation fun a a' twins => ?_
  have reachable {id id' : ContainerId} (cell : T.cell id id') :
      id ∈ a.storage.values ++ c.heap.values ↔ id' ∈ a'.storage.values ++ c'.heap.values := by
    rw [List.mem_append, List.mem_append, twins.storage.mem_values cell, both.heap.mem_values cell]
  have replaced := both.arena.replaceAll reachable before after
  refine .bind (.onContext (fun _ => ⟨rfl, rfl⟩) fun _ _ twins => twins.setArena replaced) fun _ _ _ => ?_
  -- Only what is reported depends on how many slots there were.
  have silent (count : Nat) (e : Event) : (if 0 < count then emit e else Pure.pure ()) =
      Analysis.emit? (if 0 < count then some e else none) := by split <;> rfl
  dsimp only
  rw [silent, silent]
  exact .emit? _ _

theorem agree_replaceComposite {old old' : Option Instance} (before : Option.Rel T.inst old old') (shape : Option Shape)
    (after : T.inst v v') : Agree T view touch (replaceComposite old shape v) (replaceComposite old' shape v') Eq := by
  unfold replaceComposite
  cases before with
  | none => exact .done
  | @some i i' inst =>
    cases shape with
    | none => exact .done
    | some shape =>
      dsimp only
      have same : (i' != v') = (i != v) := by
        rw [bne, bne, beq_eq_decide, beq_eq_decide, decide_eq_decide.2 (T.unique inst after)]
      rw [same]
      split
      · exact agree_replaceAliases inst after
      · exact .done

end Storage

section Composites

variable (types : TypeTable) {x y z : Operand} {value : String} {ty : Ty} (binds : Binds view touch value)

section

include binds

theorem agree_alloc (scope : AllocScope) : Concurs T view touch (alloc types value ty scope) := by
  refine .bind (agree_fresh binds.shown) fun i i' inst => .bind (agree_allocate _) fun made made' same => ?_
  cases same with
  | none => exact agree_bindValue binds inst
  | some cell =>
    cases scope with
    | heap => exact .bind (agree_addToHeap inst cell) fun _ _ _ => agree_bindValue binds inst
    | frame => exact .bind (agree_addToScope inst cell) fun _ _ _ => agree_bindValue binds inst

theorem agree_makeContainer : Concurs T view touch (makeContainer types value ty) := by
  refine .bind (agree_fresh binds.shown) fun i i' inst => .bind (agree_allocate _) fun made made' same => ?_
  cases same with
  | none => exact agree_bindValue binds inst
  | some cell => exact .bind (agree_addToScope inst cell) fun _ _ _ => agree_bindValue binds inst

theorem agree_bindSlot (inst : T.inst i i') {s s' : Slot} (slot : SlotTwins T s s')
    (field : Option Nat) (address : Bool) :
    Agree T view touch (bindSlot types value ty i s field address)
      (bindSlot types value ty i' s' field address) Eq := by
  unfold bindSlot
  rw [slot.kind]
  refine .bind (agree_demandContainer types inst _) fun id id' cell => ?_
  refine .bind (agree_contentsOf types cell slot inst binds.shown ty field) fun v v' held => ?_
  split
  · exact .bind (agree_noteAddress cell slot) fun _ _ _ => agree_bindValue binds held
  · exact agree_bindValue binds held

section

variable (shows : view.Shows x)
include shows

theorem agree_field (index : Nat) (address : Bool) : Concurs T view touch (field types value ty x index address) :=
  .bind (agree_instanceOf shows) fun _ _ inst => agree_bindSlot types binds inst (.field index) _ address

theorem agree_index (shows' : view.Shows y) (address : Bool) :
    Concurs T view touch (index types value ty x y address) := by
  refine .bind (agree_instanceOf shows) fun i i' inst => ?_
  rw [isString_twins types inst]
  split
  · exact agree_bindFresh binds
  · exact .bind (agree_instanceOf shows') fun _ _ index => agree_bindSlot types binds inst (.index index) _ address

theorem agree_lookup (shows' : view.Shows y) (commaOk : Bool) :
    Concurs T view touch (lookup types value ty x y commaOk) := by
  refine .bind (agree_instanceOf shows) fun i i' inst => ?_
  rw [isString_twins types inst]
  split
  · exact agree_bindFresh binds
  refine .bind (agree_instanceOf shows') fun _ _ key => .bind (agree_demandContainer types inst _) fun _ _ cell => ?_
  refine .bind (agree_contentsOf types cell (.key key) inst binds.shown ty none) fun _ _ held => ?_
  split
  · exact agree_bindWithFlag binds (.some held)
  · exact agree_bindValue binds held

theorem agree_slice : Concurs T view touch (slice types value ty x) := by
  refine .bind (agree_instanceOf shows) fun i i' inst => .bind (agree_fresh binds.shown) fun _ _ new => ?_
  dsimp only
  rw [isString_twins types inst]
  split
  · exact .bind (agree_shareContainer inst new) fun _ _ _ => agree_bindValue binds new
  · exact agree_bindValue binds new

theorem agree_typeAssert (commaOk : Bool) : Concurs T view touch (typeAssert value ty x commaOk) := by
  refine .bind (agree_instanceOf shows) fun _ _ held => ?_
  split
  · exact agree_bindWithFlag binds (.some held)
  · exact agree_bindValue binds held

theorem agree_deref : Concurs T view touch (deref types value ty x) := by
  refine .bind (V := Option.Rel fun s s' => T.cell s.1 s'.1 ∧ SlotTwins T s.2 s'.2)
    (.bind .activation fun a a' twins => .pure ?_) fun s s' same => ?_
  · cases x with
    | var name => exact twins.addresses name (shows.var name rfl)
    | global name => exact .none
    | func name => exact .none
    | const literal => exact .none
  · cases same with
    | none => exact agree_bindOperand binds shows
    | some same =>
      refine .bind (agree_instanceOf shows) fun _ _ pointer => ?_
      refine .bind (agree_contentsOf types same.1 same.2 pointer binds.shown ty none) fun _ _ held => ?_
      exact agree_bindValue binds held

end

theorem agree_makeClosure {func : String} (named : view.listed func) {bindings : List Operand}
    (shows : ∀ b ∈ bindings, view.Shows b) :
    Concurs T view touch (makeClosure value ty func bindings) := by
  refine .bind (.mapM fun b member => agree_instanceOf (shows b member)) fun captures captures' same => ?_
  refine .bind (agree_fresh binds.shown) fun _ _ inst => .bind (.emit _ _) fun _ _ _ => .listing named fun listed => ?_
  refine .bind (.onContext (fun _ => ⟨rfl, rfl⟩) fun _ _ twins => ?_) fun _ _ _ => agree_bindValue binds inst
  exact { twins with callables := twins.callables.insert inst ⟨rfl, listed, same⟩ }

end

theorem agree_mapUpdate (shows : view.Shows x) (shows' : view.Shows y) (shows'' : view.Shows z) :
    Concurs T view touch (mapUpdate types x y z) := by
  refine .bind (agree_instanceOf shows) fun _ _ inst => .bind (agree_instanceOf shows') fun _ _ key => ?_
  refine .bind (agree_instanceOf shows'') fun _ _ held => .bind (agree_demandContainer types inst _) fun _ _ cell => ?_
  exact .bind (agree_writeSlot cell (.key key) held) fun _ _ _ => .done

theorem agree_storeGlobal (program : Program) (touched : touch.globals name) (inst : T.inst v v') :
    Agree T view touch (storeGlobal program name v) (storeGlobal program name v') Eq := by
  have rest : Agree T view touch
      (do
        let old := (← context).globals.get? name
        modifyContext fun c => { c with globals := c.globals.insert name v }
        replaceComposite old ((program.global? name).map fun g => program.types.shape g.ty) v)
      (do
        let old := (← context).globals.get? name
        modifyContext fun c => { c with globals := c.globals.insert name v' }
        replaceComposite old ((program.global? name).map fun g => program.types.shape g.ty) v') Eq := by
    refine .bind .context fun c c' both => .bind (.modifyContext (fun c c' twins => ?_) (fun _ => rfl) ?_) fun _ _ _ =>
      agree_replaceComposite (both.globals name) _ inst
    · refine { twins with globals := fun other => ?_ }
      rw [Table.get?_insert, Table.get?_insert]
      split
      · exact .some inst
      · exact twins.globals other
    · intro c other untouched
      have differs : name ≠ other := fun same => untouched (same ▸ touched)
      show (c.globals.insert name v).get? other = _
      rw [Table.get?_insert, if_neg differs]
  refine .bind .activation fun a a' twins => ?_
  have here := twins.storage.get? inst
  generalize a.storage.get? v = s, a'.storage.get? v' = s' at here
  cases here with
  | none => exact rest
  | some cell => exact .bind (agree_addToHeap inst cell) fun _ _ _ => rest

theorem FunctionTwins.valueType? {f f' : Function} (twins : FunctionTwins view f f')
    (shown : ¬ view.hidden name) : f'.valueType? name = f.valueType? name := by
  have params : f'.params = f.params := congrArg (·.params) twins.signature
  have freeVars : f'.freeVars = f.freeVars := congrArg (·.freeVars) twins.signature
  rw [Function.valueType?, Function.valueType?, twins.definition name shown, Function.paramType?,
    Function.paramType?, params, freeVars]

theorem agree_storeLocal (binds : Binds view touch name) (inst : T.inst v v') :
    Agree T view touch (storeLocal types name v) (storeLocal types name v') Eq := by
  refine .bind .activation fun a a' twins => ?_
  dsimp only
  rw [twins.func.valueType? binds.shown]
  have replaces {old old' : Option Instance} (before : Option.Rel T.inst old old') :
      Agree T view touch
        (bindValue name v >>= fun _ => replaceComposite old ((a.func.valueType? name).map types.shapeBehind) v)
        (bindValue name v' >>= fun _ => replaceComposite old' ((a.func.valueType? name).map types.shapeBehind) v')
        Eq :=
    .bind (agree_bindValue binds inst) fun _ _ _ => agree_replaceComposite before _ inst
  have here := twins.addresses name binds.shown
  generalize a.addresses.get? name = s, a'.addresses.get? name = s' at here
  cases here with
  | none => exact .bind (.pure (twins.locals name binds.shown)) fun _ _ => replaces
  | some here =>
    have shows : view.Shows (.var name) := ⟨fun _ same => Operand.var.inj same ▸ binds.shown, nofun⟩
    exact .bind (agree_instanceOf shows) fun _ _ pointer =>
      .bind (agree_writeSlot here.1 here.2 inst) fun _ _ => replaces

theorem agree_store {program program' : Program} (types : program'.types = program.types)
    (globals : program'.globals = program.globals) (shows : view.Shows x) (shows' : view.Shows y)
    (touched : ∀ name, x = .global name → touch.globals name)
    (touched' : ∀ name, x = .var name → touch.names name) :
    Agree T view touch (store program x y) (store program' x y) Eq := by
  refine .bind (agree_instanceOf shows') fun _ _ inst => ?_
  cases x with
  | global name =>
    have same : storeGlobal program' name = storeGlobal program name := by
      funext v
      unfold storeGlobal Program.global?
      rw [types, globals]
    dsimp only
    rw [same]
    exact agree_storeGlobal program (touched name rfl) inst
  | var name =>
    dsimp only
    rw [types]
    exact agree_storeLocal program.types ⟨shows.var name rfl, touched' name rfl⟩ inst
  | func name => exact .bind .activation fun _ _ _ => .emit _ _
  | const literal => exact .bind .activation fun _ _ _ => .emit _ _

end Composites

end ChanFlow.Analysis
