import ChanFlow.Proofs.Agreement

/-!
Instructions and calls that agree.

Every instruction that stays inside its block takes twins to twins (`agree_simple`), and so do the parts of a call:
finding the function, preparing its activation and taking its result.
-/
open List

namespace ChanFlow.Analysis

open Ssa Protocol

variable {a a' : Activation} {f f' : Function} {edges : List PhiEdge} {i i' : Instance} {args : List Operand}
  {rs rs' : List (Option Instance)} {captures captures' : List Instance} {receiver receiver' : Option Instance}

variable {T : Twinning} {view : View} {touch : Touch} {m m' : Machine}

/-! ### Phis and comparisons -/

theorem atHeader_twins (twins : ActivationTwins T view a a') (arrival : Arrival) :
    atHeader a' arrival = atHeader a arrival := by
  rw [atHeader, atHeader, twins.loops]

theorem agree_changeLoop (event : Loop → Option Event) (change : Loop → Loop) :
    Concurs T view touch (changeLoop event change) := by
  refine .bind .activation fun a a' twins => ?_
  rw [twins.loops]
  refine .bind (.emit? _ _) fun _ _ _ => .onActivation (fun _ => ⟨rfl, rfl, rfl⟩) fun b b' both =>
    { both with loops := ?_ }
  unfold Activation.setLoop
  rw [both.loops]

section Merges

variable {value : String} {ty : Ty} (binds : Binds view touch value)

theorem agreeAt_anticipate {name : String} (shown : ¬ view.hidden name) (unbound : m.act.resolve? name = none)
    (twins : Twins T view m m') :
    AgreeAt T view touch m m' (anticipate (.var name)) (anticipate (.var name)) T.inst := by
  refine (Agree.activation m m' twins).bindAt ?_
  rintro a _ a' _ ⟨⟩ ⟨⟩ _ -
  simp only [Operand.var?, Option.bind_some, twins.act.func.definition name shown]
  have fails {x : Run Instance} (cause : Cause) : AgreeAt T view touch m m' (failWith cause) x T.inst :=
    Agree.failWith cause m m' twins
  cases found : m.act.func.definition? name with
  | none => exact fails _
  | some definition =>
    obtain ⟨action, pos⟩ := definition
    cases action with
    | perform effect => exact fails _
    | define other ty op =>
      obtain rfl : other = name := by simpa [Instr.name?] using find?_some found
      have makes : AgreeAt T view touch m m'
          (do
            let i ← fresh other ty
            emit (.mergeValueMade i)
            bindValue other i
            return i)
          (do
            let i ← fresh other ty
            emit (.mergeValueMade i)
            bindValue other i
            return i) T.inst := by
        rintro _ _ _ _ ⟨⟩ ⟨⟩
        have inst := twins.act.fresh shown ty
        refine ⟨⟨twins.context, twins.act.bind other inst⟩,
          ⟨⟨fun {x j} _ held => ?_, fun _ => rfl⟩, rfl, rfl, fun _ => Nat.le_refl _⟩, inst⟩
        -- Only a value without an instance gets one here.
        have differs : other ≠ x := by
          rintro rfl
          exact nomatch unbound.symm.trans held
        show (m.act.locals.insert other _).get? x = some j
        rw [Table.get?_insert, if_neg differs]
        exact held
      cases op with
      | call c => exact makes
      | recv chan commaOk => exact makes
      | deref x => exact makes
      | unary sign x => exact makes
      | makeClosure func bindings => exact makes
      | _ => exact fails _

include binds

theorem agree_takeEdge {edge : PhiEdge} (shows : view.Shows edge.value) :
    Concurs T view touch (takeEdge value edge) := by
  obtain ⟨pred, x⟩ := edge
  intro m m' twins
  refine ((agree_instanceOf? shows) m m' twins).bindAt ?_
  rintro i m₁ i' m₁' found - twins₁ same
  cases same with
  | some inst => exact ((Agree.pure inst) m₁ m₁' twins₁).bind fun _ _ inst => agree_bindValue binds inst
  | none =>
    cases x with
    | var name =>
      obtain ⟨unbound, rfl⟩ := EStateM.Result.ok.inj found
      exact (agreeAt_anticipate (shows.var name rfl) unbound twins₁).bind fun _ _ inst => agree_bindValue binds inst
    | global name => exact fun _ _ _ _ ends => nomatch ends
    | func name => exact nomatch found
    | const literal => exact nomatch found

omit binds in
theorem agree_advanceIndex (arrival : Arrival) (edges : List PhiEdge) :
    Concurs T view touch (advanceIndex arrival edges) := by
  unfold advanceIndex
  split
  · exact agree_changeLoop _ _
  · exact .done

omit binds in
theorem FunctionTwins.indexCandidate? (twins : FunctionTwins view f f')
    (shows : ∀ edge ∈ edges, view.Shows edge.value) :
    Analysis.indexCandidate? f' value edges = Analysis.indexCandidate? f value edges := by
  unfold Analysis.indexCandidate?
  split
  · next entry back =>
    cases back' : back.value with
    | var name =>
      have shown := (shows back (by simp)).var name back'
      simp [Operand.var?, twins.definition name shown]
    | global name => rfl
    | func name => rfl
    | const literal => rfl
  · rfl

omit binds in
theorem agree_noteCandidate (arrival : Arrival) (shows : ∀ edge ∈ edges, view.Shows edge.value) :
    Concurs T view touch (noteCandidate arrival value edges) := by
  refine .bind .activation fun a a' twins => ?_
  rw [atHeader_twins twins, twins.loops, twins.func.indexCandidate? shows]
  split
  · split
    · exact agree_changeLoop _ _
    · exact .done
  · exact .done

theorem agree_phi (arrival : Arrival) (shows : ∀ edge ∈ edges, view.Shows edge.value) :
    Concurs T view touch (phi arrival value edges) := by
  refine .bind .activation fun a a' twins => ?_
  split
  · exact .failWith _
  · next edge taken =>
    obtain ⟨pred, -, member⟩ := Option.bind_eq_some_iff.1 taken
    dsimp only
    rw [atHeader_twins twins, twins.loops]
    split
    · refine .bind (agree_advanceIndex arrival edges) fun _ _ _ => .bind .activation fun b b' both => ?_
      rw [both.loops]
      exact agree_bindValue binds (T.const _)
    · exact .bind (agree_noteCandidate arrival shows) fun _ _ _ =>
        agree_takeEdge binds (shows edge (mem_of_find?_eq_some member))

omit binds in
theorem agree_noteComparison (maxUnroll : Nat) (arrival : Arrival) (op : BinOp) (x y : Operand) :
    Concurs T view touch (noteComparison maxUnroll arrival value op x y) := by
  refine .bind .activation fun a a' twins => ?_
  rw [atHeader_twins twins, twins.loops]
  split
  · exact agree_changeLoop _ _
  · exact .done

theorem agree_binary (maxUnroll : Nat) (arrival : Arrival) (op : BinOp) (x y : Operand) :
    Concurs T view touch (binary maxUnroll arrival value ty op x y) :=
  .bind (agree_noteComparison maxUnroll arrival op x y) fun _ _ _ => agree_bindFresh binds

end Merges

/-! ### Results -/

theorem ActivationTwins.setReturned (twins : ActivationTwins T view a a') (slot : Nat) (inst : T.inst i i') :
    ActivationTwins T view (a.setReturned slot i) (a'.setReturned slot i') where
  __ := twins
  returned seen := by
    have before := twins.returned seen
    unfold Activation.setReturned
    dsimp only
    rw [before.length_eq]
    exact SlotsTwins.set (rel_append before (slotsTwins_replicate _)) slot inst

theorem agree_returnValues (slot : Nat) {xs : List Operand} (shows : ∀ x ∈ xs, view.Shows x) :
    Concurs T view touch (returnValues slot xs) := by
  induction xs generalizing slot with
  | nil => exact .done
  | cons x rest ih =>
    rw [forall_mem_cons] at shows
    refine .bind (agree_instanceOf? shows.1) fun i i' same => ?_
    cases same with
    | some inst =>
      exact .bind (.onActivation (fun _ => ⟨rfl, rfl, rfl⟩) fun _ _ twins =>
        twins.setReturned slot inst) fun _ _ _ => ih _ shows.2
    | none => exact .bind (.emit _ _) fun _ _ _ => ih _ shows.2

theorem agree_skipUnmodelled (op : String) : Concurs T view touch (skipUnmodelled op) :=
  .bind .activation fun _ _ _ => .emit _ _

/-- A result that a step binds, if there is one. -/
def BindsResult (view : View) (touch : Touch) (result : Result) : Prop :=
  ∀ value ty, result = some (value, ty) → Binds view touch value

section Results

variable (types : TypeTable) {result : Result} (binds : BindsResult view touch result)
include binds

theorem agree_bindFreshResult : Concurs T view touch (bindFreshResult result) := by
  cases result with
  | none => exact .done
  | some both => exact agree_bindFresh (binds both.1 both.2 rfl)

theorem agree_callBuiltin (name : String) (shows : ∀ x ∈ args, view.Shows x) :
    Concurs T view touch (callBuiltin name args result) := by
  unfold callBuiltin
  split
  · exact .bind .activation fun _ _ _ => .emit _ _
  · exact agree_utter (shows _ mem_cons_self) .close
  · next slice _ value ty =>
    have binds := binds value ty rfl
    refine .bind (agree_instanceOf? (shows slice mem_cons_self)) fun i i' same => ?_
    cases same with
    | some inst => exact agree_bindValue binds inst
    | none => exact agree_bindFresh binds
  · exact .done
  · exact agree_bindFreshResult binds

omit binds in
theorem agree_takeStorage (scope : ScopeTwins T a.storage a'.storage) (returned : SlotsTwins T rs rs') :
    Agree T view touch (takeStorage a rs) (takeStorage a' rs') Eq := by
  induction returned with
  | nil => exact .done
  | @cons r r' _ _ here _ ih =>
    unfold takeStorage
    cases here with
    | none => exact ih
    | @some v v' inst =>
      have held := scope.get? inst
      simp only [Option.bind_some]
      generalize a.storage.get? v = s, a'.storage.get? v' = s' at held
      cases held with
      | none => exact ih
      | some cell => exact .bind (agree_addToScope inst cell) fun _ _ _ => ih

omit binds in
theorem SlotsTwins.last (returned : SlotsTwins T rs rs') : Option.Rel T.inst rs.getLast?.join rs'.getLast?.join := by
  rw [getLast?_eq_getElem?, getLast?_eq_getElem?, returned.length_eq]
  exact returned.part _

theorem agree_takeResult (scope : ScopeTwins T a.storage a'.storage) (returned : SlotsTwins T a.returned a'.returned) :
    Agree T view touch (takeResult types a result) (takeResult types a' result) Eq := by
  cases result with
  | none => exact .done
  | some both =>
    obtain ⟨value, ty⟩ := both
    have binds := binds value ty rfl
    refine .bind (agree_takeStorage scope returned) fun _ _ _ => .bind (agree_fresh binds.shown) fun i i' inst => ?_
    split
    · next width _ =>
      have parts : SlotsTwins T ((List.range width).map fun k => a.returned[k]?.join)
          ((List.range width).map fun k => a'.returned[k]?.join) := by
        rw [SlotsTwins, forall₂_map_left_iff, forall₂_map_right_iff, forall₂_same]
        exact fun k _ => returned.part k
      exact .bind (.onActivation (fun _ => ⟨rfl, rfl, rfl⟩) fun _ _ twins => twins.setTuple inst parts)
        fun _ _ _ => agree_bindValue binds inst
    · have last := SlotsTwins.last returned
      generalize a.returned.getLast?.join = r, a'.returned.getLast?.join = r' at last
      cases last with
      | none => exact agree_bindValue binds inst
      | some held => exact agree_bindValue binds held

omit binds in
theorem ContextTwins.numberActivation {c c' : Context} (twins : ContextTwins T c c') (func : String) :
    ContextTwins T (c.numberActivation func).2 (c'.numberActivation func).2 := by
  -- Both have used up the same number.
  have later (other : String) (n : Nat) :
      ∃ k, ∀ c : Context, (c.numberActivation func).2.count other + n = c.count other + k := by
    refine ⟨if func = other then 1 + n else n, fun c => ?_⟩
    rw [Context.count_numberActivation]
    split
    · next same => rw [same, Nat.add_assoc]
    · rfl
  refine { twins with numbered := fun other n value index ty issued => ?_, foreign := fun other n ty issued => ?_ }
  · obtain ⟨k, after⟩ := later other n
    rw [after] at issued ⊢
    rw [after]
    exact twins.numbered other k value index ty issued
  · obtain ⟨k, after⟩ := later other n
    rw [after] at issued ⊢
    rw [after]
    exact twins.foreign other k ty issued

omit binds in
theorem agreeAt_numberActivation (func : String) (twins : Twins T view m m') :
    AgreeAt T view touch m m' (numberActivation func) (numberActivation func)
      (fun n n' => n = m.context.count func ∧ n' = m'.context.count func) := by
  have counts (other : String) : m.context.count other ≤ (m.context.numberActivation func).2.count other := by
    rw [Context.count_numberActivation]
    split
    · next same => exact same ▸ Nat.le_succ _
    · exact Nat.le_refl _
  rintro _ _ _ _ ⟨⟩ ⟨⟩
  exact ⟨⟨twins.context.numberActivation func, twins.act⟩,
    ⟨⟨fun _ => id, fun _ => rfl⟩, rfl, rfl, counts⟩, rfl, rfl⟩

theorem agreeAt_bindForeignResult {func : String} (issued : result.isSome → T.issue func (m.context.count func))
    (twins : Twins T view m m') :
    AgreeAt T view touch m m' (bindForeignResult types func result) (bindForeignResult types func result) Eq := by
  cases result with
  | none => exact Agree.done m m' twins
  | some both =>
    obtain ⟨value, ty⟩ := both
    have binds := binds value ty rfl
    refine (agreeAt_numberActivation func twins).bind fun n n' same => ?_
    have inst : T.inst (.external func ty n) (.external func ty n') := by
      rw [same.1, same.2]
      exact twins.context.foreign func 0 ty (issued rfl)
    dsimp only
    split
    · exact .bind (.onActivation (fun _ => ⟨rfl, rfl, rfl⟩) fun _ _ twins =>
        twins.setTuple inst (slotsTwins_replicate _)) fun _ _ _ =>
        agree_bindValue binds inst
    · exact agree_bindValue binds inst

end Results

/-! ### Calls -/

/-- Functions that are the same, unless they are changed; their signatures are always the same. -/
structure CalleesTwins (T : Twinning) (f f' : Function) : Prop where
  signature : f'.toSignature = f.toSignature
  body : f'.hasBody = f.hasBody
  same : ¬ T.changed f.name → f' = f

structure EnvTwins (T : Twinning) (env env' : Env) : Prop where
  types : env'.program.types = env.program.types
  globals : env'.program.globals = env.program.globals
  options : env'.options = env.options
  functions : ∀ name, Option.Rel (CalleesTwins T) (env.program.function? name) (env'.program.function? name)

inductive TargetTwins (T : Twinning) : Target → Target → Prop
  | routine {f f' : Function} {captures captures' : List Instance} {receiver receiver' : Option Instance}
    (func : CalleesTwins T f f') (captured : List.Forall₂ T.inst captures captures')
    (received : Option.Rel T.inst receiver receiver') :
    TargetTwins T (.routine f captures receiver) (.routine f' captures' receiver')
  | external (name : String) : TargetTwins T (.external name) (.external name)

section Targets

variable {env env' : Env} (envs : EnvTwins T env env')
include envs

theorem agree_routineNamed (name : String)
    (captured : List.Forall₂ T.inst captures captures') (received : Option.Rel T.inst receiver receiver') :
    Agree T view touch (routineNamed env.program name captures receiver)
      (routineNamed env'.program name captures' receiver') (TargetTwins T) := by
  unfold routineNamed
  have found := envs.functions name
  generalize env.program.function? name = f, env'.program.function? name = f' at found
  cases found with
  | none => exact .bind (.emit _ _) fun _ _ _ => .pure (.external name)
  | some func =>
    dsimp only
    rw [func.body]
    refine .pure ?_
    split
    · exact .routine func captured received
    · exact .external name

theorem agree_methodTarget {x : Operand} (shows : view.Shows x) (method : String) :
    Agree T view touch (methodTarget env.program x method) (methodTarget env'.program x method) (TargetTwins T) := by
  unfold methodTarget
  rw [envs.types]
  refine .bind (agree_instanceOf shows) fun i i' inst => .bind .activation fun a a' twins => ?_
  have declared : x.var?.bind a'.func.valueType? = x.var?.bind a.func.valueType? := by
    cases x with
    | var name => exact twins.func.valueType? (shows.var name rfl)
    | global name => rfl
    | func name => rfl
    | const literal => rfl
  dsimp only
  rw [T.ty inst, declared]
  split
  · exact .bind (.emit _ _) fun _ _ _ => .pure (.external method)
  split
  · exact .bind (.emit _ _) fun _ _ _ => .pure (.external method)
  split
  · exact .bind (.emit _ _) fun _ _ _ => .pure (.external method)
  next routine _ =>
  have found := envs.functions routine
  have known : (env'.program.function? routine).isNone = (env.program.function? routine).isNone := by
    generalize env.program.function? routine = f, env'.program.function? routine = f' at found
    cases found <;> rfl
  rw [known]
  split
  · exact .failWith _
  · exact agree_routineNamed envs routine .nil (.some inst)

theorem agree_target {callee : Callee} (shows : ∀ x ∈ callee.operands, view.Shows x) :
    Agree T view touch (target env.program callee) (target env'.program callee) (TargetTwins T) := by
  cases callee with
  | static func => exact agree_routineNamed envs func .nil .none
  | builtin name => exact .pure (.external name)
  | value x =>
    have shows := shows x mem_cons_self
    refine .bind (agree_instanceOf? shows) fun i i' same => .bind .context fun c c' both => ?_
    have unknown : Agree T view touch
        (do
          emit (.calleeUnknown (← activation).func.name x)
          return .external x.render)
        (do
          emit (.calleeUnknown (← activation).func.name x)
          return .external x.render) (TargetTwins T) :=
      .bind .activation fun _ _ _ => .bind (.emit _ _) fun _ _ _ => .pure (.external _)
    cases same with
    | none => exact unknown
    | @some i i' inst =>
      have known := both.callables.get? inst
      simp only [Option.bind_some]
      generalize c.callables.get? i = v, c'.callables.get? i' = v' at known
      cases known with
      | none => exact unknown
      | some callable =>
        dsimp only
        rw [callable.func]
        exact agree_routineNamed envs _ callable.captures .none
  | invoke x method => exact agree_methodTarget envs (shows x mem_cons_self) method

end Targets

/-- What is handed to an activation. -/
structure HandedTwins (T : Twinning) (a a' : Activation) : Prop where
  routine : a'.routine = a.routine
  locals : ∀ value, Option.Rel T.inst (a.resolve? value) (a'.resolve? value)
  names : Entwined T Eq (fun _ => True) a.names.entries a'.names.entries
  storage : ScopeTwins T a.storage a'.storage

theorem HandedTwins.bind (handed : HandedTwins T a a') (value : String)
    (inst : T.inst i i') : HandedTwins T (a.bind value i) (a'.bind value i') where
  __ := handed
  locals other := by
    unfold Activation.resolve? Activation.bind
    rw [Table.get?_insert, Table.get?_insert]
    split
    · exact .some inst
    · exact handed.locals other

section Hand

variable (types : TypeTable) {caller caller' a a' : Activation} (callers : ActivationTwins T view caller caller')
include callers

theorem agree_hand (handed : HandedTwins T a a') (param : Param) {v v' : Instance} (inst : T.inst v v') :
    Agree T view touch (hand types caller a param v) (hand types caller' a' param v') (HandedTwins T) := by
  refine .bind (.emit _ _) fun _ _ _ => .pure ?_
  -- The channel gets its name, and the parameter its instance, whatever storage comes with it.
  have given {b b' : Activation} (both : HandedTwins T b b') : HandedTwins T
      ((if types.carriesChan param.ty then
          { b with
            names := b.names.insert v param.name
            routine := b.routine.addParams [⟨caller.channelName v, param.name⟩] }
        else b).bind param.name v)
      ((if types.carriesChan param.ty then
          { b' with
            names := b'.names.insert v' param.name
            routine := b'.routine.addParams [⟨caller'.channelName v', param.name⟩] }
        else b').bind param.name v') := by
    refine HandedTwins.bind ?_ param.name inst
    split
    · refine { both with routine := ?_, names := both.names.insert inst rfl }
      rw [both.routine, callers.channelName inst]
    · exact both
  have held := callers.storage.get? inst
  generalize caller.storage.get? v = s, caller'.storage.get? v' = s' at held
  cases held with
  | none => exact given handed
  | some cell => exact given { handed with storage := handed.storage.insert inst cell }

theorem agree_handAll {es es' : List (Param × Option Instance)}
    (entries : List.Forall₂ (fun e e' => e'.1 = e.1 ∧ Option.Rel T.inst e.2 e'.2) es es')
    (handed : HandedTwins T a a') :
    Agree T view touch (handAll types caller a es) (handAll types caller' a' es') (HandedTwins T) := by
  induction entries generalizing a a' with
  | nil => exact .pure handed
  | @cons e e' _ _ here _ ih =>
    obtain ⟨param, i⟩ := e
    obtain ⟨param', i'⟩ := e'
    obtain ⟨rfl, same⟩ := here
    cases same with
    | some inst => exact .bind (agree_hand types callers handed _ inst) fun _ _ => ih
    | none => exact .bind (.emit _ _) fun _ _ _ => ih handed

end Hand

theorem forall₂_zip {α β : Type} {R : β → β → Prop} (as : List α) {bs bs' : List β}
    (each : List.Forall₂ R bs bs') :
    List.Forall₂ (fun e e' => e'.1 = e.1 ∧ R e.2 e'.2) (as.zip bs) (as.zip bs') := by
  induction each generalizing as with
  | nil => cases as <;> exact .nil
  | cons here _ ih =>
    cases as with
    | nil => exact .nil
    | cons a rest => exact .cons ⟨rfl, here⟩ (ih rest)

theorem FunctionTwins.refl {f : Function} (everywhere : ∀ b, view.blocks b) (everything : view.joins)
    (tested : ∀ value i x y, f.definition? value = some i → i.op? = some (.binary .eq x y) →
      view.Shows x ∧ view.Shows y)
    (shown : ∀ b block i, f.block? b = some block → i ∈ block.instrs → view.ShowsAction i.action) :
    FunctionTwins view f f where
  signature := rfl
  definition _ _ := rfl
  tested value i x y _ := tested value i x y
  block _ _ := rfl
  straight joins := absurd everything joins
  index _ _ _ _ := everywhere _
  shown b block i _ := shown b block i
  leaves _ _ _ _ _ _ _ _ := everywhere _

theorem FunctionTwins.whole (f : Function) : FunctionTwins .whole f f :=
  .refl (fun _ => trivial) trivial (fun _ _ x y _ _ => ⟨View.shows_whole x, View.shows_whole y⟩)
    fun _ _ i _ _ => .whole i.action

theorem Activation.eq_of_unhanded {b : Activation} (same : a.unhanded = b) :
    a = { b with
      routine := { a.routine with }, locals := a.locals, names := a.names, storage := a.storage } :=
  same ▸ rfl

/-- Activations of one function that have just been handed the same. -/
theorem HandedTwins.activation {v : View} {caller caller' : Activation}
    (callers : ActivationTwins T view caller caller') (handed : HandedTwins T a a') {seq seq' : Nat}
    (start : a.unhanded = Activation.start f seq (caller.callers ++ [caller.func.name]) f.name)
    (start' : a'.unhanded = Activation.start f seq' (caller'.callers ++ [caller'.func.name]) f.name)
    (everywhere : ∀ b, v.blocks b) (twins : FunctionTwins v f f) (listed : ∀ name, v.listed name → T.listed name)
    (own : ∀ value index ty, ¬ v.hidden value →
      T.inst (.value ⟨some f.name, value⟩ seq index ty) (.value ⟨some f.name, value⟩ seq' index ty)) :
    ActivationTwins T v a a' := by
  have names : caller'.func.name = caller.func.name := congrArg (·.name) callers.func.signature
  rw [callers.callers, names] at start'
  rw [Activation.eq_of_unhanded start, Activation.eq_of_unhanded start']
  exact
    { func := twins
      own := own
      listed := listed
      callers := rfl
      entered := fun name changed => by
        have entered := callers.entered name changed
        simp only [Activation.reenters, Activation.start, contains_append, Bool.or_eq_true,
          decide_eq_true_eq] at entered ⊢
        rcases entered with rfl | earlier
        · simp
        · exact .inr (.inl earlier)
      routine :=
        { name := congrArg (·.name) handed.routine
          params := congrArg (·.params) handed.routine
          stmts := congrArg (·.stmts) handed.routine
          opened := fun _ => congrArg (·.openedParams) handed.routine }
      locals := fun value _ => handed.locals value
      names := handed.names
      storage := handed.storage
      defers := rfl
      deferred := nofun
      returned := fun _ => .nil
      selects := .nil
      tuples := .nil
      addresses := fun value _ => .none
      loops := rfl
      labels := fun b signature _ => rfl
      visited := fun b signature _ => Iff.rfl
      unlabelled := fun b _ unseen => absurd (everywhere b) unseen
      unvisited := fun b _ unseen => absurd (everywhere b) unseen }

theorem agreeAt_prepare (types : TypeTable) (func : CalleesTwins T f f')
    (shows : ∀ x ∈ args, view.Shows x) (captured : List.Forall₂ T.inst captures captures')
    (received : Option.Rel T.inst receiver receiver') (twins : Twins T view m m') :
    AgreeAt T view touch m m' (prepare types f args captures receiver) (prepare types f' args captures' receiver')
      fun a a' => HandedTwins T a a' ∧
        (f' = f → T.issue f.name (m.context.count f.name) → ActivationTwins T .whole a a') := by
  refine (Agree.activation m m' twins).bindAt ?_
  rintro _ _ _ _ ⟨⟩ ⟨⟩ _ callers
  have name : f'.name = f.name := congrArg (·.name) func.signature
  rw [name]
  refine (agreeAt_numberActivation f.name twins).bind fun seq seq' same => ?_
  refine .bind (.mapM fun x member => agree_instanceOf? (shows x member)) fun values values' valued => ?_
  have params : f'.params = f.params := congrArg (·.params) func.signature
  have freeVars : f'.freeVars = f.freeVars := congrArg (·.freeVars) func.signature
  rw [params, freeVars]
  have given : List.Forall₂ (fun e e' => e'.1 = e.1 ∧ Option.Rel T.inst e.2 e'.2)
      (f.params.zip ((receiver.map some).toList ++ values) ++ f.freeVars.zip (captures.map some))
      (f.params.zip ((receiver'.map some).toList ++ values') ++ f.freeVars.zip (captures'.map some)) := by
    refine rel_append (forall₂_zip _ (rel_append ?_ valued)) (forall₂_zip _ ?_)
    · cases received with
      | none => exact .nil
      | some inst => exact .cons (.some inst) .nil
    · rw [forall₂_map_left_iff, forall₂_map_right_iff]
      exact captured.imp fun _ _ inst => .some inst
  intro m₂ m₂' twins₂ a m₃ a' m₃' ends ends'
  have start : HandedTwins T (Activation.start f seq (m.act.callers ++ [m.act.func.name]) f.name)
      (Activation.start f' seq' (m'.act.callers ++ [m'.act.func.name]) f.name) :=
    ⟨rfl, fun _ => .none, .nil, .nil⟩
  obtain ⟨twins₃, spares, handed⟩ := agree_handAll types callers given start m₂ m₂' twins₂ a m₃ a'
    m₃' ends ends'
  have one := ((leads_handAll types _ _ _ m₂).ok ends).1
  have two := ((leads_handAll types _ _ _ m₂').ok ends').1
  refine ⟨twins₃, spares, handed, ?_⟩
  rintro rfl issued
  refine handed.activation callers one two (fun _ => trivial) (.whole f') (fun name _ => T.free issued name)
    fun value index ty _ => ?_
  rw [same.1, same.2]
  exact twins.context.numbered f'.name 0 value index ty issued

/-! ### Instructions -/

/-- An instruction that stays inside its block and calls nothing. -/
def isSimple : Action → Bool
  | .define _ _ (.call _) => false
  | .define .. => true
  | .perform (.jump _) | .perform (.branch ..) | .perform (.go _) | .perform (.defer _) | .perform (.call _)
  | .perform .runDefers => false
  | .perform _ => true

/-- The local or global that an instruction changes. -/
def touchOf : Action → Touch
  | .define value _ _ => ⟨(· = value), fun _ => False⟩
  | .perform (.store (.var name) _) => ⟨(· = name), fun _ => False⟩
  | .perform (.store (.global name) _) => ⟨fun _ => False, (· = name)⟩
  | .perform _ => ⟨fun _ => False, fun _ => False⟩

/-- Instructions that stay inside their block take twins to twins. -/
theorem agree_simple {env env' : Env} (envs : EnvTwins T env env') {action : Action} (simple : isSimple action)
    (shows : view.ShowsAction action) (walk walk' : Walker) (arrival : Arrival) :
    Agree T view (touchOf action) (interpret env walk arrival action) (interpret env' walk' arrival action) Eq := by
  obtain ⟨operands, closure, defined⟩ := shows
  cases action with
  | define value ty op =>
    have binds : Binds view (touchOf (.define value ty op)) value := ⟨defined value ty op rfl, rfl⟩
    have first (x : Operand) (rest : List Operand) (eq : (Action.define value ty op).operands = x :: rest) :
        view.Shows x := operands x (eq ▸ mem_cons_self)
    have second (x y : Operand) (rest : List Operand) (eq : (Action.define value ty op).operands = x :: y :: rest) :
        view.Shows y := operands y (eq ▸ mem_cons_of_mem _ mem_cons_self)
    unfold interpret define
    rw [envs.types, envs.options]
    cases op with
    | call c => exact nomatch simple
    | alloc scope => exact agree_alloc _ binds scope
    | binary sign x y => exact agree_binary binds _ arrival sign x y
    | recv chan commaOk => exact agree_recv binds (first _ _ rfl) commaOk
    | deref x => exact agree_deref _ binds (first _ _ rfl)
    | unary sign x => exact agree_bindFresh binds
    | convert conversion x => exact agree_bindOperand binds (first _ _ rfl)
    | extract tuple i => exact agree_extract binds (first _ _ rfl) i
    | field x i => exact agree_field _ binds (first _ _ rfl) i false
    | fieldAddr x i => exact agree_field _ binds (first _ _ rfl) i true
    | index x i => exact agree_index _ binds (first _ _ rfl) (second _ _ _ rfl) false
    | indexAddr x i => exact agree_index _ binds (first _ _ rfl) (second _ _ _ rfl) true
    | lookup map key commaOk => exact agree_lookup _ binds (first _ _ rfl) (second _ _ _ rfl) commaOk
    | makeChan capacity => exact agree_makeChan binds capacity
    | makeClosure func bindings => exact agree_makeClosure binds (closure value ty func bindings rfl) operands
    | makeMap => exact agree_makeContainer _ binds
    | makeSlice length => exact agree_makeContainer _ binds
    | next iter => exact agree_bindFresh binds
    | range x => exact agree_bindFresh binds
    | phi edges => exact agree_phi binds arrival fun edge member => operands _ (mem_map_of_mem member)
    | select blocking cases => exact agree_select _ binds blocking fun c member => operands _ (mem_map_of_mem member)
    | slice x => exact agree_slice _ binds (first _ _ rfl)
    | typeAssert x commaOk => exact agree_typeAssert binds (first _ _ rfl) commaOk
    | unmodelled op args => exact agree_skipUnmodelled op
  | perform effect =>
    have first (x : Operand) (rest : List Operand) (eq : (Action.perform effect).operands = x :: rest) :
        view.Shows x := operands x (eq ▸ mem_cons_self)
    have second (x y : Operand) (rest : List Operand) (eq : (Action.perform effect).operands = x :: y :: rest) :
        view.Shows y := operands y (eq ▸ mem_cons_of_mem _ mem_cons_self)
    unfold interpret
    cases effect with
    | ret results => exact agree_returnValues 0 operands
    | send chan value => exact agree_utter (first _ _ rfl) .send
    | store addr value =>
      refine agree_store envs.types envs.globals (first _ _ rfl) (second _ _ _ rfl) ?_ ?_
      · rintro name rfl
        exact rfl
      · rintro name rfl
        exact rfl
    | mapUpdate map key value =>
      unfold perform
      rw [envs.types]
      exact agree_mapUpdate _ (first _ _ rfl) (second _ _ _ rfl)
        (operands value (by simp [Action.operands, Effect.operands]))
    | panic x => exact .done
    | unmodelled op args => exact agree_skipUnmodelled op
    | _ => exact nomatch simple

end ChanFlow.Analysis
