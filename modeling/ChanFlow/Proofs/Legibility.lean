import ChanFlow.Proofs.Labels
import ChanFlow.Proofs.Lockstep
import ChanFlow.Proofs.Naming
import ChanFlow.Proofs.Rereading

/-!
The text of an inferred protocol.

Calls, branches and walks keep the names in order too, so every name in an inferred protocol is a name of
the grammar or a stray one, and the text of the protocol is valid exactly if it has no stray name.
-/
open List

namespace ChanFlow.Analysis

open Ssa Protocol

variable {name routine value : String} {captures : List Instance} {receiver : Option Instance} {r r' : Routine}
  {f : Function} {caller callee : Activation} {args : List Operand} {result : Result} {protocol : Protocol} {c : Call}
  {n : Nat} {ss : List Statement} {env : Env} {walk : Walker} {o : Options}

variable {p : Program}

/-! ### Calls -/

def TargetNamed (p : Program) : Target → Prop
  | .routine f captures receiver => f ∈ p.functions ∧ (∀ i ∈ captures, Known i) ∧ ∀ i ∈ receiver, Known i
  | .external name => isIdent name = true

theorem naming_routineNamed (ident : isIdent name = true) (known : ∀ i ∈ captures, Known i)
    (known' : ∀ i ∈ receiver, Known i) : Naming p (routineNamed p name captures receiver) (TargetNamed p) := by
  unfold routineNamed
  split
  · next f found =>
    refine .pure ?_
    split
    · exact ⟨mem_of_find?_eq_some found, known, known'⟩
    · exact ident
  · exact .seq (.emit _) fun _ => .pure ident

theorem naming_methodTarget (spelled : p.Spelled) {receiver : Operand} (operand : receiver.Spelled) {method : String}
    (ident : isIdent method = true) : Naming p (methodTarget p receiver method) (TargetNamed p) := by
  have external (e : Event) : Naming p (do emit e; return .external method) (TargetNamed p) :=
    .seq (.emit e) fun _ => .pure ident
  refine .bind (naming_instanceOf operand) fun recv known => .bind .activation fun a _ => ?_
  dsimp only
  split
  · exact external _
  · split
    · exact external _
    · split
      · exact external _
      · next routine found =>
        have called : Naming p (routineNamed p routine [] (some recv)) (TargetNamed p) :=
          naming_routineNamed (spelled.methods _ _ _ found) (by simp) (by simpa using known)
        split
        · exact .seq (.failWith _) fun _ => called
        · exact called

theorem naming_target (spelled : p.Spelled) {callee : Callee} (named : callee.Spelled) :
    Naming p (target p callee) (TargetNamed p) := by
  unfold target
  cases callee with
  | static func => exact naming_routineNamed named (by simp) (by simp)
  | builtin name => exact .pure named
  | value x =>
    obtain ⟨name, rfl, ident⟩ := named
    refine .bind (naming_instanceOf? (x := .var name) ident) fun found _ => .bind .context fun c context => ?_
    split
    · next callable held =>
      obtain ⟨i, -, held⟩ := Option.bind_eq_some_iff.1 held
      have callable := (entwined_self.1 context.twins.callables _ (Table.mem_of_find held)).2
      exact naming_routineNamed callable.listed
        (fun i member => (forall₂_same.1 callable.captures i member).2) (by simp)
    · exact .bind .activation fun _ _ => .seq (.emit _) fun _ => .pure ident
  | invoke receiver method => exact naming_methodTarget spelled named.1 named.2

theorem RoutineNamed.start (sayable : Sayable p name) : RoutineNamed p { name := name } where
  name := sayable
  callees := by simp
  callers := by simp
  distinct := nodup_nil
  stmts := by simp
  waiting := by simp

theorem RoutineNamed.header (named : RoutineNamed p r) : RoutineNamed p r.header :=
  { named with stmts := by simp [Routine.header], waiting := by simp [Routine.header] }

theorem RoutineNamed.addParams (named : RoutineNamed p r) {ps : List Parameter}
    (callees : ∀ q ∈ ps, Sayable p q.callee) (callers : ∀ q ∈ ps, Sayable p q.caller) :
    RoutineNamed p (r.addParams ps) where
  name := named.name
  callees q member := (Routine.mem_addParams member).elim (named.callees q) (callees q)
  callers q member := (Routine.mem_addParams member).elim (named.callers q) (callers q)
  distinct := named.distinct.foldl ps
  stmts := named.stmts
  waiting := named.waiting

theorem Activation.Named.start (spelled : f.Spelled) (member : f ∈ p.functions) (seq : Nat) (callers : List String)
    (sayable : Sayable p name) : (Activation.start f seq callers name).Named p where
  func := member
  routine := .start sayable
  twins :=
    { func := functionTwins_spelled spelled
      own := fun _ _ _ ident => ⟨rfl, not_not.1 ident⟩
      callers := rfl
      entered := fun _ => False.elim
      listed := fun _ => id
      routine := ⟨rfl, rfl, rfl, fun _ => rfl⟩
      locals := fun _ _ => .none
      names := .nil
      storage := .nil
      defers := rfl
      deferred := nofun
      returned := fun _ => .nil
      selects := .nil
      tuples := .nil
      addresses := fun _ _ => .none
      loops := rfl
      labels := fun _ _ _ => rfl
      visited := fun _ _ _ => Iff.rfl
      unlabelled := fun _ _ unseen => absurd trivial unseen
      unvisited := fun _ _ unseen => absurd trivial unseen }
  names := by simp [Activation.start, Table.values]
  labels := by simp [Activation.start, Table.values]
  defers := by simp [Activation.start]

theorem naming_numberActivation (name : String) : Naming p (numberActivation name) :=
  .bind .context fun _ _ => .seq (.modifyContext fun _ named =>
    { named with twins := named.twins.numberActivation name }) fun _ => .pure trivial

theorem naming_hand (types : TypeTable) (callerNamed : caller.Named p) (calleeNamed : callee.Named p)
    {param : Param} (ident : isIdent param.name = true) {v : Instance} (known : Known v) :
    Naming p (hand types caller callee param v) (·.Named p) := by
  have inst : spelling.inst v v := ⟨rfl, known⟩
  have given (stored : Activation) (storedNamed : stored.Named p) : Activation.Named p
      { stored with
        names := stored.names.insert v param.name
        routine := stored.routine.addParams [⟨caller.channelName v, param.name⟩] } := by
    refine { storedNamed with
      twins := { storedNamed.twins with
        names := storedNamed.twins.names.insert inst rfl, routine := ⟨rfl, rfl, rfl, fun _ => rfl⟩ }
      names := values_insert storedNamed.names v (isName_of_isIdent ident)
      routine := ?_ }
    refine storedNamed.routine.addParams (fun q member => ?_) fun q member => ?_
    · obtain rfl := mem_singleton.1 member
      exact .ident ident
    · obtain rfl := mem_singleton.1 member
      exact callerNamed.channelName known
  refine .seq (.emit _) fun _ => .pure (Activation.Named.bind ?_ _ known)
  cases caller.storage.get? v with
  | none =>
    dsimp only
    split
    · exact given _ calleeNamed
    · exact calleeNamed
  | some id =>
    dsimp only
    have stored : ({ callee with storage := callee.storage.insert v id } : Activation).Named p :=
      { calleeNamed with twins := { calleeNamed.twins with storage := calleeNamed.twins.storage.insert inst rfl } }
    split
    · exact given _ stored
    · exact stored

theorem naming_handAll (types : TypeTable) (callerNamed : caller.Named p) {given : List (Param × Option Instance)}
    (idents : ∀ g ∈ given, isIdent g.1.name = true) (known : ∀ g ∈ given, ∀ i ∈ g.2, Known i)
    (calleeNamed : callee.Named p) : Naming p (handAll types caller callee given) (·.Named p) := by
  induction given generalizing callee with
  | nil => exact .pure calleeNamed
  | cons g rest ih =>
    rw [forall_mem_cons] at idents known
    obtain ⟨param, arg⟩ := g
    cases arg with
    | none => exact .seq (.emit _) fun _ => ih idents.2 known.2 calleeNamed
    | some v =>
      exact .bind (naming_hand types callerNamed calleeNamed idents.1 (known.1 v rfl)) fun _ handed =>
        ih idents.2 known.2 handed

theorem naming_calleeActivation (spelled : p.Spelled) (types : TypeTable) (member : f ∈ p.functions)
    (args_spelled : ∀ x ∈ args, x.Spelled) (captured : ∀ i ∈ captures, Known i)
    (received : ∀ i ∈ receiver, Known i) :
    Naming p (calleeActivation types f args captures receiver) (·.Named p) := by
  have function := spelled.functions f member
  refine .bind .activation fun caller callerNamed => .seq (naming_numberActivation _) fun seq => ?_
  refine .bind (.mapM fun x here => naming_instanceOf? (args_spelled x here)) fun values known => ?_
  refine .bind
    (naming_handAll types callerNamed ?_ ?_ (.start function member seq _ (.ident function.name)))
    fun callee named =>
    .seq (.spend _) fun _ => .pure named
  · intro g here
    rcases mem_append.1 here with here | here
    · exact function.params _ (of_mem_zip here).1
    · exact function.freeVars _ (of_mem_zip here).1
  · intro g here i arg
    rcases mem_append.1 here with here | here
    · rcases mem_append.1 (of_mem_zip here).2 with here | here
      · obtain ⟨j, held, eq⟩ := by simpa using here
        obtain rfl : j = i := Option.some.inj (eq.trans arg)
        exact received j held
      · exact known _ here i arg
    · obtain ⟨j, held, eq⟩ := mem_map.1 (of_mem_zip here).2
      obtain rfl : j = i := Option.some.inj (eq.trans arg)
      exact captured j held

theorem naming_bindForeign (types : TypeTable) (ident : isIdent routine = true)
    (named : isIdent value = true) (ty : Ty) : Naming p (bindForeign types routine value ty) := by
  refine .seq (naming_numberActivation _) fun n => ?_
  have inst : spelling.inst (.external routine ty n) (.external routine ty n) := ⟨rfl, ident⟩
  dsimp only
  split
  · exact .seq (.modifyActivation fun a named =>
      { named with twins := named.twins.setTuple inst (slotsTwins_replicate _) })
      fun _ => naming_bindValue named ident
  · exact naming_bindValue named ident

/-- The value a call defines has an identifier for its name. -/
def ResultNamed (result : Result) : Prop := ∀ r ∈ result, isIdent r.1 = true

theorem ResultNamed.binds (named : ResultNamed result) : BindsResult .spelled .any result :=
  fun value ty eq => binds_spelled (named (value, ty) eq)

theorem naming_bindFreshResult (named : ResultNamed result) : Naming p (bindFreshResult result) :=
  (Naming.of_agree _ (agree_bindFreshResult named.binds) (.of_composed (composed_bindFreshResult result))).any

theorem naming_bindForeignResult (types : TypeTable) (ident : isIdent routine = true) (named : ResultNamed result) :
    Naming p (bindForeignResult types routine result) := by
  unfold bindForeignResult
  split
  · exact naming_bindForeign types ident (named _ rfl) _
  · exact .done

theorem naming_takeResult (types : TypeTable) (returns : callee.Named p) (named : ResultNamed result) :
    Naming p (takeResult types callee result) :=
  (Naming.of_agree _ (agree_takeResult types named.binds returns.twins.storage (returns.twins.returned trivial))
    (.of_composed (composed_takeResult trivial types _ result))).any

theorem naming_callBuiltin (name : String) (spelled : ∀ x ∈ args, x.Spelled)
    (named : ResultNamed result) : Naming p (callBuiltin name args result) := by
  unfold callBuiltin
  split
  · exact .bind .activation fun _ _ => .emit _
  · exact naming_close (spelled _ mem_cons_self)
  · refine .bind (naming_instanceOf? (spelled _ mem_cons_self)) fun found known => ?_
    split
    · exact naming_bindValue (named _ rfl) (known _ rfl)
    · exact naming_bindFresh (named _ rfl) _
  · exact .done
  · exact naming_bindFreshResult named

/-! ### Routines of the protocol -/

theorem ProtocolNamed.add (named : ProtocolNamed p protocol) (routine : RoutineNamed p r) :
    ProtocolNamed p (protocol.add r) :=
  ⟨names_add named.names, fun q member => (mem_add member).elim (fun eq => eq ▸ routine) (named.routines q)⟩

theorem ProtocolNamed.replace (named : ProtocolNamed p protocol)
    (routine : RoutineNamed p r) : ProtocolNamed p (protocol.replace r) :=
  ⟨names_put named.names, fun q member => (mem_put member).elim (fun eq => eq ▸ routine) (named.routines q)⟩

theorem naming_add (routine : RoutineNamed p r) :
    Naming p (modifyContext fun c => { c with protocol := c.protocol.add r }) :=
  .modifyContext fun _ named => ⟨{ named.twins with }, named.protocol.add routine⟩

theorem naming_replace (routine : RoutineNamed p r) :
    Naming p (modifyContext fun c => { c with protocol := c.protocol.replace r }) :=
  .modifyContext fun _ named => ⟨{ named.twins with }, named.protocol.replace routine⟩

section

variable {walk : Walker} (walks : ∀ arrival, Naming p (walk arrival))

include walks

theorem naming_walkFunction : Naming p (walkFunction walk) :=
  .seq (.emit _) fun _ => .bind .activation fun _ before => .seq (naming_add before.routine.header) fun _ =>
    .seq (walks _) fun _ => .bind .activation fun _ after => naming_replace after.routine

theorem naming_enterFunction (spelled : p.Spelled) (types : TypeTable) (member : f ∈ p.functions)
    (args_spelled : ∀ x ∈ args, x.Spelled) (captured : ∀ i ∈ captures, Known i)
    (received : ∀ i ∈ receiver, Known i) (named : ResultNamed result) :
    Naming p (enterFunction types walk f args captures receiver result) := by
  refine .bind (naming_calleeActivation spelled types member args_spelled captured received) fun callee before => ?_
  refine .bind (.within before (naming_walkFunction walks)) fun after done => ?_
  refine .seq (naming_addStatement (Statement.spells_call.2 ⟨done.routine.name, fun n arg => ?_⟩)) fun _ =>
    naming_takeResult types done named
  obtain ⟨q, here, rfl⟩ := mem_map.1 arg
  exact before.routine.callers q here

theorem naming_call (spelled : p.Spelled) (call_spelled : c.Spelled) (named : ResultNamed result) :
    Naming p (call p walk c result) := by
  have onTarget : Naming p (do callTarget p.types walk c.args result (← target p c.callee)) := by
    refine .bind (naming_target spelled call_spelled.callee) fun t ok => ?_
    cases t with
    | external routine => exact .seq (.emit _) fun _ => naming_bindForeignResult p.types ok named
    | routine f captures receiver =>
      obtain ⟨member, captured, received⟩ := ok
      refine .bind .activation fun _ _ => ?_
      split
      · exact .seq (.emit _) fun _ => naming_bindFreshResult named
      · exact naming_enterFunction walks spelled p.types member call_spelled.args captured received named
  unfold call
  split
  · exact naming_callBuiltin _ call_spelled.args named
  · exact onTarget

theorem naming_runDeferred (spelled : p.Spelled) : Naming p (runDeferred p walk) :=
  .bind .activation fun _ named => .forM fun c member =>
    naming_call walks spelled (named.defers c (mem_reverse.1 member)) (by simp [ResultNamed])

end

theorem naming_spawn (spelled : p.Spelled) (call_spelled : c.Spelled) : Naming p (spawn p c) := by
  refine .bind (naming_target spelled call_spelled.callee) fun t ok => ?_
  cases t with
  | external routine => exact .bind .activation fun _ _ => .emit _
  | routine f captures receiver =>
    obtain ⟨member, captured, received⟩ := ok
    refine .bind (naming_calleeActivation spelled p.types member call_spelled.args captured received)
      fun spawned named => ?_
    refine .seq (naming_addStatement (Statement.spells_spawn.2 ⟨named.routine.name, fun n arg => ?_⟩)) fun _ => ?_
    · obtain ⟨q, here, rfl⟩ := mem_map.1 arg
      exact named.routine.callers q here
    refine .bind .activation fun _ _ => ?_
    split
    · exact .emit _
    · refine .bind .tasks fun q queued => ?_
      split
      · next queue added =>
        refine .setTasks fun a member => ?_
        obtain ⟨-, rfl⟩ := TaskQueue.enqueue?_eq_some added
        rcases mem_append.1 member with old | new
        · exact queued a old
        · exact mem_singleton.1 new ▸ named
      · exact .emit _

theorem naming_defer (call_spelled : c.Spelled) : Naming p (defer c) := by
  refine .modifyActivation fun a named => ?_
  have all : ∀ c' ∈ a.defers ++ [c], c'.Spelled :=
    forall_mem_append.2 ⟨named.defers, forall_mem_singleton.2 call_spelled⟩
  exact { named with
    defers := all
    twins := { named.twins with
      defers := rfl, deferred := fun c' member x operand =>
        shows_spelled (callOperands_spelled (all c' member) x operand) } }

/-! ### Merge points -/

theorem isNameChar_of_mem_toDigits {c : Char} (member : c ∈ Nat.toDigits 10 n) : Grammar.isNameChar c = true := by
  simp [Grammar.isNameChar, Grammar.isDigit_of_mem_toDigits member]

/-- A label without a negative index is a name. -/
theorem isName_visitLabel (ident : isIdent f.name = true) (block : Nat) {signature : List Int}
    (natural : ∀ i ∈ signature, 0 ≤ i) : isName (visitLabel f (block, signature)) = true := by
  obtain ⟨start, cs, written, starts, all⟩ := Grammar.wordlike_of_isName (isName_of_isIdent ident)
  rw [isName, toList_visitLabel, written, cons_append]
  simp only [Bool.and_eq_true, all_eq_true]
  refine ⟨starts, fun c member => ?_⟩
  rcases mem_append.1 member with inside | member
  · exact all c inside
  rcases mem_cons.1 member with rfl | member
  · decide
  rcases mem_append.1 member with digit | member
  · exact isNameChar_of_mem_toDigits digit
  obtain ⟨i, index, member⟩ := mem_flatMap.1 member
  rw [toList_toString_natural (natural i index)] at member
  rcases mem_cons.1 member with rfl | digit
  · decide
  · exact isNameChar_of_mem_toDigits digit

theorem not_startsName_of_isDigit {c : Char} (digit : Text.isDigit c = true) : Text.startsName c ≠ true := by
  intro starts
  simp only [Text.isDigit, Text.startsName, Text.isLetter, Bool.and_eq_true, Bool.or_eq_true, decide_eq_true_eq]
    at digit starts
  obtain (⟨least, -⟩ | ⟨least, -⟩) | rfl := starts
  · exact absurd (show 'a' ≤ '9' from Char.le_trans least digit.2) (by decide)
  · exact absurd (show 'A' ≤ '9' from Char.le_trans least digit.2) (by decide)
  · exact absurd digit.2 (by decide)

/-- No stray name is a name of the grammar: it has a sign or a quote in it, or begins with a digit. -/
theorem Stray.not_isName {n : String} (stray : Stray p n) : isName n ≠ true := by
  intro name
  cases stray with
  | @label f block signature member i index negative =>
    have written := toList_toString_negative negative
    have sign : '-' ∈ (visitLabel f (block, signature)).toList := by
      rw [toList_visitLabel]
      refine mem_append_right _ (mem_cons_of_mem _ (mem_append_right _ ?_))
      exact mem_flatMap.2 ⟨i, index, mem_cons_of_mem _ (written ▸ mem_cons_self)⟩
    exact absurd (Grammar.all_of_isName name _ sign) (by decide)
  | integer i =>
    obtain ⟨start, cs, written, starts, -⟩ := Grammar.wordlike_of_isName name
    by_cases negative : i < 0
    · have same : '-' :: Nat.toDigits 10 i.natAbs = start :: cs :=
        (toList_toString_negative negative).symm.trans written
      obtain ⟨rfl, -⟩ := List.cons.inj same
      exact absurd starts (by decide)
    · obtain ⟨digit, ds, eq, isDigit⟩ := Grammar.cons_toDigits i.toNat
      have same : digit :: ds = start :: cs :=
        eq.symm.trans ((toList_toString_natural (Int.not_lt.1 negative)).symm.trans written)
      obtain ⟨rfl, -⟩ := List.cons.inj same
      exact not_startsName_of_isDigit isDigit starts
  | text s =>
    have quote : '"' ∈ (Literal.str s).render.toList := by simp [Literal.render]
    exact absurd (Grammar.all_of_isName name _ quote) (by decide)

theorem sayable_visitLabel (spelled : p.Spelled) (member : f ∈ p.functions) (key : BlockVisit) :
    Sayable p (visitLabel f key) := by
  by_cases natural : ∀ i ∈ key.2, 0 ≤ i
  · exact .inl (isName_visitLabel (spelled.functions f member).name key.1 natural)
  · simp only [not_forall, Int.not_le] at natural
    obtain ⟨i, index, negative⟩ := natural
    exact .inr (.label member index negative)

theorem RoutineNamed.continuationParams (named : RoutineNamed p r) :
    ∀ q ∈ r.continuationParams, Sayable p q.callee ∧ q.caller = q.callee := by
  have fold (names : List String) (known : ∀ n ∈ names, Sayable p n) (ps : List Parameter)
      (params : ∀ q ∈ ps, Sayable p q.callee ∧ q.caller = q.callee) :
      ∀ q ∈ names.foldl (fun ps name => Routine.addParam ps (.same name)) ps, Sayable p q.callee ∧
        q.caller = q.callee := by
    induction names generalizing ps with
    | nil => exact params
    | cons name names ih =>
      rw [forall_mem_cons] at known
      refine ih known.2 _ fun q member => ?_
      rcases Routine.mem_addParam member with old | rfl
      · exact params q old
      · exact ⟨known.1, rfl⟩
  refine fold _ (fun name member => ?_) _ fun q member => ?_
  · obtain ⟨ss, opened, created⟩ := mem_flatMap.1 member
    have spells : ∀ s ∈ ss, s.Spells (Sayable p) := by
      rcases mem_append.1 opened with aside | current
      · exact named.waiting ss (mem_reverse.1 aside)
      · exact mem_singleton.1 current ▸ named.stmts
    obtain ⟨s, inside, eq⟩ := mem_filterMap.1 created
    split at eq
    · obtain rfl := Option.some.inj eq
      exact (Statement.spells_newChan.1 (spells _ inside)).1
    · exact nomatch eq
  · obtain ⟨q', old, rfl⟩ := mem_map.1 member
    exact ⟨named.callees q' old, rfl⟩

/-! ### Branches -/

theorem RoutineNamed.setAside (named : RoutineNamed p r) : RoutineNamed p r.setAside :=
  { named with stmts := by simp [Routine.setAside], waiting := forall_mem_cons.2 ⟨named.stmts, named.waiting⟩ }

theorem RoutineNamed.takeBack (named : RoutineNamed p r)
    (taken : r.takeBack = .ok (ss, r')) : (∀ s ∈ ss, s.Spells (Sayable p)) ∧ RoutineNamed p r' := by
  unfold Routine.takeBack at taken
  split at taken
  · cases taken
  · next waits =>
    obtain ⟨rfl, rfl⟩ := Prod.mk.inj (Except.ok.inj taken)
    obtain ⟨last, others⟩ := forall_mem_cons.1 (waits ▸ named.waiting)
    exact ⟨last, { named with waiting := others }⟩

theorem byParts_spells : ByParts (·.Spells (Sayable p)) where
  tau := Statement.spells_tau
  branch onTrue onFalse := Statement.spells_branch.2 ⟨onTrue, onFalse⟩
  select := Statement.spells_select

theorem RoutineNamed.extendCaseOf (named : RoutineNamed p r) {slot case : Nat}
    (new : ∀ s ∈ ss, s.Spells (Sayable p)) (extended : r.extendCaseOf slot case ss = .ok r') :
    RoutineNamed p r' := by
  have kept := byParts_spells.extendCaseOf named.stmts new extended
  obtain ⟨cases, -, rfl⟩ := Routine.extendCaseOf_eq extended
  exact named.setStmts kept

theorem naming_setAside : Naming p setAside := .modifyRoutine fun _ named => named.setAside

theorem naming_takeBack : Naming p (changeRoutine (·.takeBack)) fun ss => ∀ s ∈ ss, s.Spells (Sayable p) :=
  .changeRoutine fun _ _ _ named taken => named.takeBack taken

theorem naming_takeBody : Naming p takeBody fun ss => ∀ s ∈ ss, s.Spells (Sayable p) := by
  refine .changeRoutine fun r ss r' named taken => ?_
  cases back : r.takeBack with
  | error e => rw [back] at taken; exact nomatch taken
  | ok found =>
    rw [back] at taken
    obtain ⟨rfl, rfl⟩ := Prod.mk.inj (Except.ok.inj taken)
    obtain ⟨outer, rest⟩ := named.takeBack back
    exact ⟨named.stmts, rest.setStmts outer⟩

theorem naming_resetLoops (loops : Nest) : Naming p (resetLoops loops) :=
  .modifyActivation fun _ named => { named with twins := { named.twins with loops := rfl } }

theorem naming_noteCommaOk (cond : Operand) : Naming p (noteCommaOk cond) := by
  refine .bind .activation fun _ _ => ?_
  split
  · split
    · exact .emit _
    · exact .done
  · exact .done

theorem naming_settleLoop (arrival : Arrival) : Naming p (settleLoop arrival) :=
  (Naming.of_agree .any (agree_settleLoop arrival) (.of_composed (composed_settleLoop trivial arrival))).any

section

variable {walk : Walker} (walks : ∀ arrival, Naming p (walk arrival))

include walks

theorem naming_walkMergePoint {label : String} (sayable : Sayable p label) {params : List Parameter}
    (callees : ∀ q ∈ params, Sayable p q.callee ∧ q.caller = q.callee) (arrival : Arrival) :
    Naming p (walkMergePoint walk label params arrival) := by
  have routine : RoutineNamed p (Routine.addParams { name := label } params) :=
    RoutineNamed.addParams (.start sayable) (fun q member => (callees q member).1)
      fun q member => (callees q member).2 ▸ (callees q member).1
  refine .seq (.emit _) fun _ => .seq (naming_add routine.header) fun _ => .bind .activation fun _ outer => ?_
  refine .seq (.modifyActivation fun _ named => named.setRoutine routine) fun _ => .seq (walks _) fun _ => ?_
  refine .bind .activation fun _ inner => ?_
  exact .seq (.modifyActivation fun _ named => named.setRoutine outer.routine) fun _ => naming_replace inner.routine

section

variable (spelled : p.Spelled)
include spelled

theorem naming_followEdge (src dst : Nat) : Naming p (followEdge walk src dst) := by
  refine .seq (.spend _) fun _ => .bind .activation fun a named => ?_
  split
  · exact .failWith _
  · split
    · exact walks _
    · have params := named.routine.continuationParams
      have args : ∀ n ∈ a.routine.continuationParams.map (·.callee), Sayable p n := by
        intro n member
        obtain ⟨q, here, rfl⟩ := mem_map.1 member
        exact (params q here).1
      split
      · next label known =>
        exact naming_addStatement (Statement.spells_call.2 ⟨named.labels label (mem_values_of_get? known), args⟩)
      · have label : Sayable p (a.mergeLabel dst) := mergeLabel_eq a dst ▸ sayable_visitLabel spelled named.func _
        refine .seq (.modifyActivation fun _ named => ?_) fun _ => ?_
        · exact { named with
            labels := values_insert named.labels _ label
            twins := { named.twins with
              labels := fun _ _ _ => rfl, unlabelled := fun _ _ unseen => absurd trivial unseen } }
        · exact .seq (naming_addStatement (Statement.spells_call.2 ⟨label, args⟩)) fun _ =>
            naming_walkMergePoint walks label params _

theorem naming_walkBothWays (src onTrue onFalse : Nat) :
    Naming p (walkBothWays walk src onTrue onFalse) := by
  refine .bind .activation fun _ _ => .seq naming_setAside fun _ =>
    .seq (naming_followEdge walks spelled _ _) fun _ => ?_
  refine .seq naming_setAside fun _ => .seq (naming_resetLoops _) fun _ => ?_
  refine .seq (naming_followEdge walks spelled _ _) fun _ => .seq naming_setAside fun _ => ?_
  refine .bind naming_takeBack fun _ right => .bind naming_takeBack fun _ left =>
    .bind naming_takeBack fun _ before => ?_
  refine .seq (.modifyRoutine fun _ named => named.setStmts before) fun _ => .modifyRoutine fun _ named => ?_
  refine named.addStatement ?_
  split
  · exact Statement.spells_tau
  · exact Statement.spells_branch.2 ⟨left, right⟩

theorem naming_collectCase (src dst slot case : Nat) : Naming p (collectCase walk src dst slot case) := by
  refine .bind (.seq naming_setAside fun _ => .seq (naming_followEdge walks spelled _ _) fun _ => naming_takeBody)
    fun body spells => .changeRoutine fun r _ r' named extended => ⟨trivial, ?_⟩
  cases done : r.extendCaseOf slot case body with
  | error e => rw [done] at extended; exact nomatch extended
  | ok found =>
    rw [done] at extended
    obtain ⟨-, rfl⟩ := Prod.mk.inj (Except.ok.inj extended)
    exact named.extendCaseOf spells done

theorem naming_walkCaseTest (src onTrue onFalse : Nat) (site : OpenSelect) (case : Nat) :
    Naming p (walkCaseTest walk src onTrue onFalse site case) := by
  refine .bind .activation fun a _ => ?_
  split
  · exact .seq (.emit _) fun _ => naming_walkBothWays walks spelled _ _ _
  · refine .seq (naming_collectCase walks spelled _ _ _ _) fun _ => .seq (naming_resetLoops _) fun _ => ?_
    split
    · exact naming_collectCase walks spelled _ _ _ _
    · exact naming_followEdge walks spelled _ _

theorem naming_branch (arrival : Arrival) (cond : Operand) (onTrue onFalse : Nat) :
    Naming p (branch walk arrival cond onTrue onFalse) := by
  refine .seq (naming_settleLoop _) fun _ => .bind .activation fun a _ => ?_
  dsimp only
  split
  · exact .seq (.emit _) fun _ => naming_followEdge walks spelled _ _
  · split
    · exact naming_walkCaseTest walks spelled _ _ _ _ _
    · exact .seq (naming_noteCommaOk _) fun _ => naming_walkBothWays walks spelled _ _ _

end

end

/-! ### Whole runs -/

section

variable {walk : Walker} {env : Env} (walks : ∀ arrival, Naming env.program (walk arrival))
  (spelled : env.program.Spelled)

include walks spelled

theorem naming_define (arrival : Arrival) {ty : Ty} {op : ValueOp} (action : (Action.define value ty op).Spelled) :
    Naming env.program (interpret env walk arrival (.define value ty op)) := by
  have ⟨ident, operands⟩ := action
  rcases composed_define env arrival value ty op with ⟨step, composed, same⟩ | ⟨edges, rfl⟩ |
    ⟨sign, x, y, rfl⟩ | ⟨c, rfl⟩
  · cases op with
    | call c => exact naming_call walks spelled operands (by simpa [ResultNamed] using ident)
    | recv x commaOk => exact naming_recv ident ty (operands x (by simp [ValueOp.operands])) commaOk
    | makeChan x => exact naming_makeChan ident ty (operands x (by simp [ValueOp.operands]))
    | select blocking cases =>
      exact naming_select _ ident ty blocking fun c member => operands _ (mem_map_of_mem member)
    | _ =>
      refine naming_simple env rfl action walk arrival ?_
      rw [interpret, same walk]
      exact composed.mute id
  · exact naming_simple env rfl action walk arrival (.of_composed (composed_phi trivial arrival value edges))
  · exact naming_simple env rfl action walk arrival
      (.of_composed (composed_binary trivial _ arrival value ty sign x y))
  · exact naming_call walks spelled operands (by simpa [ResultNamed] using ident)

theorem naming_perform (arrival : Arrival) {effect : Effect} (action : (Action.perform effect).Spelled) :
    Naming env.program (interpret env walk arrival (.perform effect)) := by
  cases effect with
  | jump target => exact naming_followEdge walks spelled _ _
  | branch cond onTrue onFalse => exact naming_branch walks spelled arrival cond onTrue onFalse
  | ret xs => exact naming_simple env rfl action walk arrival (.of_composed (composed_returnValues 0 xs))
  | send x y => exact naming_send (action x (by simp [Effect.operands]))
  | store x y => exact naming_simple env rfl action walk arrival (.of_composed (composed_store trivial _ x y))
  | mapUpdate x y z =>
    exact naming_simple env rfl action walk arrival (.of_composed (composed_mapUpdate trivial _ x y z))
  | go c => exact naming_spawn spelled action
  | defer c => exact naming_defer action
  | call c => exact naming_call walks spelled action (by simp [ResultNamed])
  | runDefers => exact naming_runDeferred walks spelled
  | panic x => exact .done
  | unmodelled op xs => exact .bind .activation fun _ _ => .emit _

theorem naming_walkInstr (arrival : Arrival) {i : Instr} (action : i.action.Spelled) :
    Naming env.program (walkInstr env walk arrival i) := by
  refine .located (.seq (.emit _) fun _ => .seq (.spend _) fun _ => ?_) _
  obtain ⟨_ | _, _⟩ := i
  · exact naming_define walks spelled arrival action
  · exact naming_perform walks spelled arrival action

theorem naming_enterBlock (arrival : Arrival) : Naming env.program (enterBlock env walk arrival) := by
  refine .bind .activation fun a named => ?_
  split
  · exact .failWith _
  · next block found =>
    have instrs := (spelled.functions _ named.func).instrs block (mem_of_getElem? found)
    refine .seq (.modifyActivation fun _ named => { named with twins := { named.twins with loops := rfl } }) fun _ => ?_
    refine .seq (.emit _) fun _ => .bind .activation fun _ _ => ?_
    split
    · exact .emit _
    · refine .seq (.modifyActivation fun a named => ?_) fun _ => .forM fun i member =>
        naming_walkInstr walks spelled arrival (instrs i member)
      unfold Activation.noteVisit
      split
      · exact named
      · exact { named with twins := { named.twins with
          visited := fun _ _ _ => Iff.rfl, unvisited := fun _ _ unseen => absurd trivial unseen } }

end

theorem naming_walkBlock (spelled : env.program.Spelled) (depth : Nat) (arrival : Arrival) :
    Naming env.program (walkBlock env depth arrival) := by
  induction depth generalizing arrival with
  | zero => exact .throw _
  | succ depth ih => exact naming_enterBlock ih spelled arrival

theorem naming_drain (walks : ∀ arrival, Naming p (walk arrival)) (count : Nat) :
    Naming p (drain walk count) := by
  induction count with
  | zero => exact .throw _
  | succ count ih =>
    refine .bind .tasks fun q queued => ?_
    split
    · exact .done
    · next a rest next =>
      unfold TaskQueue.next? at next
      split at next
      · exact nomatch next
      · next waiting =>
        obtain ⟨rfl, rfl⟩ := Prod.mk.inj (Option.some.inj next)
        rw [waiting, forall_mem_cons] at queued
        exact .seq (.setTasks queued.2) fun _ =>
          .seq (Naming.within queued.1 (naming_walkFunction walks)).any fun _ => ih

theorem naming_initialise (walks : ∀ arrival, Naming env.program (walk arrival))
    (spelled : env.program.Spelled) : Naming env.program (initialise env walk) := by
  unfold initialise
  split
  · exact .done
  · next init found =>
    have member : init ∈ env.program.functions := mem_of_find?_eq_some (Option.filter_eq_some_iff.1 found).1
    refine .seq (.emit _) fun _ => .seq (naming_numberActivation _) fun seq => .bind .activation fun entry named => ?_
    have start := Activation.Named.start (spelled.functions _ member) member seq []
      (.ident (spelled.functions _ named.func).name)
    exact .bind (.within start (walks _)) fun _ done =>
      .modifyActivation fun _ named => named.setRoutine done.routine

/-! ### Cleaning up -/

section

variable {P : String → Prop} (keep : String → Bool)

mutual

theorem spells_restrict : (s : Statement) → s.Spells P → (s.restrict keep).Spells P
  | .branch t e, spells => by
    rw [Statement.spells_branch] at spells
    rw [Statement.restrict, Statement.spells_branch]
    exact ⟨spells_restrictAll t spells.1, spells_restrictAll e spells.2⟩
  | .select cs, spells => by
    rw [Statement.spells_select] at spells
    rw [Statement.restrict, Statement.spells_select]
    exact spells_restrictCases cs spells
  | .newChan _ _, spells | .send _, spells | .recv _, spells | .close _, spells | .call _ _, spells
  | .spawn _ _, spells | .tau, spells => by simpa only [Statement.restrict] using spells

theorem spells_restrictAll : (ss : List Statement) → (∀ s ∈ ss, s.Spells P) →
    ∀ s ∈ Statement.restrictAll keep ss, s.Spells P
  | [], _ => by simp [Statement.restrictAll]
  | s :: ss, spells => by
    rw [forall_mem_cons] at spells
    rw [Statement.restrictAll]
    split
    · exact forall_mem_cons.2 ⟨spells_restrict s spells.1, spells_restrictAll ss spells.2⟩
    · exact spells_restrictAll ss spells.2

theorem spells_restrictCases : (cs : List (List Statement)) → (∀ c ∈ cs, ∀ s ∈ c, s.Spells P) →
    ∀ c ∈ Statement.restrictCases keep cs, ∀ s ∈ c, s.Spells P
  | [], _ => by simp [Statement.restrictCases]
  | c :: cs, spells => by
    rw [forall_mem_cons] at spells
    rw [Statement.restrictCases]
    exact forall_mem_cons.2 ⟨spells_restrictAll c spells.1, spells_restrictCases cs spells.2⟩

end

end

theorem ProtocolNamed.cleanUp (named : ProtocolNamed p protocol) (entry : String) :
    ProtocolNamed p (protocol.cleanUp entry) := by
  refine ⟨?_, fun r member => ?_⟩
  · have names : (protocol.cleanUp entry).routines.map (·.name) =
        (protocol.routines.filter fun r => (entry :: protocol.communicating).contains r.name).map (·.name) := by
      rw [Protocol.cleanUp, map_map]
      rfl
    rw [names]
    exact (filter_sublist.map _).nodup named.names
  · obtain ⟨r', kept, rfl⟩ := mem_map.1 member
    have routine := named.routines r' (mem_filter.1 kept).1
    exact routine.setStmts (spells_restrictAll _ _ routine.stmts)

theorem naming_analyse (env : Env) (spelled : env.program.Spelled) :
    Naming env.program (analyse env) (ProtocolNamed env.program) := by
  refine .seq ⟨fun _ named => ⟨named, trivial⟩⟩ fun m => ?_
  have walks := naming_walkBlock spelled (m.budget + 1)
  refine .seq (naming_initialise walks spelled) fun _ => .seq (naming_walkFunction walks) fun _ => ?_
  refine .seq (naming_drain walks _) fun _ => .bind .context fun c named => ?_
  dsimp only
  split
  · exact .seq (.emit _) fun _ => .pure (named.protocol.cleanUp _)
  · exact .pure named.protocol

theorem named_ofProgram (spelled : p.Spelled) : (Context.ofProgram p).Named p := by
  have fold (globals : List Global) (idents : ∀ g ∈ globals, isIdent g.name = true) (c : Context)
    (named : c.Named p) :
      (globals.foldl (Context.addGlobal p.types) c).Named p := by
    induction globals generalizing c with
    | nil => exact named
    | cons g globals ih =>
      rw [forall_mem_cons] at idents
      refine ih idents.2 _ ⟨named.twins.addGlobal p.types idents.1, ?_⟩
      unfold Context.addGlobal
      dsimp only
      split <;> exact named.protocol
  refine fold p.globals spelled.globals {} ⟨?_, by simp, by simp⟩
  exact ⟨nofun, nofun, fun _ => .none, .nil, ⟨fun _ => .none, fun _ => rfl⟩, .nil⟩

theorem named_start (spelled : p.Spelled) {entry : Function} (member : entry ∈ p.functions) (budget : Nat) :
    (Machine.start p entry budget).Named p where
  context := { named_ofProgram spelled with twins := (named_ofProgram spelled).twins.numberActivation entry.name }
  act := .start (spelled.functions entry member) member _ _ (.ident (spelled.functions entry member).name)
  tasks := by simp [Machine.start]

/-- All names in a protocol inferred for a spelled program are in order. -/
theorem protocolNamed_of_infer (spelled : p.Spelled)
    (inferred : (infer n p o).result = .ok protocol) : ProtocolNamed p protocol := by
  unfold infer at inferred
  split at inferred
  · cases inferred
  · next entry found =>
    have member : entry ∈ p.functions := mem_of_find?_eq_some (Option.filter_eq_some_iff.1 found).1
    have led := (naming_analyse ⟨p, o⟩ spelled).leads _ (named_start spelled member n)
    split at inferred
    · next protocol' m ran =>
      obtain rfl := Except.ok.inj inferred
      rw [Leads, ran] at led
      exact led.2
    · cases inferred

section

variable (named : ProtocolNamed p protocol)
include named

theorem ProtocolNamed.distinct : protocol.Distinct :=
  ⟨named.names, fun r member => (named.routines r member).distinct⟩

theorem ProtocolNamed.sayable : ∀ n ∈ protocol.names, Sayable p n := by
  intro n member
  obtain ⟨r, here, member⟩ := mem_flatMap.1 member
  have routine := named.routines r here
  rcases mem_append.1 member with header | written
  · rcases mem_cons.1 header with rfl | param
    · exact routine.name
    · obtain ⟨q, here, rfl⟩ := mem_map.1 param
      exact routine.callees q here
  · exact (Statement.spells_of_all.2 routine.stmts).1 n written

theorem ProtocolNamed.capacities : ∀ c ∈ protocol.capacities, Word.Fits c := by
  intro c member
  obtain ⟨r, here, member⟩ := mem_flatMap.1 member
  exact (Statement.spells_of_all.2 (named.routines r here).stmts).2 c member

end

/-- Printing an inferred protocol gives valid text, read back as an equivalent protocol, exactly if no label in
it stands for a negative index and no literal in the place of a channel. -/
theorem inferred_text_valid_iff {text : String} (read : (Program.read text).result = .ok p) {n : Nat} {o : Options}
    {protocol : Protocol} (inferred : (infer n p o).result = .ok protocol) :
    (∃ q, Protocol.read protocol.render = .ok q ∧ protocol.equivalent q = true) ↔
      ∀ name ∈ protocol.names, ¬ Stray p name := by
  have named := protocolNamed_of_infer (Program.spelled_of_read read) inferred
  rw [readable_iff named.distinct]
  constructor
  · intro ⟨legible, _⟩ name member stray
    exact stray.not_isName (legible name member)
  · intro free
    exact ⟨fun name member => (named.sayable name member).resolve_right (free name member), named.capacities⟩

/-- What is inferred for a program text, if all goes well. -/
def inferredFrom (text : String) (n : Nat) (o : Options) : Option (Program × Protocol) :=
  (Program.read text).result.toOption.bind fun p => (infer n p o).result.toOption.map fun protocol => (p, protocol)

theorem exists_of_inferredFrom {text : String} {P : Program × Protocol → Bool}
    (found : (inferredFrom text n o).any P = true) :
    ∃ p protocol, (Program.read text).result = .ok p ∧ (infer n p o).result = .ok protocol ∧
      P (p, protocol) = true := by
  unfold inferredFrom at found
  cases read : (Program.read text).result with
  | error e =>
    rw [read] at found
    exact nomatch found
  | ok p =>
    rw [read] at found
    cases inferred : (infer n p o).result with
    | error e => simp [Except.toOption, inferred] at found
    | ok protocol => exact ⟨p, protocol, rfl, inferred, by simpa [Except.toOption, inferred] using found⟩

/-- Sends without end. -/
def pumping : String := "func main.main()
block 0:
  ch: chan int = makechan 1
  jump 1
block 1 for.loop:
  send ch, 0
  jump 1
"

theorem pumping_text_valid : ∃ p protocol, (Program.read pumping).result = .ok p ∧
    (infer 100 p {}).result = .ok protocol ∧
    "main.main#1" ∈ protocol.names ∧ (∀ name ∈ protocol.names, ¬ Stray p name) ∧
    ∃ q, Protocol.read protocol.render = .ok q ∧ protocol.equivalent q = true := by
  have names : (inferredFrom pumping 100 {}).any fun found =>
      found.2.names.contains "main.main#1" && found.2.names.all isName := by decide +kernel
  obtain ⟨p, protocol, read, inferred, names⟩ := exists_of_inferredFrom names
  simp only [Bool.and_eq_true, contains_iff_mem, all_eq_true] at names
  have free : ∀ name ∈ protocol.names, ¬ Stray p name := fun name member stray =>
    stray.not_isName (names.2 name member)
  exact ⟨p, protocol, read, inferred, names.1, free, (inferred_text_valid_iff read inferred).2 free⟩

/-- A loop from -1 that can be left from its body too. -/
def breaking : String := "func main.main()
block 0:
  ch: chan int = makechan 1
  jump 1
block 1 for.loop:
  i: int = phi [0: -1, 2: t]
  c: bool = i < 1
  if c then 2 else 3
block 2 for.body:
  t: int = i + 1
  if true then 1 else 3
block 3 for.done:
  send ch, i
  return
"

/-- Leaving the loop in its first round leads to a routine whose name no text can have. -/
theorem breaking_text_invalid : ∃ p protocol, (Program.read breaking).result = .ok p ∧
    (infer 100 p {}).result = .ok protocol ∧ "main.main#3_-1" ∈ protocol.names ∧
    ¬ ∃ q, Protocol.read protocol.render = .ok q ∧ protocol.equivalent q = true := by
  have label : (inferredFrom breaking 100 {}).any fun found => found.2.names.contains "main.main#3_-1" := by
    decide +kernel
  obtain ⟨p, protocol, read, inferred, label⟩ := exists_of_inferredFrom label
  have written : "main.main#3_-1" ∈ protocol.names := by simpa using label
  have named := protocolNamed_of_infer (Program.spelled_of_read read) inferred
  refine ⟨p, protocol, read, inferred, written, fun valid => ?_⟩
  exact absurd (((readable_iff named.distinct).1 valid).1 _ written) (by decide)

end ChanFlow.Analysis
