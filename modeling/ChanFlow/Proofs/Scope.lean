import ChanFlow.Proofs.Construction
import ChanFlow.Proofs.Linked

/-!
The channels that a merge point is handed, and where they were created.

`Site` finds a statement in a list, with the channels that are in scope there: those created before it in its own
list and in the lists around it. A call of a merge point hands on the parameters of its routine and every channel of
the lists that are set aside. Most of these lists enclose the call, but not all of them: a side of a branch waits
while the other one is built, and so does what follows a select while its cases are built. `Site` keeps the channels
of these lists apart.
-/
open List

namespace ChanFlow.Protocol

open Routine

variable {before beside : List String} {cases rest : List (List Statement)} {slot : Nat}

/-- Where a statement stands in a list, at any depth. The first list of names holds the channels created before it,
the second one those created beside it: on the first side of a branch if it stands on the second one, and behind a
select if it stands in a case. -/
inductive Site (t : Statement) : List Statement → List String → List String → Prop
  | here {ss : List Statement} {i : Nat} (found : ss[i]? = some t) : Site t ss (created (ss.take i)) []
  | onTrue {ss a b : List Statement} {i : Nat} {before beside : List String} (found : ss[i]? = some (.branch a b))
    (inside : Site t a before beside) : Site t ss (created (ss.take i) ++ before) beside
  | onFalse {ss a b : List Statement} {i : Nat} {before beside : List String} (found : ss[i]? = some (.branch a b))
    (inside : Site t b before beside) : Site t ss (created (ss.take i) ++ before) (created a ++ beside)
  | case {ss body : List Statement} {cases : List (List Statement)} {i : Nat} {before beside : List String}
    (found : ss[i]? = some (.select cases)) (one : body ∈ cases) (inside : Site t body before beside) :
    Site t ss (created (ss.take i) ++ before) (created (ss.drop (i + 1)) ++ beside)

/-- Calls of merge points in a list are handed nothing but the given names and what their site has. -/
def Scoped (names : List String) (ss : List Statement) : Prop :=
  ∀ label args before beside, Site (.call label args) ss before beside → '#' ∈ label.toList →
    ∀ x ∈ args, x ∈ names ∨ x ∈ before ∨ x ∈ beside

/-- The same of a statement that is followed by others. -/
structure ScopedAt (names behind : List String) (s : Statement) : Prop where
  call : ∀ label args, s = .call label args → '#' ∈ label.toList → ∀ x ∈ args, x ∈ names
  onTrue : ∀ a b, s = .branch a b → Scoped names a
  onFalse : ∀ a b, s = .branch a b → Scoped (names ++ created a) b
  case : ∀ cases, s = .select cases → ∀ body ∈ cases, Scoped (names ++ behind) body

theorem created_append (ss ts : List Statement) : created (ss ++ ts) = created ss ++ created ts :=
  filterMap_append

theorem created_cons (s : Statement) (ss : List Statement) : created (s :: ss) = created [s] ++ created ss :=
  created_append [s] ss

section Scoped

variable {names names' behind behind' : List String} {s t : Statement} {ss ts : List Statement}

theorem Site.part (site : Site t ss before beside) : ∃ s ∈ ss, Part t s := by
  induction site with
  | here found => exact ⟨t, mem_of_getElem? found, .self⟩
  | onTrue found _ ih =>
    obtain ⟨s, inside, part⟩ := ih
    exact ⟨_, mem_of_getElem? found, .onTrue inside part⟩
  | onFalse found _ ih =>
    obtain ⟨s, inside, part⟩ := ih
    exact ⟨_, mem_of_getElem? found, .onFalse inside part⟩
  | case found one _ ih =>
    obtain ⟨s, inside, part⟩ := ih
    exact ⟨_, mem_of_getElem? found, .case one inside part⟩

theorem Site.cons (site : Site t ss before beside) (s : Statement) :
    Site t (s :: ss) (created [s] ++ before) beside := by
  have ahead (i : Nat) (rest : List String) :
      created [s] ++ (created (ss.take i) ++ rest) = created ((s :: ss).take (i + 1)) ++ rest := by
    rw [take_succ_cons, created_cons s (ss.take i), append_assoc]
  cases site with
  | @here _ i found =>
    have eq := ahead i []
    rw [append_nil, append_nil] at eq
    exact eq ▸ .here found
  | @onTrue _ _ _ i before _ found inside => exact ahead i before ▸ .onTrue found inside
  | @onFalse _ _ _ i before _ found inside => exact ahead i before ▸ .onFalse found inside
  | @case _ _ _ i before _ found one inside => exact ahead i before ▸ .case (i := i + 1) found one inside

theorem scoped_nil : Scoped names [] := by
  intro label args before beside site
  obtain ⟨s, inside, -⟩ := site.part
  exact nomatch inside

theorem Scoped.mono (covers : Scoped names ss) (more : names ⊆ names') : Scoped names' ss :=
  fun label args before beside site merge x handed => (covers label args before beside site merge x handed).imp_left
    fun member => more member

theorem ScopedAt.mono (stands : ScopedAt names behind s) (more : names ⊆ names') (further : behind ⊆ behind') :
    ScopedAt names' behind' s where
  call label args eq merge x handed := more (stands.call label args eq merge x handed)
  onTrue a b eq := (stands.onTrue a b eq).mono more
  onFalse a b eq := (stands.onFalse a b eq).mono (by grind)
  case cases eq body one := (stands.case cases eq body one).mono (by grind)

/-- A list goes by its first statement and the rest, for which the first one may have created a channel. -/
theorem scoped_cons : Scoped names (s :: ss) ↔ ScopedAt names (created ss) s ∧
    Scoped (names ++ created [s]) ss := by
  have ahead (i : Nat) : created ((s :: ss).take (i + 1)) = created [s] ++ created (ss.take i) := created_cons s _
  refine ⟨fun covers => ⟨⟨?_, ?_, ?_, ?_⟩, ?_⟩, ?_⟩
  · rintro label args rfl merge x handed
    simpa [created] using covers label args _ _ (.here (i := 0) rfl) merge x handed
  · rintro a b rfl label args before beside site merge x handed
    simpa [created] using covers label args _ _ (.onTrue (i := 0) rfl site) merge x handed
  · rintro a b rfl label args before beside site merge x handed
    have found := covers label args _ _ (.onFalse (i := 0) rfl site) merge x handed
    grind [created]
  · rintro cases rfl body one label args before beside site merge x handed
    have found := covers label args _ _ (.case (i := 0) rfl one site) merge x handed
    grind [created]
  · intro label args before beside site merge x handed
    have found := covers label args _ _ (site.cons s) merge x handed
    grind
  · rintro ⟨first, rest⟩ label args before beside site merge x handed
    -- The call stands in the first statement or in one of the others.
    cases site with
    | @here _ i found =>
      cases i with
      | zero =>
        obtain rfl := Option.some.inj found
        exact .inl (first.call label args rfl merge x handed)
      | succ i => grind [rest label args _ _ (.here found) merge x handed]
    | @onTrue _ a b i before _ found inside =>
      cases i with
      | zero =>
        obtain rfl := Option.some.inj found
        grind [first.onTrue a b rfl label args _ _ inside merge x handed]
      | succ i => grind [rest label args _ _ (.onTrue found inside) merge x handed]
    | @onFalse _ a b i before _ found inside =>
      cases i with
      | zero =>
        obtain rfl := Option.some.inj found
        grind [first.onFalse a b rfl label args _ _ inside merge x handed]
      | succ i => grind [rest label args _ _ (.onFalse found inside) merge x handed]
    | @case _ body cases i before _ found one inside =>
      cases i with
      | zero =>
        obtain rfl := Option.some.inj found
        grind [first.case cases rfl body one label args _ _ inside merge x handed]
      | succ i => grind [rest label args _ _ (.case found one inside) merge x handed]

theorem Scoped.append (first : Scoped names ss) (second : Scoped (names ++ created ss) ts) :
    Scoped names (ss ++ ts) := by
  induction ss generalizing names with
  | nil => exact second.mono (by simp [created])
  | cons s rest ih =>
    obtain ⟨head, tail⟩ := scoped_cons.1 first
    rw [created_cons, ← append_assoc] at second
    refine scoped_cons.2 ⟨head.mono (List.Subset.refl _) ?_, ih tail second⟩
    exact created_append rest ts ▸ subset_append_left _ _

theorem scoped_singleton : Scoped names [s] ↔ ScopedAt names [] s := by
  rw [scoped_cons]
  exact and_iff_left scoped_nil

/-- Statements that call nothing. -/
theorem scoped_of_silent (silent : ∀ s ∈ ss, s.callees = []) : Scoped names ss := by
  intro label args before beside site
  obtain ⟨s, inside, part⟩ := site.part
  simpa [silent s inside] using part.invokes_call.mem_callees

theorem scoped_call {label : String} {args : List String}
    (good : '#' ∈ label.toList → ∀ x ∈ args, x ∈ names) : Scoped names [.call label args] :=
  scoped_singleton.2
    { call := fun _ _ eq => by
        obtain ⟨rfl, rfl⟩ := Statement.call.inj eq
        exact good
      onTrue := nofun
      onFalse := nofun
      case := nofun }

/-! ### Building a list -/

theorem created_withoutTau (ss : List Statement) : created (Statement.withoutTau ss) = created ss := by
  induction ss with
  | nil => rfl
  | cons s rest ih =>
    rw [created_cons s rest, ← ih]
    cases s <;> simp [Statement.withoutTau, Statement.isTau, created]

section

variable (covers : Scoped names ss)
include covers

theorem Scoped.withoutTau : Scoped names (Statement.withoutTau ss) := by
  induction ss generalizing names with
  | nil => exact scoped_nil
  | cons s rest ih =>
    obtain ⟨head, tail⟩ := scoped_cons.1 covers
    unfold Statement.withoutTau
    rw [filter_cons]
    split
    · refine scoped_cons.2 ⟨?_, ih tail⟩
      exact (created_withoutTau rest).symm ▸ head
    · next dropped =>
      obtain rfl : s = .tau := by cases s <;> simp_all [Statement.isTau]
      exact ih (tail.mono (by simp [created]))

theorem Scoped.dropLast (last : ss.getLast? = some .tau) :
    Scoped names ss.dropLast ∧ created ss.dropLast = created ss := by
  obtain ⟨start, rfl⟩ := getLast?_eq_some_iff.1 last
  rw [dropLast_concat, created_append]
  refine ⟨?_, (append_nil _).symm⟩
  clear last
  induction start generalizing names with
  | nil => exact scoped_nil
  | cons s rest ih =>
    obtain ⟨head, tail⟩ := scoped_cons.1 covers
    have same : created (rest ++ [.tau]) = created rest := (created_append rest [.tau]).trans (append_nil _)
    exact scoped_cons.2 ⟨same ▸ head, ih tail⟩

/-- A statement goes to the end, where a `tau` gives way to it. -/
theorem Scoped.append_statement (last : Scoped (names ++ created ss) [s]) : Scoped names (Routine.append ss s) := by
  unfold Routine.append
  split
  · next tau =>
    obtain ⟨start, same⟩ := covers.dropLast tau
    exact start.append (same.symm ▸ last)
  · exact covers.append last

theorem Scoped.extendCase (more : Scoped names ts) : Scoped names (Routine.extendCase ss ts) := by
  have both : Scoped names (Statement.withoutTau ss ++ Statement.withoutTau ts) :=
    covers.withoutTau.append (more.withoutTau.mono (subset_append_left _ _))
  unfold Routine.extendCase
  split
  · exact scoped_of_silent (by simp [Statement.callees])
  · exact both

end

theorem created_set (here : ss[slot]? = some (.select cases))
    (cases' : List (List Statement)) : created (ss.set slot (.select cases')) = created ss := by
  induction ss generalizing slot with
  | nil => rfl
  | cons s rest ih =>
    cases slot with
    | zero =>
      obtain rfl := Option.some.inj here
      rfl
    | succ slot => rw [set_cons_succ, created_cons, ih here, ← created_cons]

/-- A case of a select in the list is extended, by statements that see all channels of the list. -/
theorem Scoped.set (covers : Scoped names ss)
    (here : ss[slot]? = some (.select cases)) (case : Nat) (body : Scoped (names ++ created ss) ts) :
    Scoped names (ss.set slot (.select (cases.modify case (Routine.extendCase · ts)))) := by
  induction ss generalizing names slot with
  | nil => exact nomatch here
  | cons s rest ih =>
    obtain ⟨head, tail⟩ := scoped_cons.1 covers
    cases slot with
    | zero =>
      obtain rfl := Option.some.inj here
      refine scoped_cons.2 ⟨⟨nofun, nofun, nofun, ?_⟩, tail⟩
      rintro _ ⟨⟩ body' one
      obtain ⟨old, member, rfl | rfl⟩ := mem_modify one
      · exact head.case cases rfl body' member
      · exact (head.case cases rfl old member).extendCase body
    | succ slot =>
      rw [created_cons, ← append_assoc] at body
      have tail' := ih tail here body
      refine scoped_cons.2 ⟨?_, tail'⟩
      have here : rest[slot]? = some (.select cases) := here
      exact (created_set here _).symm ▸ head

end Scoped

/-! ### Routines under construction -/

/-- Lists that were set aside, the last one first: each sees the channels of those set aside before it. -/
def Nested (names : List String) : List (List Statement) → Prop
  | [] => True
  | ss :: below => Scoped (names ++ below.flatMap created) ss ∧ Nested names below

/-- Calls of merge points in a routine under construction hand on its parameters and channels that it created. -/
def Routine.InScope (r : Routine) : Prop := Nested (r.params.map (·.callee)) (r.stmts :: r.waiting)

section InScope

variable {r r' : Routine}

/-- Every name that a merge point is handed is a parameter or was created in a list that is set aside. -/
theorem mem_continuationParams {x : String} (handed : x ∈ r.continuationParams.map (·.callee)) :
    x ∈ r.params.map (·.callee) ++ r.waiting.flatMap created ++ created r.stmts := by
  have grow (names : List String) (ps : List Parameter) :
      ∀ x ∈ (names.foldl (fun ps name => addParam ps (.same name)) ps).map (·.callee),
        x ∈ ps.map (·.callee) ∨ x ∈ names := by
    induction names generalizing ps with
    | nil => exact fun _ => .inl
    | cons name rest ih =>
      intro x member
      rcases ih _ x member with old | new
      · have old : x ∈ (addParam ps (.same name)).map (·.callee) := old
        unfold addParam at old
        split at old
        · exact .inl old
        · simp only [map_append, mem_append] at old
          refine old.imp_right fun own => ?_
          rw [mem_singleton.1 own]
          exact mem_cons_self
      · exact .inr (mem_cons_of_mem name new)
  rcases grow _ _ x handed with param | made
  · rw [map_map] at param
    exact mem_append_left _ (mem_append_left _ param)
  · rw [flatMap_append, mem_append] at made
    rcases made with waits | current
    · obtain ⟨ss, member, inside⟩ := mem_flatMap.1 waits
      exact mem_append_left _ (mem_append_right _
        (mem_flatMap.2 ⟨ss, mem_reverse.1 member, inside⟩))
    · exact mem_append_right _ (by simpa using current)

theorem inScope_of_empty (stmts : r.stmts = []) (waiting : r.waiting = []) : r.InScope := by
  rw [Routine.InScope, stmts, waiting]
  exact ⟨scoped_nil, trivial⟩

section

variable (inScope : r.InScope)
include inScope

theorem Routine.InScope.closed (waiting : r.waiting = []) : Scoped (r.params.map (·.callee)) r.stmts := by
  have fine := inScope.1
  rwa [waiting, flatMap_nil, append_nil] at fine

theorem Routine.InScope.addStatement {s : Statement}
    (last : Scoped (r.params.map (·.callee) ++ r.waiting.flatMap created ++ created r.stmts) [s]) :
    (r.addStatement s).InScope :=
  ⟨inScope.1.append_statement last, inScope.2⟩

theorem Routine.InScope.callMerge (label : String) :
    (r.addStatement (.call label (r.continuationParams.map (·.callee)))).InScope :=
  inScope.addStatement (scoped_call fun _ _ => mem_continuationParams)

/-- A call of a function may hand on any name. -/
theorem Routine.InScope.callFunction {name : String} (plain : '#' ∉ name.toList)
    (args : List String) : (r.addStatement (.call name args)).InScope :=
  inScope.addStatement (scoped_call fun merge => absurd merge plain)

theorem Routine.InScope.setAside : r.setAside.InScope :=
  ⟨scoped_nil, inScope⟩

theorem Routine.InScope.addBranch {t before : List Statement} (waits : r.waiting = t :: before :: rest) :
    (Routine.addBranch { r with stmts := before, waiting := rest } t r.stmts).InScope := by
  obtain ⟨onFalse, inside⟩ := inScope
  rw [waits] at inside onFalse
  obtain ⟨onTrue, below⟩ := inside
  have enclosing : Routine.InScope { r with stmts := before, waiting := rest } := below
  refine enclosing.addStatement ?_
  split
  · exact scoped_of_silent (by simp [Statement.callees])
  · refine scoped_singleton.2 ⟨nofun, ?_, ?_, nofun⟩
    · rintro _ _ ⟨⟩
      exact onTrue.mono (by grind)
    · rintro _ _ ⟨⟩
      exact onFalse.mono (by grind)

theorem Routine.InScope.extendCaseOf {before : List Statement} (waits : r.waiting = before :: rest) {case : Nat}
    (extended : Routine.extendCaseOf { r with stmts := before, waiting := rest } slot case r.stmts = .ok r') :
    r'.InScope := by
  obtain ⟨body, inside⟩ := inScope
  rw [waits] at inside body
  obtain ⟨cases, here, rfl⟩ := Routine.extendCaseOf_eq extended
  exact ⟨inside.1.set here case (body.mono (by grind)), inside.2⟩

end

end InScope

end ChanFlow.Protocol

namespace ChanFlow.Analysis

open Ssa Protocol

/-- Channels are handed on where they are known. -/
theorem construction_inScope {p : Program} (plain : ∀ f ∈ p.functions, '#' ∉ f.name.toList) :
    Construction p (fun _ _ => True) Routine.InScope where
  header _ := inScope_of_empty rfl rfl
  channels inScope elementary := inScope.addStatement (scoped_of_silent (by simpa using elementary.silent))
  merge _ _ _ _ inScope := ⟨inScope.callMerge _, inScope_of_empty rfl rfl⟩
  handOver _ known new := ⟨inScope_of_empty new.unbegun.stmts new.unbegun.waiting, fun inScope =>
    ⟨inScope.callFunction (plain _ known) _,
      inScope.addStatement (scoped_singleton.2 ⟨nofun, nofun, nofun, nofun⟩)⟩⟩
  setAside inScope := inScope.setAside
  addBranch inScope waits := inScope.addBranch waits
  extendCaseOf inScope waits extended := inScope.extendCaseOf waits extended

/-- Without clean-up, a call of a merge point in an inferred protocol hands on parameters of the routine it stands
in, channels created before it in its own list or in a list around it, and beyond these only channels of the lists
beside it. -/
theorem merge_arguments_scoped {p : Program} {o : Options} {budget : Nat} {protocol : Protocol}
    (plain : ∀ f ∈ p.functions, '#' ∉ f.name.toList) (keep : o.cleanUp = false)
    (inferred : (infer budget p o).result = .ok protocol) {r : Routine} (member : r ∈ protocol.routines)
    {label : String} {args before beside : List String} (merge : '#' ∈ label.toList)
    (site : Site (.call label args) r.stmts before beside) :
    ∀ x ∈ args, x ∈ r.params.map (·.callee) ∨ x ∈ before ∨ x ∈ beside := by
  obtain ⟨inScope, waiting⟩ :=
    (construction_inScope plain).of_unclean (inScope_of_empty rfl rfl) (fun _ _ _ => trivial) inferred keep r member
  exact inScope.closed waiting label args before beside site merge

/-! ### A channel of the other side -/

/-- Creates a channel before a branch and one on each side of it; the second side goes on with a loop. -/
def forking : Function := .closed "main.main" [
  .of 0 none [] [1, 2] [
    .define "all" .intChan (.makeChan (.int 1)),
    .define "c" .bool (.binary .lt (.int 0) (.int 1)),
    .perform (.branch (.var "c") 1 2)],
  .of 1 none [0] [] [
    .define "left" .intChan (.makeChan (.int 1)),
    .perform (.send (.var "left") (.int 1)),
    .perform (.ret [])],
  .of 2 none [0] [3] [
    .define "right" .intChan (.makeChan (.int 1)),
    .perform (.jump 3)],
  .of 3 (some "for.loop") [2, 4] [4, 5] [
    .define "d" .bool (.binary .lt (.int 0) (.int 1)),
    .perform (.branch (.var "d") 4 5)],
  .of 4 (some "for.body") [3] [3] [
    .perform (.jump 3)],
  .of 5 (some "for.done") [3] [] [.perform (.ret [])]]

def firstSide : List Statement := [.newChan "left" 1, .send "left"]

def secondSide : List Statement := [.newChan "right" 1, .call "main.main#3" ["all", "left", "right"]]

/-- The statements of the forking function: the call of the loop is handed channels of all three lists. -/
def forkingBody : List Statement := [.newChan "all" 1, .branch firstSide secondSide]

theorem site_forkingBody :
    Site (.call "main.main#3" ["all", "left", "right"]) forkingBody ["all", "right"] ["left"] := by
  have call : Site (.call "main.main#3" ["all", "left", "right"]) secondSide (Routine.created (secondSide.take 1)) [] :=
    .here rfl
  have found : forkingBody[1]? = some (.branch firstSide secondSide) := rfl
  exact .onFalse found call

theorem forking_inferred :
    ∃ protocol r, (infer 100 { functions := [forking] } { cleanUp := false }).result = .ok protocol ∧
      r ∈ protocol.routines ∧ r.params = [] ∧ r.stmts = forkingBody := by
  have first : ((infer 100 { functions := [forking] } { cleanUp := false }).result.toOption.bind
      (·.routines.head?)).map (fun r => (r.params, r.stmts)) = some ([], forkingBody) := by decide +kernel
  cases inferred : (infer 100 { functions := [forking] } { cleanUp := false }).result with
  | error halt => simp [inferred, Except.toOption] at first
  | ok protocol =>
    rw [inferred] at first
    obtain ⟨r, found, same⟩ := Option.map_eq_some_iff.1 first
    obtain ⟨params, stmts⟩ := Prod.mk.inj same
    exact ⟨protocol, r, rfl, mem_of_head? found, params, stmts⟩

theorem forking_scoped :
    ∃ protocol r, (infer 100 { functions := [forking] } { cleanUp := false }).result = .ok protocol ∧
      r ∈ protocol.routines ∧ r.stmts = forkingBody ∧
      ∀ x ∈ ["all", "left", "right"], x ∈ r.params.map (·.callee) ∨ x ∈ ["all", "right"] ∨
        x ∈ ["left"] := by
  obtain ⟨protocol, r, inferred, member, -, stmts⟩ := forking_inferred
  have plain : ∀ f ∈ [forking], '#' ∉ f.name.toList := by decide
  exact ⟨protocol, r, inferred, member, stmts, merge_arguments_scoped plain rfl inferred member
    (by decide : '#' ∈ "main.main#3".toList) (stmts ▸ site_forkingBody)⟩

/-- The loop is handed the channel of the first side on the second side, where it was never created. -/
theorem forking_left_unscoped :
    forking.Linked ∧ ∃ protocol r, (infer 100 { functions := [forking] } { cleanUp := false }).result =
      .ok protocol ∧ r ∈ protocol.routines ∧ ∃ label args before beside, '#' ∈ label.toList ∧
        Site (.call label args) r.stmts before beside ∧
        ∃ x ∈ args, x ∉ r.params.map (·.callee) ∧ x ∉ before := by
  obtain ⟨protocol, r, inferred, member, params, stmts⟩ := forking_inferred
  refine ⟨⟨forking.draft, rfl⟩, protocol, r, inferred, member, _, _, _, _, ?_,
    stmts ▸ site_forkingBody, "left", ?_⟩
  · decide
  · rw [params]
    decide

end ChanFlow.Analysis
