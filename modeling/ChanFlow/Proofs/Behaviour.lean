import ChanFlow.Proofs.CleanUp
import Mathlib.Data.Set.Basic

/-!
Runs of a protocol before and after a clean-up.

A run performs statements in order and is observed by its channel operations and its spawns. A routine that is
not vocal shows nothing but spawns of such routines, so leaving its calls out changes no trace, once the spawns
of routines that are not vocal are passed over. A clean-up can add traces: a removed routine that never comes to
an end no longer holds up its callers.

The entry stays even if it is not vocal. Its spawns count as silent all the same: the routine that performs one
may have been removed.
-/
open List

namespace ChanFlow.Protocol

open Statement

variable {r : Routine} {t e rest ss : List Statement} {s : Statement}

/-- What a run shows: an operation on a channel, or the spawn of a routine. -/
inductive Observation where
  | op (op : ChanOp)
  | spawn (routine : String) (args : List String)
deriving DecidableEq, Repr

/-- Complete runs of a list of statements, with what they show. The call of an unknown routine does nothing. -/
inductive Performs (p : Protocol) : List Statement → List Observation → Prop
  | done : Performs p [] []
  | op {rest : List Statement} {obs : List Observation} (op : ChanOp) (next : Performs p rest obs) :
    Performs p (op.statement :: rest) (.op op :: obs)
  | spawn {name : String} {args : List String} {rest : List Statement} {obs : List Observation}
    (next : Performs p rest obs) : Performs p (.spawn name args :: rest) (.spawn name args :: obs)
  | tau {rest : List Statement} {obs : List Observation} (next : Performs p rest obs) : Performs p (.tau :: rest) obs
  | onTrue {t e rest : List Statement} {first obs : List Observation} (side : Performs p t first)
    (next : Performs p rest obs) : Performs p (.branch t e :: rest) (first ++ obs)
  | onFalse {t e rest : List Statement} {first obs : List Observation} (side : Performs p e first)
    (next : Performs p rest obs) : Performs p (.branch t e :: rest) (first ++ obs)
  | case {cases : List (List Statement)} {body rest : List Statement} {first obs : List Observation}
    (one : body ∈ cases) (side : Performs p body first) (next : Performs p rest obs) :
    Performs p (.select cases :: rest) (first ++ obs)
  | call {name : String} {args : List String} {r : Routine} {rest : List Statement} {first obs : List Observation}
    (known : p.routine? name = some r) (body : Performs p r.stmts first) (next : Performs p rest obs) :
    Performs p (.call name args :: rest) (first ++ obs)
  | skip {name : String} {args : List String} {rest : List Statement} {obs : List Observation}
    (unknown : p.routine? name = none) (next : Performs p rest obs) : Performs p (.call name args :: rest) obs

/-- Spawns count if their routine does. -/
def Observation.shown (counts : String → Bool) : Observation → Bool
  | op _ => true
  | spawn name _ => counts name

/-- The traces of the complete runs of a routine, without the spawns that do not count. -/
def traces (p : Protocol) (counts : String → Bool) (r : Routine) : Set (List Observation) :=
  { trace | ∃ obs, Performs p r.stmts obs ∧ obs.filter (Observation.shown counts) = trace }

/-- The spawns that count in a clean-up: those of routines that are left, and not for being the entry only. -/
def counted (p : Protocol) (entry name : String) : Bool :=
  ((p.cleanUp entry).routine? name).isSome && (name ≠ entry || p.Vocal entry)

section Lookup

variable {p : Protocol} {entry name : String}

theorem routine?_cleanUp (p : Protocol) (entry name : String) :
    (p.cleanUp entry).routine? name = if p.Kept entry name then (p.routine? name).map (p.thin entry) else none := by
  have same : ((fun r : Routine => decide (r.name = name)) ∘ p.thin entry) = fun r => decide (r.name = name) := rfl
  rw [routine?, routines_cleanUp, find?_map, same, find?_filter]
  split
  · next kept =>
    congr 2
    funext r
    by_cases eq : r.name = name <;> simp [eq, kept]
  · next gone =>
    rw [Option.map_eq_none_iff, find?_eq_none]
    intro r _ found
    obtain ⟨kept, rfl⟩ : p.Kept entry r.name ∧ r.name = name := by simpa using found
    exact gone kept

theorem routine_mem (found : p.routine? name = some r) : r ∈ p.routines ∧ r.name = name :=
  ⟨mem_of_find?_eq_some found, by simpa using find?_some found⟩

theorem isSome_routine? (inside : r ∈ p.routines) : (p.routine? r.name).isSome = true := by
  rw [routine?, find?_isSome]
  exact ⟨r, inside, by simp⟩

/-- The spawns that count are those of vocal routines. -/
theorem counted_eq (p : Protocol) (entry : String) : p.counted entry = fun name => decide (p.Vocal name) := by
  funext name
  rw [Bool.eq_iff_iff, decide_eq_true_iff, counted, routine?_cleanUp]
  constructor
  · intro counts
    by_cases kept : p.Kept entry name
    · rcases kept with rfl | vocal
      · simpa using (Bool.and_eq_true_iff.1 counts).2
      · exact vocal
    · simp [kept] at counts
  · intro vocal
    obtain ⟨r, inside, named⟩ := vocal.exists_routine
    have there : (p.routine? name).isSome = true := named ▸ isSome_routine? inside
    have kept : p.Kept entry name := .inr vocal
    by_cases eq : name = entry
    · subst eq
      simp [kept, there, vocal]
    · simp [kept, there, eq]

end Lookup

/-- A run as others can tell it: without the spawns of routines that are not vocal. -/
def audible (p : Protocol) (obs : List Observation) : List Observation :=
  obs.filter (Observation.shown fun name => p.Vocal name)

section Silence

variable {p : Protocol}

theorem audible_append (before after : List Observation) :
    p.audible (before ++ after) = p.audible before ++ p.audible after := filter_append before after

variable {obs : List Observation}

theorem audible_cons (first : Observation) {obs' : List Observation} (same : p.audible obs' = p.audible obs) :
    p.audible (first :: obs') = p.audible (first :: obs) := by
  unfold audible at same ⊢
  rw [filter_cons, filter_cons, same]

theorem audible_both {first first' obs' : List Observation} (sameFirst : p.audible first' = p.audible first)
    (same : p.audible obs' = p.audible obs) : p.audible (first' ++ obs') = p.audible (first ++ obs) := by
  rw [audible_append, audible_append, sameFirst, same]

theorem audible_spawn {name : String} (silent : ¬p.Vocal name) (args : List String) (obs : List Observation) :
    p.audible (.spawn name args :: obs) = p.audible obs :=
  filter_cons_of_neg (by simp [Observation.shown, silent])

/-- Statements that use no channel and name no vocal routine. -/
def Hushed (p : Protocol) (ss : List Statement) : Prop :=
  ∀ s ∈ ss, ¬Communicates s ∧ ∀ name args, Invokes s name args → ¬p.Vocal name

theorem hushed_stmts (inside : r ∈ p.routines) (silent : ¬p.Vocal r.name) : p.Hushed r.stmts :=
  fun _ one => ⟨fun uses => silent (.here inside one uses),
    fun _ _ invokes vocal => silent (.through inside one invokes vocal)⟩

theorem Hushed.onTrue (hushed : p.Hushed (.branch t e :: rest)) : p.Hushed t := by
  obtain ⟨quiet, names⟩ := hushed _ mem_cons_self
  exact fun s inside => ⟨fun uses => quiet (.onTrue inside uses),
    fun name args invokes => names name args (.onTrue inside invokes)⟩

theorem Hushed.onFalse (hushed : p.Hushed (.branch t e :: rest)) : p.Hushed e := by
  obtain ⟨quiet, names⟩ := hushed _ mem_cons_self
  exact fun s inside => ⟨fun uses => quiet (.onFalse inside uses),
    fun name args invokes => names name args (.onFalse inside invokes)⟩

theorem Hushed.tail (hushed : p.Hushed (s :: rest)) : p.Hushed rest :=
  fun s' inside => hushed s' (mem_cons_of_mem s inside)

theorem ChanOp.communicates (op : ChanOp) : Communicates op.statement := by
  cases op <;> constructor

/-- Nothing is heard of statements that are hushed. -/
theorem Performs.audible_eq_nil (performs : Performs p ss obs) (hushed : p.Hushed ss) : p.audible obs = [] := by
  induction performs with
  | done => rfl
  | op op => exact absurd (ChanOp.communicates op) (hushed _ mem_cons_self).1
  | spawn _ ih =>
    rw [audible_spawn ((hushed _ mem_cons_self).2 _ _ .spawn)]
    exact ih hushed.tail
  | tau _ ih => exact ih hushed.tail
  | onTrue _ _ side next => rw [audible_append, side hushed.onTrue, next hushed.tail, append_nil]
  | onFalse _ _ side next => rw [audible_append, side hushed.onFalse, next hushed.tail, append_nil]
  | case => exact absurd .select (hushed _ mem_cons_self).1
  | call known _ _ body next =>
    obtain ⟨inside, rfl⟩ := routine_mem known
    have silent := (hushed _ mem_cons_self).2 _ _ .call
    rw [audible_append, body (hushed_stmts inside silent), next hushed.tail, append_nil]
  | skip _ _ ih => exact ih hushed.tail

end Silence

section Simulation

variable {p : Protocol} {entry : String}

/-- The statements that a clean-up leaves. -/
def left (p : Protocol) (entry : String) (ss : List Statement) : List Statement :=
  restrictAll (fun name => p.Kept entry name) ss

theorem left_op (op : ChanOp) (rest : List Statement) :
    p.left entry (op.statement :: rest) = op.statement :: p.left entry rest := by
  cases op <;> simp [left, ChanOp.statement, restrictAll, targets, restrict]

theorem left_tau (rest : List Statement) : p.left entry (.tau :: rest) = .tau :: p.left entry rest := by
  simp [left, restrictAll, targets, restrict]

theorem left_call (name : String) (args : List String) (rest : List Statement) :
    p.left entry (.call name args :: rest) =
      if p.Kept entry name then .call name args :: p.left entry rest else p.left entry rest := by
  simp [left, restrictAll, targets, restrict]

theorem left_spawn (name : String) (args : List String) (rest : List Statement) :
    p.left entry (.spawn name args :: rest) =
      if p.Kept entry name then .spawn name args :: p.left entry rest else p.left entry rest := by
  simp [left, restrictAll, targets, restrict]

theorem left_branch (t e rest : List Statement) :
    p.left entry (.branch t e :: rest) = .branch (p.left entry t) (p.left entry e) :: p.left entry rest := by
  simp [left, restrictAll, targets, restrict]

theorem left_select (cases : List (List Statement)) (rest : List Statement) :
    p.left entry (.select cases :: rest) = .select (cases.map (p.left entry)) :: p.left entry rest := by
  have each : p.left entry = restrictAll (fun name => p.Kept entry name) := rfl
  simp [each, restrictAll, targets, restrict, restrictCases_eq]

/-- Every run has a counterpart in the cleaned protocol: the calls that are gone were not heard. -/
theorem Performs.cleanUp (performs : Performs p ss obs) (entry : String) :
    ∃ obs', Performs (p.cleanUp entry) (p.left entry ss) obs' ∧ p.audible obs' = p.audible obs := by
  induction performs with
  | done => exact ⟨[], .done, rfl⟩
  | op op _ ih =>
    obtain ⟨obs', performs, same⟩ := ih
    rw [left_op]
    exact ⟨.op op :: obs', performs.op op, audible_cons _ same⟩
  | @spawn name args _ _ _ ih =>
    obtain ⟨obs', performs, same⟩ := ih
    rw [left_spawn]
    by_cases kept : p.Kept entry name
    · rw [if_pos kept]
      exact ⟨.spawn name args :: obs', performs.spawn, audible_cons _ same⟩
    · rw [if_neg kept, audible_spawn fun vocal => kept (.inr vocal)]
      exact ⟨obs', performs, same⟩
  | tau _ ih =>
    obtain ⟨obs', performs, same⟩ := ih
    rw [left_tau]
    exact ⟨obs', performs.tau, same⟩
  | onTrue _ _ side next =>
    obtain ⟨first', side, sameFirst⟩ := side
    obtain ⟨obs', next, same⟩ := next
    rw [left_branch]
    exact ⟨first' ++ obs', .onTrue side next, audible_both sameFirst same⟩
  | onFalse _ _ side next =>
    obtain ⟨first', side, sameFirst⟩ := side
    obtain ⟨obs', next, same⟩ := next
    rw [left_branch]
    exact ⟨first' ++ obs', .onFalse side next, audible_both sameFirst same⟩
  | case one _ _ side next =>
    obtain ⟨first', side, sameFirst⟩ := side
    obtain ⟨obs', next, same⟩ := next
    rw [left_select]
    exact ⟨first' ++ obs', .case (mem_map_of_mem one) side next, audible_both sameFirst same⟩
  | @call name args r _ _ _ known performed _ body next =>
    obtain ⟨first', body, sameFirst⟩ := body
    obtain ⟨obs', next, same⟩ := next
    rw [left_call]
    by_cases kept : p.Kept entry name
    · have found : (p.cleanUp entry).routine? name = some (p.thin entry r) := by
        rw [routine?_cleanUp, if_pos kept, known, Option.map_some]
      rw [if_pos kept]
      exact ⟨first' ++ obs', .call found body next, audible_both sameFirst same⟩
    · -- The call is gone, and nothing of what it performed was heard.
      obtain ⟨inside, rfl⟩ := routine_mem known
      have unheard := performed.audible_eq_nil (hushed_stmts inside fun vocal => kept (.inr vocal))
      rw [if_neg kept]
      exact ⟨obs', next, by rw [audible_append, unheard, nil_append, same]⟩
  | @skip name args _ _ unknown _ ih =>
    obtain ⟨obs', performs, same⟩ := ih
    rw [left_call]
    by_cases kept : p.Kept entry name
    · have missing : (p.cleanUp entry).routine? name = none := by
        rw [routine?_cleanUp, if_pos kept, unknown, Option.map_none]
      rw [if_pos kept]
      exact ⟨obs', performs.skip missing, same⟩
    · rw [if_neg kept]
      exact ⟨obs', performs, same⟩

/-- Where every routine that is gone has a complete run. -/
def Unblocked (p : Protocol) (entry : String) : Prop :=
  ∀ r ∈ p.routines, (p.cleanUp entry).routine? r.name = none → ∃ obs, Performs p r.stmts obs

/-- Statements that a clean-up drops can be put back in front of a run without being heard. -/
theorem Performs.putBack (unblocked : p.Unblocked entry) {dropped : List Statement}
    (performs : Performs p rest obs) (gone : ∀ s ∈ dropped, ¬s.targets (fun name => p.Kept entry name) = true) :
    ∃ obs', Performs p (dropped ++ rest) obs' ∧ p.audible obs' = p.audible obs := by
  induction dropped with
  | nil => exact ⟨obs, performs, rfl⟩
  | cons s dropped ih =>
    obtain ⟨goes, others⟩ := forall_mem_cons.1 gone
    obtain ⟨obs', performs', same⟩ := ih others
    cases s with
    | newChan | send | recv | close | branch | select | tau => exact absurd rfl goes
    | spawn name args =>
      have silent : ¬p.Vocal name := fun vocal => goes (decide_eq_true (.inr vocal))
      exact ⟨_, performs'.spawn, by rw [audible_spawn silent, same]⟩
    | call name args =>
      have gone : ¬p.Kept entry name := fun kept => goes (decide_eq_true kept)
      cases known : p.routine? name with
      | none => exact ⟨obs', performs'.skip known, same⟩
      | some r =>
        obtain ⟨inside, rfl⟩ := routine_mem known
        obtain ⟨first, body⟩ := unblocked r inside (by rw [routine?_cleanUp, if_neg gone])
        have unheard := body.audible_eq_nil (hushed_stmts inside fun vocal => gone (.inr vocal))
        exact ⟨first ++ obs', .call known body performs', by rw [audible_append, unheard, nil_append, same]⟩

/-- What is dropped in front of the first statement that is left is put back. -/
theorem uncover (unblocked : p.Unblocked entry) (eq : p.left entry ss = s :: rest)
    (performs : ∀ s' rest', s'.targets (fun name => p.Kept entry name) = true →
      s'.restrict (fun name => p.Kept entry name) = s → p.left entry rest' = rest →
      ∃ obs', Performs p (s' :: rest') obs' ∧ p.audible obs' = p.audible obs) :
    ∃ obs', Performs p ss obs' ∧ p.audible obs' = p.audible obs := by
  rw [left, restrictAll_eq, map_eq_cons_iff] at eq
  obtain ⟨s', kept, found, rfl, rfl⟩ := eq
  obtain ⟨dropped, rest', rfl, gone, stays, rfl⟩ := filter_eq_cons_iff.1 found
  obtain ⟨obs', performs, same⟩ := performs s' rest' stays rfl (restrictAll_eq _ _)
  obtain ⟨whole, performs, back⟩ := performs.putBack unblocked gone
  exact ⟨whole, performs, back.trans same⟩

theorem left_eq_nil (eq : p.left entry ss = []) : ∀ d ∈ ss, ¬d.targets (fun name => p.Kept entry name) = true := by
  rw [left, restrictAll_eq, map_eq_nil_iff, filter_eq_nil_iff] at eq
  exact eq

theorem restrict_eq_op {keep : String → Bool} {op : ChanOp} (eq : s.restrict keep = op.statement) :
    s = op.statement := by
  cases s <;> cases op <;> simp_all [restrict, ChanOp.statement]

/-- Every run of the cleaned protocol comes from one before, if no routine that is gone blocks its callers. -/
theorem Performs.of_cleanUp (unblocked : p.Unblocked entry)
    (performs : Performs (p.cleanUp entry) (p.left entry ss) obs) :
    ∃ obs', Performs p ss obs' ∧ p.audible obs' = p.audible obs := by
  generalize eq : p.left entry ss = remaining at performs
  -- The run is one of what is left, so the statements dropped before each of its steps are to be put back.
  induction performs generalizing ss with
  | done =>
    have empty := Performs.putBack unblocked .done (left_eq_nil eq)
    rwa [append_nil] at empty
  | op op _ ih =>
    refine uncover unblocked eq fun s rest _ same further => ?_
    obtain rfl := restrict_eq_op same
    obtain ⟨obs', performs, heard⟩ := ih further
    exact ⟨_, performs.op op, audible_cons _ heard⟩
  | spawn _ ih =>
    refine uncover unblocked eq fun s rest _ same further => ?_
    obtain ⟨obs', performs, heard⟩ := ih further
    cases s <;> simp only [restrict, reduceCtorEq] at same
    obtain ⟨rfl, rfl⟩ := Statement.spawn.inj same
    exact ⟨_, performs.spawn, audible_cons _ heard⟩
  | tau _ ih =>
    refine uncover unblocked eq fun s rest _ same further => ?_
    obtain ⟨obs', performs, heard⟩ := ih further
    cases s <;> simp only [restrict, reduceCtorEq] at same
    exact ⟨_, performs.tau, heard⟩
  | onTrue _ _ side next =>
    refine uncover unblocked eq fun s rest _ same further => ?_
    cases s <;> simp only [restrict, reduceCtorEq] at same
    obtain ⟨rfl, rfl⟩ := Statement.branch.inj same
    obtain ⟨first', side, sameFirst⟩ := side rfl
    obtain ⟨obs', next, heard⟩ := next further
    exact ⟨_, .onTrue side next, audible_both sameFirst heard⟩
  | onFalse _ _ side next =>
    refine uncover unblocked eq fun s rest _ same further => ?_
    cases s <;> simp only [restrict, reduceCtorEq] at same
    obtain ⟨rfl, rfl⟩ := Statement.branch.inj same
    obtain ⟨first', side, sameFirst⟩ := side rfl
    obtain ⟨obs', next, heard⟩ := next further
    exact ⟨_, .onFalse side next, audible_both sameFirst heard⟩
  | case one _ _ side next =>
    refine uncover unblocked eq fun s rest _ same further => ?_
    cases s <;> simp only [restrict, reduceCtorEq] at same
    obtain rfl := Statement.select.inj same
    obtain ⟨body, whole, rfl⟩ := mem_restrictCases one
    obtain ⟨first', side, sameFirst⟩ := side rfl
    obtain ⟨obs', next, heard⟩ := next further
    exact ⟨_, .case whole side next, audible_both sameFirst heard⟩
  | @call name _ _ _ _ _ known _ _ body next =>
    refine uncover unblocked eq fun s rest stays same further => ?_
    cases s <;> simp only [restrict, reduceCtorEq] at same
    obtain ⟨rfl, rfl⟩ := Statement.call.inj same
    have kept : p.Kept entry _ := of_decide_eq_true stays
    rw [routine?_cleanUp, if_pos kept] at known
    obtain ⟨r, found, rfl⟩ := Option.map_eq_some_iff.1 known
    obtain ⟨first', body, sameFirst⟩ := body rfl
    obtain ⟨obs', next, heard⟩ := next further
    exact ⟨_, .call found body next, audible_both sameFirst heard⟩
  | skip unknown _ ih =>
    refine uncover unblocked eq fun s rest stays same further => ?_
    cases s <;> simp only [restrict, reduceCtorEq] at same
    obtain ⟨rfl, rfl⟩ := Statement.call.inj same
    have kept : p.Kept entry _ := of_decide_eq_true stays
    rw [routine?_cleanUp, if_pos kept] at unknown
    obtain ⟨obs', performs, heard⟩ := ih further
    exact ⟨_, performs.skip (Option.map_eq_none_iff.1 unknown), heard⟩

/-- Every trace of a routine that is left is one of what is left of it, and there are no others unless a routine
that is gone blocks its callers. Spawns of an entry that can never use a channel do not count. -/
theorem traces_cleanUp (p : Protocol) (entry : String) {name : String} {r r' : Routine}
    (before : p.routine? name = some r) (after : (p.cleanUp entry).routine? name = some r') :
    p.traces (p.counted entry) r ⊆ (p.cleanUp entry).traces (p.counted entry) r' ∧
      (p.Unblocked entry → p.traces (p.counted entry) r = (p.cleanUp entry).traces (p.counted entry) r') := by
  have kept : r' = p.thin entry r := by
    rw [routine?_cleanUp, before] at after
    split at after
    · exact (Option.some.inj after).symm
    · exact nomatch after
  subst kept
  rw [counted_eq]
  have forth : p.traces (fun name => p.Vocal name) r ⊆
      (p.cleanUp entry).traces (fun name => p.Vocal name) (p.thin entry r) := by
    rintro trace ⟨obs, performs, rfl⟩
    obtain ⟨obs', performs', same⟩ := performs.cleanUp entry
    exact ⟨obs', performs', same⟩
  refine ⟨forth, fun unblocked => Set.Subset.antisymm forth ?_⟩
  rintro trace ⟨obs, performs, rfl⟩
  obtain ⟨obs', performs', same⟩ := Performs.of_cleanUp unblocked performs
  exact ⟨obs', performs', same⟩

end Simulation

/-- The entry calls a routine that spawns it again, and neither uses a channel. -/
def respawn : Protocol :=
  ⟨[{ name := "main.main", stmts := [.call "main.again" []] },
    { name := "main.again", stmts := [.spawn "main.main" []] }]⟩

/-- With every spawn of a routine that is left counted, a clean-up does lose traces: the entry is left, and the
routine that spawns it is not. -/
theorem spawn_of_entry_lost :
    ∃ r r', respawn.routine? "main.main" = some r ∧ (respawn.cleanUp "main.main").routine? "main.main" = some r' ∧
      ¬respawn.traces (fun name => ((respawn.cleanUp "main.main").routine? name).isSome) r ⊆
        (respawn.cleanUp "main.main").traces
          (fun name => ((respawn.cleanUp "main.main").routine? name).isSome) r' := by
  refine ⟨{ name := "main.main", stmts := [.call "main.again" []] },
    { name := "main.main" }, by decide, by decide, ?_⟩
  intro subset
  have again : Performs respawn [.call "main.again" []] ([.spawn "main.main" []] ++ []) :=
    .call (r := { name := "main.again", stmts := [.spawn "main.main" []] }) (by decide) (.spawn .done) .done
  obtain ⟨obs, performs, shown⟩ := subset ⟨_, again, rfl⟩
  obtain rfl : obs = [] := by
    cases performs
    rfl
  exact absurd shown (by decide)

/-- A round of work is logged, and then sends and goes on or receives and ends. -/
def work : Routine where
  name := "main.work"
  params := [.same "c"]
  stmts := [.call "main.log" [], .select [[.send "c", .call "main.work" ["c"]], [.recv "c"]]]

/-- The routine for logging uses no channel. -/
def worker : Protocol :=
  ⟨[{ name := "main.main", stmts := [.newChan "c" 1, .call "main.work" ["c"], .spawn "main.log" []] }, work,
    { name := "main.log", stmts := [.branch [.call "main.log" []] [.tau]] }]⟩

/-- Without its log the worker has the traces it had. -/
theorem traces_worker :
    worker.routine? "main.work" = some work ∧
      (worker.cleanUp "main.main").routine? "main.work" = some { work with stmts := work.stmts.tail } ∧
      worker.Unblocked "main.main" ∧
      worker.traces (worker.counted "main.main") work =
        (worker.cleanUp "main.main").traces (worker.counted "main.main") { work with stmts := work.stmts.tail } := by
  have before : worker.routine? "main.work" = some work := by decide
  have after : (worker.cleanUp "main.main").routine? "main.work" = some { work with stmts := work.stmts.tail } := by
    decide
  have unblocked : worker.Unblocked "main.main" := by
    intro r inside gone
    simp only [worker, mem_cons, not_mem_nil, or_false] at inside
    rcases inside with rfl | rfl | rfl
    · exact absurd gone (by decide)
    · exact absurd gone (by decide)
    · exact ⟨[] ++ [], .onFalse (.tau .done) .done⟩
  exact ⟨before, after, unblocked, (traces_cleanUp worker "main.main" before after).2 unblocked⟩

end ChanFlow.Protocol
