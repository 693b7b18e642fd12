import ChanFlow.Proofs.Invocations
import ChanFlow.Proofs.Traces
import Mathlib.Data.List.Perm.Subperm

/-!
What cleaning up removes.

A routine is vocal if a chain of calls and spawns leads from it to a routine that uses a channel. The names
collected are those of the vocal routines (`mem_communicating`): each round but the last adds a name, so the
rounds end in a set that is closed under "names a routine of the set".

Dropping the calls and spawns of routines that are not kept leaves every chain to a vocal routine as it is,
so the cleaned protocol has the same vocal routines, and cleaning it up again changes nothing.
-/
open List

namespace ChanFlow.Protocol

open Statement

variable {s : Statement} {ss : List Statement} {name : String} {r : Routine} {args : List String}

/-- A statement that uses a channel itself. -/
inductive Communicates : Statement → Prop
  | newChan {name : String} {capacity : Int} : Communicates (.newChan name capacity)
  | send {chan : String} : Communicates (.send chan)
  | recv {chan : String} : Communicates (.recv chan)
  | close {chan : String} : Communicates (.close chan)
  | select {cases : List (List Statement)} : Communicates (.select cases)
  | onTrue {t e : List Statement} {s : Statement} (inside : s ∈ t) (uses : Communicates s) :
    Communicates (.branch t e)
  | onFalse {t e : List Statement} {s : Statement} (inside : s ∈ e) (uses : Communicates s) :
    Communicates (.branch t e)

mutual

theorem communicates_of_eq_true : (s : Statement) → s.communicates = true → Communicates s
  | .newChan .., _ => .newChan
  | .send _, _ => .send
  | .recv _, _ => .recv
  | .close _, _ => .close
  | .select _, _ => .select
  | .branch t e, uses => by
    rw [communicates, Bool.or_eq_true] at uses
    rcases uses with uses | uses
    · obtain ⟨s, inside, uses⟩ := exists_of_anyCommunicates t uses
      exact .onTrue inside uses
    · obtain ⟨s, inside, uses⟩ := exists_of_anyCommunicates e uses
      exact .onFalse inside uses
  | .call .., uses | .spawn .., uses | .tau, uses => by simp [communicates] at uses

theorem exists_of_anyCommunicates :
    (ss : List Statement) → anyCommunicates ss = true → ∃ s ∈ ss, Communicates s
  | [], uses => by simp [anyCommunicates] at uses
  | s :: ss, uses => by
    rw [anyCommunicates, Bool.or_eq_true] at uses
    rcases uses with uses | uses
    · exact ⟨s, mem_cons_self, communicates_of_eq_true s uses⟩
    · obtain ⟨s', inside, uses⟩ := exists_of_anyCommunicates ss uses
      exact ⟨s', mem_cons_of_mem s inside, uses⟩

end

theorem anyCommunicates_of_mem (inside : s ∈ ss) (uses : s.communicates = true) :
    anyCommunicates ss = true := by
  induction ss with
  | nil => exact nomatch inside
  | cons first rest ih =>
    rw [anyCommunicates, Bool.or_eq_true]
    rcases mem_cons.1 inside with rfl | inside
    · exact .inl uses
    · exact .inr (ih inside)

theorem Communicates.eq_true (uses : Communicates s) : s.communicates = true := by
  induction uses with
  | newChan | send | recv | close | select => simp [communicates]
  | onTrue inside _ ih => simp [communicates, anyCommunicates_of_mem inside ih]
  | onFalse inside _ ih => simp [communicates, anyCommunicates_of_mem inside ih]

/-- The names of routines from which a chain of calls and spawns leads to one that uses a channel. -/
inductive Vocal (p : Protocol) : String → Prop
  | here {r : Routine} {s : Statement} (inside : r ∈ p.routines) (one : s ∈ r.stmts) (uses : Communicates s) :
    Vocal p r.name
  | through {r : Routine} {s : Statement} {name : String} {args : List String} (inside : r ∈ p.routines)
    (one : s ∈ r.stmts) (invokes : Invokes s name args) (further : Vocal p name) : Vocal p r.name

theorem Vocal.exists_routine {p : Protocol} (vocal : p.Vocal name) : ∃ r ∈ p.routines, r.name = name := by
  cases vocal with
  | here inside => exact ⟨_, inside, rfl⟩
  | through inside => exact ⟨_, inside, rfl⟩

section Collecting

variable {p : Protocol} {names : List String}

/-- Whether a routine uses a channel or names one that is collected. -/
def Joins (names : List String) (r : Routine) : Bool := r.communicates || r.callees.any names.contains

theorem joins_iff : Joins names r = true ↔
    (∃ s ∈ r.stmts, Communicates s) ∨ ∃ s ∈ r.stmts, ∃ name args, Invokes s name args ∧
    name ∈ names := by
  rw [Joins, Bool.or_eq_true, any_eq_true]
  constructor
  · rintro (uses | ⟨name, callee, known⟩)
    · exact .inl (exists_of_anyCommunicates _ uses)
    · obtain ⟨s, one, args, invokes⟩ := exists_invokes_all _ callee
      exact .inr ⟨s, one, name, args, invokes, contains_iff_mem.1 known⟩
  · rintro (⟨s, one, uses⟩ | ⟨s, one, name, args, invokes, known⟩)
    · exact .inl (anyCommunicates_of_mem one uses.eq_true)
    · exact .inr ⟨name, callees_subset one invokes.mem_callees, contains_iff_mem.2 known⟩

theorem joins_mono {names more : List String} (subset : names ⊆ more) (joins : Joins names r = true) :
    Joins more r = true := by
  rw [joins_iff] at joins ⊢
  rcases joins with uses | ⟨s, one, name, args, invokes, known⟩
  · exact .inl uses
  · exact .inr ⟨s, one, name, args, invokes, subset known⟩

/-- One routine's turn in a round of collecting. -/
def joined (r : Routine) (names : List String) : List String :=
  if names.contains r.name then names else if Joins names r then r.name :: names else names

theorem collectOnce_eq (p : Protocol) (names : List String) :
    p.collectOnce names = p.routines.foldr joined names := rfl

theorem suffix_joined (r : Routine) (names : List String) : names <:+ joined r names := by
  unfold joined
  split
  · exact suffix_rfl
  · split
    · exact suffix_cons r.name names
    · exact suffix_rfl

theorem suffix_foldr (rs : List Routine) (names : List String) : names <:+ rs.foldr joined names := by
  induction rs with
  | nil => exact suffix_rfl
  | cons r rest ih => exact ih.trans (suffix_joined r _)

theorem mem_joined (joins : Joins names r = true) : r.name ∈ joined r names := by
  unfold joined
  split
  · next known => exact contains_iff_mem.1 known
  · exact mem_cons_self

/-- A round collects whatever joins the names it starts with. -/
theorem mem_foldr {rs : List Routine} (inside : r ∈ rs) (joins : Joins names r = true) :
    r.name ∈ rs.foldr joined names := by
  induction rs with
  | nil => exact nomatch inside
  | cons first rest ih =>
    rcases mem_cons.1 inside with rfl | inside
    · -- Its turn comes after the routines behind it, and those only add names.
      exact mem_joined (joins_mono (suffix_foldr rest names).subset joins)
    · exact (suffix_joined first _).subset (ih inside)

/-- The names of vocal routines, each once. -/
structure Collected (p : Protocol) (names : List String) : Prop where
  vocal : ∀ name ∈ names, p.Vocal name
  nodup : names.Nodup

theorem Collected.joined (collected : Collected p names) (inside : r ∈ p.routines) :
    Collected p (joined r names) := by
  unfold Protocol.joined
  split
  · exact collected
  · next fresh =>
    split
    · next joins =>
      have vocal : p.Vocal r.name := by
        rcases joins_iff.1 joins with ⟨s, one, uses⟩ | ⟨s, one, name, args, invokes, known⟩
        · exact .here inside one uses
        · exact .through inside one invokes (collected.vocal name known)
      constructor
      · exact forall_mem_cons.2 ⟨vocal, collected.vocal⟩
      · exact nodup_cons.2 ⟨fun known => fresh (contains_iff_mem.2 known), collected.nodup⟩
    · exact collected

theorem Collected.once (collected : Collected p names) : Collected p (p.collectOnce names) := by
  rw [collectOnce_eq]
  -- The fold takes the routines one by one, so this is stated for any part of them.
  suffices ∀ rs ⊆ p.routines, Collected p (rs.foldr Protocol.joined names) from this _ (List.Subset.refl _)
  intro rs subset
  induction rs with
  | nil => exact collected
  | cons r rest ih =>
    exact (ih (subset_of_cons_subset subset)).joined (subset mem_cons_self)

theorem Collected.length_le (collected : Collected p names) : names.length ≤ p.routines.length := by
  have subset : names ⊆ p.routines.map (·.name) := by
    intro name member
    obtain ⟨r, inside, rfl⟩ := (collected.vocal name member).exists_routine
    exact mem_map_of_mem inside
  have bound := (collected.nodup.subperm subset).length_le
  rwa [length_map] at bound

/-- Closed sets hold every vocal name. -/
theorem Vocal.mem (closed : ∀ r ∈ p.routines, Joins names r = true → r.name ∈ names)
    (vocal : p.Vocal name) : name ∈ names := by
  induction vocal with
  | here inside one uses => exact closed _ inside (joins_iff.2 (.inl ⟨_, one, uses⟩))
  | through inside one invokes _ ih => exact closed _ inside (joins_iff.2 (.inr ⟨_, one, _, _, invokes, ih⟩))

theorem closed_of_length_eq (settled : (p.collectOnce names).length = names.length) :
    ∀ r ∈ p.routines, Joins names r = true → r.name ∈ names := by
  intro r inside joins
  have suffix : names <:+ p.collectOnce names := suffix_foldr p.routines names
  -- Names are only put in front: a round that makes the list no longer changes nothing.
  rw [suffix.eq_of_length settled.symm]
  exact mem_foldr inside joins

/-- Enough rounds collect the vocal names: a round that adds none ends them, and there is no room for as many
names as rounds. -/
theorem mem_collect (collected : Collected p names) {n : Nat} (enough : p.routines.length < names.length + n)
    (name : String) : name ∈ p.collect n names ↔ p.Vocal name := by
  induction n generalizing names with
  | zero =>
    have bound := collected.length_le
    omega
  | succ n ih =>
    rw [collect]
    split
    · next settled => exact ⟨collected.vocal name, Vocal.mem (closed_of_length_eq settled)⟩
    · next grows =>
      have longer : names.length ≤ (p.collectOnce names).length := (suffix_foldr p.routines names).length_le
      exact ih collected.once (by omega)

theorem mem_communicating : name ∈ p.communicating ↔ p.Vocal name :=
  mem_collect ⟨fun _ member => absurd member not_mem_nil, nodup_nil⟩ (by simp) name

instance (p : Protocol) : DecidablePred p.Vocal := fun _ => decidable_of_iff _ mem_communicating

end Collecting

section Restricting

variable {keep : String → Bool}

theorem restrict_mem (inside : s ∈ ss) (stays : s.targets keep = true) :
    s.restrict keep ∈ restrictAll keep ss :=
  mem_restrictAll_iff.2 ⟨s, inside, stays, rfl⟩

theorem restrictAll_mem {body : List Statement} {cases : List (List Statement)} (one : body ∈ cases) :
    restrictAll keep body ∈ restrictCases keep cases := by
  rw [restrictCases_eq]
  exact mem_map_of_mem one

theorem Invokes.targets (invokes : Invokes s name args) (kept : keep name = true) : s.targets keep = true := by
  cases invokes <;> simp [targets, kept]

theorem Communicates.targets (uses : Communicates s) : s.targets keep = true := by
  cases uses with
  | newChan | send | recv | close | select | onTrue | onFalse => rfl

/-- Calls and spawns of kept routines stay. -/
theorem Invokes.restrict (invokes : Invokes s name args)
    (kept : keep name = true) : Invokes (s.restrict keep) name args := by
  induction invokes with
  | call => exact .call
  | spawn => exact .spawn
  | onTrue inside invokes ih => exact .onTrue (restrict_mem inside (invokes.targets kept)) (ih kept)
  | onFalse inside invokes ih => exact .onFalse (restrict_mem inside (invokes.targets kept)) (ih kept)
  | case one inside invokes ih =>
    exact .case (restrictAll_mem one) (restrict_mem inside (invokes.targets kept)) (ih kept)

theorem Communicates.restrict (uses : Communicates s) : Communicates (s.restrict keep) := by
  induction uses with
  | newChan => exact .newChan
  | send => exact .send
  | recv => exact .recv
  | close => exact .close
  | select => rw [Statement.restrict]; exact .select
  | onTrue inside uses ih => exact .onTrue (restrict_mem inside uses.targets) ih
  | onFalse inside uses ih => exact .onFalse (restrict_mem inside uses.targets) ih

theorem Communicates.of_restrict (uses : Communicates (s.restrict keep)) : Communicates s := by
  generalize eq : s.restrict keep = restricted at uses
  induction uses generalizing s with
  | newChan | send | recv | close | select =>
    cases s <;> simp only [Statement.restrict, reduceCtorEq] at eq
    constructor
  | onTrue inside _ ih =>
    cases s <;> simp only [Statement.restrict, reduceCtorEq] at eq
    obtain ⟨rfl, rfl⟩ := Statement.branch.inj eq
    obtain ⟨s', inside', rfl⟩ := mem_restrictAll inside
    exact .onTrue inside' (ih rfl)
  | onFalse inside _ ih =>
    cases s <;> simp only [Statement.restrict, reduceCtorEq] at eq
    obtain ⟨rfl, rfl⟩ := Statement.branch.inj eq
    obtain ⟨s', inside', rfl⟩ := mem_restrictAll inside
    exact .onFalse inside' (ih rfl)

theorem targets_restrict (s : Statement) : (s.restrict keep).targets keep = s.targets keep := by
  cases s <;> rfl

mutual

theorem restrict_restrict : (s : Statement) → (s.restrict keep).restrict keep = s.restrict keep
  | .branch t e => by simp only [restrict, restrictAll_restrictAll t, restrictAll_restrictAll e]
  | .select cs => by simp only [restrict, restrictCases_restrictCases cs]
  | .newChan .. | .send _ | .recv _ | .close _ | .call .. | .spawn .. | .tau => by simp only [restrict]

theorem restrictAll_restrictAll : (ss : List Statement) →
    restrictAll keep (restrictAll keep ss) = restrictAll keep ss
  | [] => by simp only [restrictAll]
  | s :: ss => by
    by_cases stays : s.targets keep = true
    · rw [restrictAll, if_pos stays, restrictAll, targets_restrict, if_pos stays,
        restrict_restrict s, restrictAll_restrictAll ss]
    · rw [restrictAll, if_neg stays, restrictAll_restrictAll ss]

theorem restrictCases_restrictCases : (cs : List (List Statement)) →
    restrictCases keep (restrictCases keep cs) = restrictCases keep cs
  | [] => by simp only [restrictCases]
  | c :: cs => by
    simp only [restrictCases, restrictAll_restrictAll c, restrictCases_restrictCases cs]

end

end Restricting

mutual

/-- A list of statements without the calls and spawns of routines that are not kept, at every depth. All else
stays as it is. -/
inductive Thinned (kept : String → Prop) : List Statement → List Statement → Prop
  | nil : Thinned kept [] []
  | dropCall {name : String} {args : List String} {ss ss' : List Statement} (gone : ¬kept name)
    (rest : Thinned kept ss ss') : Thinned kept (.call name args :: ss) ss'
  | dropSpawn {name : String} {args : List String} {ss ss' : List Statement} (gone : ¬kept name)
    (rest : Thinned kept ss ss') : Thinned kept (.spawn name args :: ss) ss'
  | call {name : String} {args : List String} {ss ss' : List Statement} (stays : kept name)
    (rest : Thinned kept ss ss') : Thinned kept (.call name args :: ss) (.call name args :: ss')
  | spawn {name : String} {args : List String} {ss ss' : List Statement} (stays : kept name)
    (rest : Thinned kept ss ss') : Thinned kept (.spawn name args :: ss) (.spawn name args :: ss')
  | op {ss ss' : List Statement} (op : ChanOp) (rest : Thinned kept ss ss') :
    Thinned kept (op.statement :: ss) (op.statement :: ss')
  | tau {ss ss' : List Statement} (rest : Thinned kept ss ss') : Thinned kept (.tau :: ss) (.tau :: ss')
  | branch {t t' e e' ss ss' : List Statement} (onTrue : Thinned kept t t') (onFalse : Thinned kept e e')
    (rest : Thinned kept ss ss') : Thinned kept (.branch t e :: ss) (.branch t' e' :: ss')
  | select {cs cs' : List (List Statement)} {ss ss' : List Statement} (cases : ThinnedCases kept cs cs')
    (rest : Thinned kept ss ss') : Thinned kept (.select cs :: ss) (.select cs' :: ss')

inductive ThinnedCases (kept : String → Prop) : List (List Statement) → List (List Statement) → Prop
  | nil : ThinnedCases kept [] []
  | cons {c c' : List Statement} {cs cs' : List (List Statement)} (body : Thinned kept c c')
    (rest : ThinnedCases kept cs cs') : ThinnedCases kept (c :: cs) (c' :: cs')

end

section Thinning

variable {keep : String → Bool} {kept : String → Prop}

mutual

theorem thinned_restrictAll (agree : ∀ name, keep name = true ↔ kept name) :
    (ss : List Statement) → Thinned kept ss (restrictAll keep ss)
  | [] => by
    rw [restrictAll]
    exact .nil
  | s :: ss => by
    have rest := thinned_restrictAll agree ss
    rw [restrictAll]
    cases s with
    | call name args =>
      split
      · next stays => exact .call ((agree name).1 stays) rest
      · next goes => exact .dropCall (fun stays => goes ((agree name).2 stays)) rest
    | spawn name args =>
      split
      · next stays => exact .spawn ((agree name).1 stays) rest
      · next goes => exact .dropSpawn (fun stays => goes ((agree name).2 stays)) rest
    | newChan name capacity => exact .op (.newChan name capacity) rest
    | send chan => exact .op (.send chan) rest
    | recv chan => exact .op (.recv chan) rest
    | close chan => exact .op (.close chan) rest
    | tau => exact .tau rest
    | branch t e =>
      rw [restrict]
      exact .branch (thinned_restrictAll agree t) (thinned_restrictAll agree e) rest
    | select cs =>
      rw [restrict]
      exact .select (thinned_restrictCases agree cs) rest

theorem thinned_restrictCases (agree : ∀ name, keep name = true ↔ kept name) :
    (cs : List (List Statement)) → ThinnedCases kept cs (restrictCases keep cs)
  | [] => by
    rw [restrictCases]
    exact .nil
  | c :: cs => by
    rw [restrictCases]
    exact .cons (thinned_restrictAll agree c) (thinned_restrictCases agree cs)

end

end Thinning

/-- What a clean-up keeps: the entry, and the routines that can come to use a channel. -/
def Kept (p : Protocol) (entry name : String) : Prop := name = entry ∨ p.Vocal name

instance (p : Protocol) (entry : String) : DecidablePred (p.Kept entry) :=
  fun name => inferInstanceAs (Decidable (name = entry ∨ p.Vocal name))

/-- A routine that lost the calls and spawns of routines that are not kept, and nothing else. -/
structure Routine.Thinned (kept : String → Prop) (r r' : Routine) : Prop where
  name : r'.name = r.name
  params : r'.params = r.params
  waiting : r'.waiting = r.waiting
  stmts : Protocol.Thinned kept r.stmts r'.stmts

section CleanUp

variable {p : Protocol} {entry : String}

/-- A routine as a clean-up leaves it. -/
def thin (p : Protocol) (entry : String) (r : Routine) : Routine :=
  { r with stmts := restrictAll (fun name => p.Kept entry name) r.stmts }

theorem contains_kept (p : Protocol) (entry : String) :
    (entry :: p.communicating).contains = fun name => decide (p.Kept entry name) := by
  funext name
  rw [Bool.eq_iff_iff, contains_iff_mem, mem_cons, mem_communicating, decide_eq_true_iff, Kept]

theorem routines_cleanUp (p : Protocol) (entry : String) :
    (p.cleanUp entry).routines = (p.routines.filter fun r => p.Kept entry r.name).map (p.thin entry) := by
  have same (r : Routine) : (entry :: p.communicating).contains r.name = decide (p.Kept entry r.name) :=
    congrFun (contains_kept p entry) r.name
  simp only [cleanUp, same, contains_kept]
  rfl

theorem mem_cleanUp :
    r ∈ (p.cleanUp entry).routines ↔ ∃ r' ∈ p.routines, p.Kept entry r'.name ∧ p.thin entry r' = r := by
  simp [routines_cleanUp, and_assoc]

/-- Cleaning up leaves the same routines vocal. -/
theorem vocal_cleanUp : (p.cleanUp entry).Vocal name ↔ p.Vocal name := by
  constructor
  · intro vocal
    induction vocal with
    | here inside one uses =>
      obtain ⟨r, there, -, rfl⟩ := mem_cleanUp.1 inside
      obtain ⟨s, stmt, rfl⟩ := mem_restrictAll one
      have vocal : p.Vocal r.name := .here there stmt uses.of_restrict
      exact vocal
    | through inside one invokes _ ih =>
      obtain ⟨r, there, -, rfl⟩ := mem_cleanUp.1 inside
      obtain ⟨s, stmt, stays, rfl⟩ := mem_restrictAll_iff.1 one
      have vocal : p.Vocal r.name := .through there stmt (invokes.of_restrict stays).2 ih
      exact vocal
  · intro vocal
    induction vocal with
    | @here r s inside one uses =>
      have stays : p.thin entry r ∈ (p.cleanUp entry).routines :=
        mem_cleanUp.2 ⟨r, inside, .inr (.here inside one uses), rfl⟩
      have vocal : (p.cleanUp entry).Vocal (p.thin entry r).name :=
        .here stays (restrict_mem one uses.targets) uses.restrict
      exact vocal
    | @through r s name args inside one invokes further ih =>
      have stays : p.thin entry r ∈ (p.cleanUp entry).routines :=
        mem_cleanUp.2 ⟨r, inside, .inr (.through inside one invokes further), rfl⟩
      have kept : decide (p.Kept entry name) = true := decide_eq_true (.inr further)
      have call : Invokes (s.restrict fun name => p.Kept entry name) name args := invokes.restrict kept
      have vocal : (p.cleanUp entry).Vocal (p.thin entry r).name :=
        .through stays (restrict_mem one (invokes.targets kept)) call ih
      exact vocal

theorem kept_cleanUp : (p.cleanUp entry).Kept entry name ↔ p.Kept entry name :=
  or_congr_right vocal_cleanUp

theorem thin_thin (r : Routine) : (p.cleanUp entry).thin entry (p.thin entry r) = p.thin entry r := by
  simp only [thin, kept_cleanUp, restrictAll_restrictAll]

theorem cleanUp_cleanUp (p : Protocol) (entry : String) : (p.cleanUp entry).cleanUp entry = p.cleanUp entry := by
  have whole : (p.cleanUp entry).routines.filter (fun r => (p.cleanUp entry).Kept entry r.name) =
      (p.cleanUp entry).routines := by
    rw [filter_eq_self]
    intro r inside
    obtain ⟨r', -, kept, rfl⟩ := mem_cleanUp.1 inside
    exact decide_eq_true (kept_cleanUp.2 kept)
  have same : ((p.cleanUp entry).cleanUp entry).routines = (p.cleanUp entry).routines := by
    rw [routines_cleanUp (p.cleanUp entry), whole, routines_cleanUp p, map_map]
    exact map_congr_left fun r _ => thin_thin r
  exact congrArg Protocol.mk same

/-- Where the entry is defined, what is still called or spawned is still there. -/
theorem exists_of_invokes (defined : ∃ r ∈ p.routines, r.name = entry)
    (inside : r ∈ (p.cleanUp entry).routines) (one : s ∈ r.stmts)
    (invokes : Invokes s name args) : ∃ target ∈ (p.cleanUp entry).routines, target.name = name := by
  obtain ⟨r', -, -, rfl⟩ := mem_cleanUp.1 inside
  obtain ⟨s, -, stays, rfl⟩ := mem_restrictAll_iff.1 one
  have kept : p.Kept entry name := of_decide_eq_true (invokes.of_restrict stays).1
  have known : ∃ target ∈ p.routines, target.name = name := by
    rcases kept with rfl | vocal
    · exact defined
    · exact vocal.exists_routine
  obtain ⟨target, there, rfl⟩ := known
  exact ⟨p.thin entry target, mem_cleanUp.2 ⟨target, there, kept, rfl⟩, rfl⟩

/-- A clean-up leaves the routines that are kept, in order, without the calls and spawns of any other and with
nothing else changed. It changes nothing the second time, and with a defined entry leaves no call or spawn of a
routine that is not there. -/
theorem cleanUp_exact (p : Protocol) (entry : String) :
    List.Forall₂ (Routine.Thinned (p.Kept entry)) (p.routines.filter fun r => p.Kept entry r.name)
        (p.cleanUp entry).routines ∧
      (p.cleanUp entry).cleanUp entry = p.cleanUp entry ∧
      ((∃ r ∈ p.routines, r.name = entry) → ∀ r ∈ (p.cleanUp entry).routines, ∀ s ∈ r.stmts,
        ∀ name args,
        Invokes s name args → ∃ target ∈ (p.cleanUp entry).routines, target.name = name) := by
  refine ⟨?_, cleanUp_cleanUp p entry, ?_⟩
  · rw [routines_cleanUp, forall₂_map_right_iff, forall₂_same]
    intro r _
    exact ⟨rfl, rfl, rfl, thinned_restrictAll (fun _ => decide_eq_true_iff) r.stmts⟩
  · intro defined r inside s one name args invokes
    exact exists_of_invokes defined inside one invokes

end CleanUp

/-- Two routines that call each other and use a channel, and one that only calls itself. -/
def chatter : Protocol :=
  ⟨[{ name := "main.main", stmts := [.newChan "c" 0, .spawn "main.log" [], .call "main.say" ["c"]] },
    { name := "main.say", params := [.same "c"],
      stmts := [.branch [.send "c", .call "main.log" [], .call "main.say" ["c"]] [.tau]] },
    { name := "main.log", stmts := [.call "main.log" []] }]⟩

/-- The routine that only calls itself goes, with its spawn and its call inside the branch. -/
theorem cleanUp_chatter :
    (∃ r ∈ chatter.routines, r.name = "main.main") ∧
      chatter.cleanUp "main.main" =
        ⟨[{ name := "main.main", stmts := [.newChan "c" 0, .call "main.say" ["c"]] },
          { name := "main.say", params := [.same "c"],
            stmts := [.branch [.send "c", .call "main.say" ["c"]] [.tau]] }]⟩ ∧
      ∀ r ∈ (chatter.cleanUp "main.main").routines, ∀ s ∈ r.stmts, ∀ name args, Invokes s name args →
        ∃ target ∈ (chatter.cleanUp "main.main").routines, target.name = name := by
  have defined : ∃ r ∈ chatter.routines, r.name = "main.main" := ⟨_, mem_cons_self, rfl⟩
  exact ⟨defined, by decide, (cleanUp_exact chatter "main.main").2.2 defined⟩

end ChanFlow.Protocol
