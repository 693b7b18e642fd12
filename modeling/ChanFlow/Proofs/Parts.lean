import ChanFlow.Proofs.Invocations

/-!
Statements inside statements, and properties that go by them.

`Part` finds a statement at any depth of another. A property of statements is `ByParts` if a branch or a select
has it where the statements inside have it. Building a routine step by step keeps every such property.
-/
open List

namespace ChanFlow.Protocol

variable {s : Statement} {name : String} {args : List String} {r r' : Routine} {slot case : Nat}
  {stmts ss t before : List Statement} {rest : List (List Statement)} {p : Protocol}

/-- A statement stands in another, at any depth. -/
inductive Part (t : Statement) : Statement → Prop
  | self : Part t t
  | onTrue {a b : List Statement} {s : Statement} (inside : s ∈ a) (part : Part t s) : Part t (.branch a b)
  | onFalse {a b : List Statement} {s : Statement} (inside : s ∈ b) (part : Part t s) : Part t (.branch a b)
  | case {cases : List (List Statement)} {body : List Statement} {s : Statement} (one : body ∈ cases)
    (inside : s ∈ body) (part : Part t s) : Part t (.select cases)

theorem Part.invokes_call (part : Part (.call name args) s) : Invokes s name args := by
  induction part with
  | self => exact .call
  | onTrue inside _ ih => exact .onTrue inside ih
  | onFalse inside _ ih => exact .onFalse inside ih
  | case one inside _ ih => exact .case one inside ih

theorem Part.invokes_spawn (part : Part (.spawn name args) s) : Invokes s name args := by
  induction part with
  | self => exact .spawn
  | onTrue inside _ ih => exact .onTrue inside ih
  | onFalse inside _ ih => exact .onFalse inside ih
  | case one inside _ ih => exact .case one inside ih

/-- A case is extended in the select it belongs to, and nothing else changes. -/
theorem Routine.extendCaseOf_eq (extended : r.extendCaseOf slot case stmts = .ok r') :
    ∃ cases, r.stmts[slot]? = some (.select cases) ∧
      r' = { r with stmts := r.stmts.set slot (.select (cases.modify case (extendCase · stmts))) } := by
  unfold Routine.extendCaseOf at extended
  split at extended
  · next cases here => exact ⟨cases, here, (Except.ok.inj extended).symm⟩
  · exact nomatch extended

theorem Routine.isSelectAt_iff : r.isSelectAt slot = true ↔ ∃ cases, r.stmts[slot]? = some (.select cases) := by
  unfold isSelectAt
  split
  · next cases here => simp [here]
  · next other => simpa using fun cases => other cases

/-! ### Properties that go by parts -/

structure ByParts (good : Statement → Prop) : Prop where
  tau : good .tau
  branch : ∀ {t e : List Statement}, (∀ s ∈ t, good s) → (∀ s ∈ e, good s) → good (.branch t e)
  select : ∀ {cases : List (List Statement)}, good (.select cases) ↔ ∀ body ∈ cases, ∀ s ∈ body, good s

theorem mem_append_statement {s' : Statement} (member : s' ∈ Routine.append ss s) : s' ∈ ss ∨ s' = s := by
  unfold Routine.append at member
  split at member
  · rcases mem_append.1 member with old | new
    · exact .inl ((dropLast_sublist ss).subset old)
    · exact .inr (mem_singleton.1 new)
  · rcases mem_append.1 member with old | new
    · exact .inl old
    · exact .inr (mem_singleton.1 new)

theorem mem_extendCase {case : List Statement} (member : s ∈ Routine.extendCase case stmts) :
    s = .tau ∨ s ∈ case ∨ s ∈ stmts := by
  unfold Routine.extendCase at member
  split at member
  · exact .inl (mem_singleton.1 member)
  · exact .inr ((mem_append.1 member).imp (fun own => (mem_filter.1 own).1) fun added => (mem_filter.1 added).1)

theorem mem_modify {α : Type} {as : List α} {a : α} {f : α → α} {i : Nat} (member : a ∈ as.modify i f) :
    ∃ first ∈ as, a = first ∨ a = f first := by
  obtain ⟨j, found⟩ := mem_iff_getElem?.1 member
  rw [getElem?_modify] at found
  obtain ⟨first, there, rfl⟩ := Option.map_eq_some_iff.1 found
  refine ⟨first, mem_of_getElem? there, ?_⟩
  split
  · exact .inr rfl
  · exact .inl rfl

section

variable {good : Statement → Prop}

theorem all_append (all : ∀ s ∈ ss, good s) (last : good s) : ∀ s' ∈ Routine.append ss s, good s' := by
  intro s' member
  rcases mem_append_statement member with old | rfl
  · exact all s' old
  · exact last

theorem all_appends {added : List Statement} (all : ∀ s ∈ ss, good s) (new : ∀ s ∈ added, good s) :
    ∀ s ∈ added.foldl Routine.append ss, good s := by
  induction added generalizing ss with
  | nil => exact all
  | cons s rest ih =>
    rw [forall_mem_cons] at new
    exact ih (all_append all new.1) new.2

variable (byParts : ByParts good)
include byParts

theorem ByParts.extendCase {case : List Statement} (old : ∀ s ∈ case, good s) (new : ∀ s ∈ stmts, good s) :
    ∀ s ∈ Routine.extendCase case stmts, good s := by
  intro s member
  rcases mem_extendCase member with rfl | own | added
  · exact byParts.tau
  · exact old s own
  · exact new s added

theorem ByParts.modify {cases : List (List Statement)} (old : good (.select cases)) (case : Nat)
    (new : ∀ s ∈ stmts, good s) : good (.select (cases.modify case (Routine.extendCase · stmts))) := by
  refine byParts.select.2 fun body one => ?_
  obtain ⟨first, member, rfl | rfl⟩ := mem_modify one
  · exact byParts.select.1 old body member
  · exact byParts.extendCase (byParts.select.1 old first member) new

theorem ByParts.extendCaseOf (all : ∀ s ∈ r.stmts, good s)
    (new : ∀ s ∈ stmts, good s) (extended : r.extendCaseOf slot case stmts = .ok r') :
    ∀ s ∈ r'.stmts, good s := by
  obtain ⟨cases, here, rfl⟩ := Routine.extendCaseOf_eq extended
  intro s member
  rcases mem_or_eq_of_mem_set member with member | rfl
  · exact all s member
  · exact byParts.modify (all _ (mem_of_getElem? here)) case new

/-- A branch, or the `tau` it is where both sides do nothing. -/
theorem ByParts.addBranch (all : ∀ s ∈ r.stmts, good s) {e : List Statement} (onTrue : ∀ s ∈ t, good s)
    (onFalse : ∀ s ∈ e, good s) : ∀ s ∈ (r.addBranch t e).stmts, good s := by
  refine all_append all ?_
  split
  · exact byParts.tau
  · exact byParts.branch onTrue onFalse

end

/-- All statements of a routine, finished or under construction, have a property. -/
structure Routine.All (good : Statement → Prop) (r : Routine) : Prop where
  stmts : ∀ s ∈ r.stmts, good s
  waiting : ∀ ss ∈ r.waiting, ∀ s ∈ ss, good s

section

variable {good good' : Statement → Prop} {r : Routine}

section

variable (all : r.All good)
include all

theorem Routine.All.imp (weaker : ∀ s, good s → good' s) : r.All good' :=
  ⟨fun s inside => weaker s (all.stmts s inside), fun ss one s inside => weaker s (all.waiting ss one s inside)⟩

theorem Routine.All.addStatement (last : good s) : (r.addStatement s).All good :=
  ⟨all_append all.stmts last, all.waiting⟩

theorem Routine.All.setAside : r.setAside.All good :=
  ⟨nofun, forall_mem_cons.2 ⟨all.stmts, all.waiting⟩⟩

/-- The two lists set aside last and the current one make a branch. -/
theorem Routine.All.addBranch (byParts : ByParts good) (waits : r.waiting = t :: before :: rest) :
    (Routine.addBranch { r with stmts := before, waiting := rest } t r.stmts).All good := by
  obtain ⟨onTrue, others⟩ := forall_mem_cons.1 (waits ▸ all.waiting)
  obtain ⟨stmts, waiting⟩ := forall_mem_cons.1 others
  exact ⟨byParts.addBranch stmts onTrue all.stmts, waiting⟩

/-- The list set aside last gets the current one as a part of a case. -/
theorem Routine.All.extendCaseOf (byParts : ByParts good) (waits : r.waiting = before :: rest)
    (extended : Routine.extendCaseOf { r with stmts := before, waiting := rest } slot case r.stmts = .ok r') :
    r'.All good := by
  obtain ⟨stmts, waiting⟩ := forall_mem_cons.1 (waits ▸ all.waiting)
  have kept := byParts.extendCaseOf stmts all.stmts extended
  obtain ⟨cases, -, rfl⟩ := Routine.extendCaseOf_eq extended
  exact ⟨kept, waiting⟩

end

end

/-! ### Protocols -/

def Defines (p : Protocol) (name : String) : Prop := ∃ r ∈ p.routines, r.name = name

theorem defines_iff : p.Defines name ↔ (p.routine? name).isSome := by
  simp [Defines, routine?, find?_isSome]

theorem defines_replace : (p.replace r).Defines name ↔ r.name = name ∨ p.Defines name := by
  rw [defines_iff, defines_iff, routine?_replace]
  split
  · next same => simp [same]
  · next other => simp [other]

theorem defines_add : (p.add r).Defines name ↔ r.name = name ∨ p.Defines name := by
  by_cases same : r.name = name
  · refine iff_of_true ?_ (.inl same)
    unfold add add?
    split
    · next found => exact same ▸ defines_iff.2 found
    · exact ⟨r, by simp, same⟩
  · rw [defines_iff, defines_iff, routine?_add_of_ne p same]
    simp [same]

theorem names_put {rs : List Routine} (distinct : (rs.map (·.name)).Nodup) : ((put r rs).map (·.name)).Nodup := by
  induction rs with
  | nil => simp [put]
  | cons q rest ih =>
    rw [map_cons, nodup_cons] at distinct
    unfold put
    split
    · next same => rw [map_cons, nodup_cons, ← same]; exact distinct
    · next other =>
      rw [map_cons, nodup_cons]
      refine ⟨fun member => ?_, ih distinct.2⟩
      obtain ⟨q', member, same⟩ := mem_map.1 member
      rcases mem_put member with rfl | old
      · exact other same.symm
      · exact distinct.1 (mem_map.2 ⟨q', old, same⟩)

theorem names_add (distinct : (p.routines.map (·.name)).Nodup) : ((p.add r).routines.map (·.name)).Nodup := by
  unfold Protocol.add Protocol.add?
  split
  · exact distinct
  · next absent =>
    rw [Option.getD_some, map_append, nodup_append]
    refine ⟨distinct, by simp, fun name old other new same => absent ?_⟩
    obtain ⟨q, member, rfl⟩ := mem_map.1 old
    obtain rfl : other = r.name := by simpa using new
    exact find?_isSome.2 ⟨q, member, by simpa using same⟩

end ChanFlow.Protocol
