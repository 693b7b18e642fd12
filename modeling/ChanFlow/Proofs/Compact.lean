import ChanFlow.Proofs.Construction

/-!
Where `tau` stands in an inferred protocol.

Without clean-up, every statement list of the protocol is `Compact`: nothing follows a `tau`, a case is never
empty and has a `tau` only for the whole of it, and one side of every branch does something.
-/
open List

namespace ChanFlow.Protocol

variable {s : Statement} {ss t e stmts : List Statement} {cases : List (List Statement)} {r : Routine}

/-- Nothing follows a `tau`. -/
def TauLast (ss : List Statement) : Prop := .tau ∉ ss.dropLast

/-- What is asked of the lists that a statement is made of, whatever is inside of their statements. -/
def Neat : Statement → Prop
  | .branch t e => TauLast t ∧ TauLast e ∧ ∃ s ∈ t ++ e, s ≠ .tau
  | .select cases => ∀ body ∈ cases, body ≠ [] ∧ TauLast body ∧ (.tau ∈ body → body = [.tau])
  | _ => True

def NeatWithin (s : Statement) : Prop := ∀ part, Part part s → Neat part

/-- The same at every depth of a list. -/
structure Compact (ss : List Statement) : Prop where
  tau : TauLast ss
  parts : ∀ s ∈ ss, NeatWithin s

theorem compact_nil : Compact [] := ⟨nofun, nofun⟩

theorem tauLast_of_notMem (free : .tau ∉ ss) : TauLast ss := fun early => free ((dropLast_sublist ss).subset early)

theorem TauLast.append (last : TauLast ss) (s : Statement) : TauLast (Routine.append ss s) := by
  unfold Routine.append
  split
  · rwa [TauLast, dropLast_concat]
  · next other =>
    rw [TauLast, dropLast_concat]
    intro member
    obtain rfl | ⟨front, final, rfl⟩ := eq_nil_or_concat ss
    · exact nomatch member
    · rw [concat_eq_append] at last other member
      rw [TauLast, dropLast_concat] at last
      rw [getLast?_concat] at other
      rcases mem_append.1 member with early | one
      · exact last early
      · exact other (congrArg some (mem_singleton.1 one).symm)

theorem neatWithin_call {name : String} {args : List String} : NeatWithin (.call name args) := by
  rintro _ ⟨⟩
  trivial

theorem neatWithin_spawn {name : String} {args : List String} : NeatWithin (.spawn name args) := by
  rintro _ ⟨⟩
  trivial

theorem neatWithin_tau : NeatWithin .tau := by
  rintro _ ⟨⟩
  trivial

theorem neatWithin_branch (onTrue : Compact t) (onFalse : Compact e) (acts : ∃ s ∈ t ++ e, s ≠ .tau) :
    NeatWithin (.branch t e) := by
  intro part inside
  cases inside with
  | self => exact ⟨onTrue.tau, onFalse.tau, acts⟩
  | onTrue member inside => exact onTrue.parts _ member part inside
  | onFalse member inside => exact onFalse.parts _ member part inside

theorem neatWithin_select (neat : Neat (.select cases)) (inner : ∀ body ∈ cases, ∀ s ∈ body, NeatWithin s) :
    NeatWithin (.select cases) := by
  intro part inside
  cases inside with
  | self => exact neat
  | case one member inside => exact inner _ one _ member part inside

theorem Statement.Elementary.neat (elementary : s.Elementary) : NeatWithin s := by
  cases s with
  | select cases =>
    refine neatWithin_select (fun body one => ?_) fun body one s member part inside => ?_
    · obtain ⟨chan, rfl⟩ | ⟨chan, rfl⟩ | rfl := elementary body one <;> simp [TauLast]
    · obtain ⟨chan, rfl⟩ | ⟨chan, rfl⟩ | rfl := elementary body one <;>
      · obtain rfl := mem_singleton.1 member
        cases inside
        trivial
  | newChan | send | recv | close =>
    rintro _ ⟨⟩
    trivial
  | _ => exact elementary.elim

/-- An extended case has no `tau`, or is one. -/
theorem neat_extendCase (case stmts : List Statement) :
    Routine.extendCase case stmts ≠ [] ∧ TauLast (Routine.extendCase case stmts) ∧
      (.tau ∈ Routine.extendCase case stmts → Routine.extendCase case stmts = [.tau]) := by
  have free : .tau ∉ Statement.withoutTau case ++ Statement.withoutTau stmts := by
    simp [Statement.withoutTau, Statement.isTau]
  unfold Routine.extendCase
  split
  · simp [TauLast]
  · next some => exact ⟨some, tauLast_of_notMem free, fun member => absurd member free⟩

theorem NeatWithin.modify (neat : NeatWithin (.select cases)) (case : Nat) (body : Compact stmts) :
    NeatWithin (.select (cases.modify case (Routine.extendCase · stmts))) := by
  refine neatWithin_select (fun bodies one => ?_) fun bodies one s member => ?_
  · obtain ⟨first, kept, rfl | rfl⟩ := mem_modify one
    · exact neat _ .self bodies kept
    · exact neat_extendCase first stmts
  · obtain ⟨first, kept, rfl | rfl⟩ := mem_modify one
    · exact fun part inside => neat part (.case kept member inside)
    · rcases mem_extendCase member with rfl | own | added
      · exact neatWithin_tau
      · exact fun part inside => neat part (.case kept own inside)
      · exact body.parts s added

theorem Compact.set {slot : Nat} (compact : Compact ss) (here : ss[slot]? = some (.select cases)) (case : Nat)
    (body : Compact stmts) : Compact (ss.set slot (.select (cases.modify case (Routine.extendCase · stmts)))) := by
  refine ⟨fun early => ?_, fun s member => ?_⟩
  · rw [dropLast_eq_take, take_set, length_set, ← dropLast_eq_take] at early
    exact (mem_or_eq_of_mem_set early).elim compact.tau nofun
  · rcases mem_or_eq_of_mem_set member with kept | rfl
    · exact compact.parts s kept
    · exact (compact.parts _ (mem_of_getElem? here)).modify case body

/-- The lists of a routine under construction are compact. -/
def Routine.Compact (r : Routine) : Prop := ∀ ss ∈ r.stmts :: r.waiting, Protocol.Compact ss

theorem Routine.Compact.addStatement (compact : r.Compact) (neat : NeatWithin s) : (r.addStatement s).Compact := by
  obtain ⟨current, waiting⟩ := forall_mem_cons.1 compact
  exact forall_mem_cons.2 ⟨⟨current.tau.append s, all_append current.parts neat⟩, waiting⟩

theorem compact_of_empty (stmts : r.stmts = []) (waiting : r.waiting = []) : r.Compact := by
  rw [Routine.Compact, stmts, waiting]
  exact forall_mem_singleton.2 compact_nil

end ChanFlow.Protocol

namespace ChanFlow.Analysis

open Ssa Protocol

theorem construction_compact (p : Program) : Construction p (fun _ _ => True) Routine.Compact where
  header _ := compact_of_empty rfl rfl
  channels compact elementary := compact.addStatement elementary.neat
  merge _ _ _ _ compact := ⟨compact.addStatement neatWithin_call, compact_of_empty rfl rfl⟩
  handOver _ _ new := ⟨compact_of_empty new.unbegun.stmts new.unbegun.waiting, fun compact =>
    ⟨compact.addStatement neatWithin_call, compact.addStatement neatWithin_spawn⟩⟩
  setAside compact := forall_mem_cons.2 ⟨compact_nil, compact⟩
  addBranch {r t before rest} compact waits := by
    rw [Routine.Compact, waits] at compact
    obtain ⟨onFalse, onTrue, below⟩ : Compact r.stmts ∧ Compact t ∧ ∀ ss ∈ before :: rest, Compact ss := by
      simpa using compact
    have around : Routine.Compact { r with stmts := before, waiting := rest } := below
    refine around.addStatement ?_
    split
    · exact neatWithin_tau
    · next acts =>
      refine neatWithin_branch onTrue onFalse ?_
      rw [Routine.idle, Routine.idle, ← List.all_append, Bool.not_eq_true, all_eq_false] at acts
      obtain ⟨s, member, acts⟩ := acts
      exact ⟨s, member, fun silent => acts (silent ▸ rfl)⟩
  extendCaseOf {r r' before rest slot case} compact waits extended := by
    rw [Routine.Compact, waits] at compact
    obtain ⟨body, around, below⟩ : Compact r.stmts ∧ Compact before ∧ ∀ ss ∈ rest, Compact ss := by
      simpa using compact
    obtain ⟨cases, here, rfl⟩ := Routine.extendCaseOf_eq extended
    exact forall_mem_cons.2 ⟨around.set here case body, below⟩

/-- Without clean-up, all statement lists of an inferred protocol are compact: at every depth a `tau`
is the last of its list and the whole of its case, no case is empty, and no branch has two sides that
do nothing. -/
theorem inferred_lists_compact {p : Program} {o : Options} {budget : Nat} {protocol : Protocol}
    (keep : o.cleanUp = false)
    (inferred : (infer budget p o).result = .ok protocol) : ∀ r ∈ protocol.routines, Compact r.stmts := by
  intro r member
  have built := (construction_compact p).of_unclean (compact_of_empty rfl rfl) (fun _ _ _ => trivial) inferred keep
  exact (built r member).1 _ mem_cons_self

/-- Sends if somebody waits, and then perhaps once more. -/
def offering : Function := .closed "main.main" [
  .of 0 none [] [1, 2] [
    .define "a" .intChan (.makeChan (.int 1)),
    .define "t" (.tuple [.int, .bool]) (.select false [.send (.var "a") (.int 1)]),
    .define "x" .int (.extract (.var "t") 0),
    .define "c" .bool (.binary .eq (.var "x") (.int 0)),
    .perform (.branch (.var "c") 1 2)],
  .of 1 none [0] [3, 4] [
    .define "d" .bool (.binary .lt (.int 0) (.int 1)),
    .perform (.branch (.var "d") 3 4)],
  .of 2 none [0] [] [.perform (.ret [])],
  .of 3 none [1] [] [.perform (.send (.var "a") (.int 1)), .perform (.ret [])],
  .of 4 none [1] [] [.perform (.ret [])]]

/-- The case that sends has a branch with one empty side, and the other case is a `tau`. -/
theorem offering_lists_compact :
    ∃ protocol, (infer 40 { functions := [offering] } { cleanUp := false }).result = .ok protocol ∧
      protocol.routines.map (·.stmts) = [[.newChan "a" 1, .select [[.send "a", .branch [.send "a"] []], [.tau]]]] ∧
      ∀ r ∈ protocol.routines, Compact r.stmts := by
  have stmts : ((infer 40 { functions := [offering] } { cleanUp := false }).result.toOption.map
      (·.routines.map (·.stmts))) =
        some [[.newChan "a" 1, .select [[.send "a", .branch [.send "a"] []], [.tau]]]] := by
    decide +kernel
  cases inferred : (infer 40 { functions := [offering] } { cleanUp := false }).result with
  | error halt => simp [inferred, Except.toOption] at stmts
  | ok protocol =>
    rw [inferred] at stmts
    exact ⟨protocol, rfl, Option.some.inj stmts, inferred_lists_compact rfl inferred⟩

end ChanFlow.Analysis
