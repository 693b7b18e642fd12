import ChanFlow.Proofs.Construction
import ChanFlow.Proofs.Linked

/-!
Arguments and parameters.

A call or spawn passes the channels that are in scope where it is made. A merge point takes those of the first
arrival as parameters, a function those of the call that interpreted it last. Where all arrivals at a merge
point bring the same number of channels, and all calls and spawns of a function hand over the same number
(`Agrees`), every call and spawn of the protocol passes as many arguments as the routine has parameters.
-/
open List

namespace ChanFlow.Protocol

variable {s : Statement} {name : String} {arity : String → Nat} {p : Protocol}

/-- Every call and spawn in a statement passes the number of arguments expected. -/
def Fits (arity : String → Nat) (s : Statement) : Prop :=
  ∀ name args, Invokes s name args → args.length = arity name

/-- A routine, finished or not, that takes the number of arguments expected and passes on such numbers only. -/
structure Sized (arity : String → Nat) (r : Routine) : Prop where
  params : r.params.length = arity r.name
  distinct : Routine.Distinct r.params
  stmts : ∀ s ∈ r.stmts, Fits arity s
  waiting : ∀ ss ∈ r.waiting, ∀ s ∈ ss, Fits arity s

section Sized

variable {arity : String → Nat} {r : Routine}

theorem fits_of_callees (silent : s.callees = []) : Fits arity s :=
  fun _ _ invokes => absurd invokes.mem_callees (by simp [silent])

theorem byParts_fits : ByParts (Fits arity) where
  tau := fits_of_callees (by simp [Statement.callees])
  branch onTrue onFalse name args invokes := by
    cases invokes with
    | onTrue inside invokes => exact onTrue _ inside name args invokes
    | onFalse inside invokes => exact onFalse _ inside name args invokes
  select := by
    refine ⟨fun fits body one s inside name args invokes => fits name args (.case one inside invokes), ?_⟩
    intro all name args invokes
    cases invokes with
    | case one inside invokes => exact all _ one _ inside name args invokes

section

variable (sized : Sized arity r)
include sized

theorem Sized.addStatement (fits : Fits arity s) : Sized arity (r.addStatement s) :=
  ⟨sized.params, sized.distinct, all_append sized.stmts fits, sized.waiting⟩

theorem Sized.header : Sized arity r.header := ⟨sized.params, sized.distinct, nofun, nofun⟩

theorem Sized.setAside : Sized arity r.setAside :=
  ⟨sized.params, sized.distinct, nofun, forall_mem_cons.2 ⟨sized.stmts, sized.waiting⟩⟩

/-- The two lists set aside last and the current one make a branch. -/
theorem Sized.addBranch {t before : List Statement} {rest : List (List Statement)}
    (waits : r.waiting = t :: before :: rest) :
    Sized arity (Routine.addBranch { r with stmts := before, waiting := rest } t r.stmts) := by
  have all : r.All (Fits arity) := ⟨sized.stmts, sized.waiting⟩
  obtain ⟨stmts, waiting⟩ := all.addBranch byParts_fits waits
  exact ⟨sized.params, sized.distinct, stmts, waiting⟩

theorem Sized.extendCaseOf {slot case : Nat} {stmts : List Statement} {r' : Routine}
    (new : ∀ s ∈ stmts, Fits arity s) (extended : r.extendCaseOf slot case stmts = .ok r') : Sized arity r' := by
  have kept := byParts_fits.extendCaseOf sized.stmts new extended
  obtain ⟨cases, -, rfl⟩ := Routine.extendCaseOf_eq extended
  exact ⟨sized.params, sized.distinct, kept, sized.waiting⟩

end

/-- A routine that begins with parameters of different names. -/
theorem sized_addParams {ps : List Parameter} (distinct : Routine.Distinct ps)
    (count : ps.length = arity name) : Sized arity (Routine.addParams { name } ps) := by
  have all : ps.foldl Routine.addParam [] = ps := Routine.foldl_addParam distinct
  refine ⟨?_, ?_, nofun, nofun⟩
  · simp [Routine.addParams, all, count]
  · simpa [Routine.addParams, all] using distinct

end Sized

/-- Every routine of the protocol is sized, also after a clean-up. -/
theorem sized_cleanUp (all : ∀ r ∈ p.routines, Sized arity r) (entry : String) :
    ∀ r ∈ (p.cleanUp entry).routines, Sized arity r := by
  intro r member
  obtain ⟨r', member', rfl⟩ := mem_map.1 member
  have sized := all r' (mem_filter.1 member').1
  refine ⟨sized.params, sized.distinct, fun s inside name args invokes => ?_, sized.waiting⟩
  obtain ⟨s', inside', stays, rfl⟩ := mem_restrictAll_iff.1 inside
  exact sized.stmts s' inside' name args (invokes.of_restrict stays).2

/-- In a sized protocol every call and spawn passes as many arguments as its target has parameters. -/
theorem args_eq_params (all : ∀ r ∈ p.routines, Sized arity r) {r : Routine} (member : r ∈ p.routines)
    (inside : s ∈ r.stmts) {args : List String} (invokes : Invokes s name args) {target : Routine}
    (found : p.routine? name = some target) : args.length = target.params.length := by
  have named : target.name = name := by simpa using find?_some found
  rw [(all r member).stmts s inside name args invokes, (all target (mem_of_find?_eq_some found)).params, named]

end ChanFlow.Protocol

namespace ChanFlow.Analysis

open Ssa Protocol

variable {a : Activation} {name : String} {args : List String}

/-- The channels brought to a point of the analysis are as many as expected there. -/
def Agrees (arity : String → Nat) : Point → Machine → Prop
  | .edge _ dst, m => ∀ block ∈ m.act.func.block? dst, block.isMergePoint →
    m.act.loops.current.repeatsAt dst = false → m.act.routine.continuationParams.length = arity (m.act.mergeLabel dst)
  | .handOver func channels, _ => channels.length = arity func
  | _, _ => True

section

variable {arity : String → Nat}

theorem fits_call (count : args.length = arity name) : Fits arity (.call name args) := by
  rintro _ _ ⟨⟩
  exact count

theorem fits_spawn (count : args.length = arity name) : Fits arity (.spawn name args) := by
  rintro _ _ ⟨⟩
  exact count

theorem Newcomer.sized {caller : Activation} {f : Function} (new : Newcomer caller f a)
    (count : a.routine.params.length = arity f.name) : Sized arity a.routine := by
  refine ⟨new.name ▸ count, new.distinct, ?_, ?_⟩
  · rw [new.unbegun.stmts]
    exact nofun
  · rw [new.unbegun.waiting]
    exact nofun

theorem construction_sized (p : Program) : Construction p (Agrees arity) (Sized arity) where
  header := Sized.header
  channels sized elementary := sized.addStatement (fits_of_callees elementary.silent)
  merge reached found merge fresh sized := by
    have count := reached _ found merge fresh
    refine ⟨sized.addStatement (fits_call (by simpa using count)), ?_⟩
    exact sized_addParams (Routine.distinct_continuationParams sized.distinct) count
  handOver {_ f _ a} count _ new := by
    have count' : (a.routine.params.map (·.caller)).length = arity f.name := by rwa [length_map]
    exact ⟨new.sized count, fun sized => ⟨sized.addStatement (fits_call count'),
      sized.addStatement (fits_spawn count')⟩⟩
  setAside := Sized.setAside
  addBranch sized waits := sized.addBranch waits
  extendCaseOf {r _ before rest _ _} sized waits extended := by
    obtain ⟨old, waiting⟩ := forall_mem_cons.1 (waits ▸ sized.waiting)
    have around : Sized arity { r with stmts := before, waiting := rest } :=
      ⟨sized.params, sized.distinct, old, waiting⟩
    exact around.extendCaseOf sized.stmts extended

end

/-- Where all arrivals at a merge point bring the same number of channels and a function is always handed the same
number, every call and spawn in the protocol passes as many arguments as its target has parameters. -/
theorem invocations_fit {p : Program} {o : Options} {budget : Nat} {protocol : Protocol} {arity : String → Nat}
    (nullary : arity o.entry = 0) (agree : ∀ point m, Reachable p o point m → Agrees arity point m)
    (inferred : (infer budget p o).result = .ok protocol) :
    ∀ r ∈ protocol.routines, ∀ s ∈ r.stmts, ∀ name args, Invokes s name args →
      ∀ target, protocol.routine? name = some target → args.length = target.params.length := by
  obtain ⟨found, built, rfl⟩ := (construction_sized p).of_inferred (o := o) ⟨nullary.symm, nodup_nil,
    nofun, nofun⟩ agree inferred
  have sized : ∀ r ∈ found.routines, Sized arity r := fun r member => (built r member).1
  intro r member s inside name args invokes target known
  cases cleaned : o.cleanUp <;> rw [cleaned] at member known
  · exact args_eq_params sized member inside invokes known
  · exact args_eq_params (sized_cleanUp sized o.entry) member inside invokes known

/-- Makes a channel, may use it, and hands it on. -/
def forwarding : Function := .closed "main.main" [
  .of 0 none [] [1, 2] [
    .define "ch" .intChan (.makeChan (.int 1)),
    .define "c" .bool (.binary .eq (.var "ch") (.const .nil)),
    .perform (.branch (.var "c") 1 2)],
  .of 1 none [0] [2] [
    .perform (.send (.var "ch") (.int 0)),
    .perform (.jump 2)],
  .of 2 none [0, 1] [] [
    .perform (.go ⟨.static "main.drain", [.var "ch"]⟩),
    .perform (.ret [])]]

/-- Receives from the channel it is given. -/
def draining : Function where
  name := "main.drain"
  params := [⟨"from", .intChan⟩]
  freeVars := []
  results := none
  blocks := [
    .of 0 none [] [] [
      .define "v" .int (.recv (.var "from") false),
      .perform (.ret [])]]

def forwardingArity (name : String) : Nat := if name = "main.main" then 0 else 1

instance (arity : String → Nat) : (point : Point) → (m : Machine) → Decidable (Agrees arity point m)
  | .edge _ dst, m => inferInstanceAs (Decidable (∀ block ∈ m.act.func.block? dst, block.isMergePoint →
    m.act.loops.current.repeatsAt dst = false → m.act.routine.continuationParams.length =
      arity (m.act.mergeLabel dst)))
  | .handOver func channels, _ => inferInstanceAs (Decidable (channels.length = arity func))
  | .instr .., _ | .block _, _ | .nextTask, _ => .isTrue trivial

theorem forwarding_fits :
    (∀ point m, Reachable { functions := [forwarding, draining] } {} point m → Agrees forwardingArity point m) ∧
      ∃ protocol, (infer 100 { functions := [forwarding, draining] } {}).result = .ok protocol ∧
        ∀ r ∈ protocol.routines, ∀ s ∈ r.stmts, ∀ name args, Invokes s name args →
          ∀ target, protocol.routine? name = some target → args.length = target.params.length := by
  have ends : ¬ Stops (analyse ⟨{ functions := [forwarding, draining] }, {}⟩
      (Machine.start { functions := [forwarding, draining] } forwarding 20)) := by decide +kernel
  have below : ∀ n < 20, (stop? { functions := [forwarding, draining] } {} n).all fun s =>
      Agrees forwardingArity s.1 s.2 := by decide +kernel
  have agree (point : Point) (m : Machine) (reached : Reachable { functions := [forwarding, draining] } {} point m) :
      Agrees forwardingArity point m := by
    obtain ⟨n, stops⟩ := reached
    exact of_decide_eq_true (StopsAt.checked stops rfl ends below)
  obtain ⟨protocol, inferred⟩ := ok_of_toBool
    (by decide +kernel : (infer 100 { functions := [forwarding, draining] } {}).result.toBool)
  exact ⟨agree, protocol, inferred, invocations_fit rfl agree inferred⟩

/-- Makes a channel in each round of a loop, and waits for an answer on it. -/
def polling : Function := .closed "main.main" [
  .of 0 none [] [1] [.perform (.jump 1)],
  .of 1 (some "for.loop") [0, 2] [2, 3] [
    .define "c" .bool (.binary .lt (.int 0) (.int 1)),
    .perform (.branch (.var "c") 2 3)],
  .of 2 (some "for.body") [1] [1] [
    .define "ch" .intChan (.makeChan (.int 0)),
    .perform (.go ⟨.static "main.work", [.var "ch"]⟩),
    .define "v" .int (.recv (.var "ch") false),
    .perform (.jump 1)],
  .of 3 (some "for.done") [1] [] [.perform (.ret [])]]

def working : Function where
  name := "main.work"
  params := [⟨"out", .intChan⟩]
  freeVars := []
  results := none
  blocks := [
    .of 0 none [] [] [
      .perform (.send (.var "out") (.int 1)),
      .perform (.ret [])]]

/-- The channel is in scope on the way back to the header, and was not on the way in. -/
theorem polling_unfit : polling.Linked ∧ working.Linked ∧
    ∃ protocol, (infer 100 { functions := [polling, working] } {}).result.toOption = some protocol ∧
      ∃ r ∈ protocol.routines, ∃ s ∈ r.stmts, Invokes s "main.main#1" ["ch"] ∧
        ∃ target, protocol.routine? "main.main#1" = some target ∧ target.params = [] := by
  let round : Statement :=
    .branch [.newChan "ch" 0, .spawn "main.work" ["ch"], .recv "ch", .call "main.main#1" ["ch"]] []
  let loop : Routine := { name := "main.main#1", stmts := [round] }
  let protocol : Protocol := ⟨[{ name := "main.main", stmts := [.call "main.main#1" []] }, loop,
    { name := "main.work", params := [⟨"ch", "out"⟩], stmts := [.send "out"] }]⟩
  have inferred : (infer 100 { functions := [polling, working] } {}).result.toOption =
    some protocol := by decide +kernel
  have found : protocol.routine? "main.main#1" = some loop := by decide +kernel
  have back : Invokes round "main.main#1" ["ch"] := .onTrue (s := .call "main.main#1" ["ch"]) (by simp) .call
  exact ⟨⟨polling.draft, rfl⟩, ⟨working.draft, rfl⟩, protocol, inferred,
    loop, by simp [protocol], round, by simp [loop], back, loop, found, rfl⟩

end ChanFlow.Analysis
