import ChanFlow.Proofs.Quiet

/-!
Instructions that tell something about the loop they stand in.

A phi, a comparison and the branch of a header may change the current loop, and nothing else that steers
the walk. `Turn` lists the changes.
-/
namespace ChanFlow.Nest

open Ssa

/-- The loops of a nest, the current one first. -/
def loops (n : Nest) : List Loop := n.current :: n.outer

/-- What entering a block can make of the loops around it. -/
inductive Entering (n : Nest) (block : Nat) : Role → Nest → Prop
  | move {role : Role} (state : Loop.State) : Entering n block role ⟨{ n.current with state }, n.outer⟩
  | replace : Entering n block .loopHeader ⟨entered block, n.outer⟩
  | unconditional {role : Role} : Entering n block role ⟨{ state := .body, bound := .dynamic }, n.outer⟩
  | push (state : Loop.State) : Entering n block .loopHeader ⟨entered block, { n.current with state } :: n.outer⟩
  | pop {role : Role} {l : Loop} {rest : List Loop} (around : n.outer = l :: rest) : Entering n block role ⟨l, rest⟩

theorem entering_enter (n : Nest) (block : Nat) (role : Role) : Entering n block role (n.enter block role).1 := by
  obtain ⟨state, now⟩ :
    ∃ state, (if n.current.state = .exit then { n.current with state := .nonLoop } else n.current) =
      { n.current with state } := by
    split
    · exact ⟨_, rfl⟩
    · exact ⟨n.current.state, rfl⟩
  unfold enter
  dsimp only
  rw [now]
  split
  · exact .replace
  · exact .unconditional
  · exact .move _
  · split
    · exact .move _
    · next around => exact .pop around
  · split
    · exact .move _
    · next around => exact .pop around
  · split
    · exact .move _
    · exact .push _
  · split
    · exact .move _
    · exact .push _
  · exact .move _

/-- Entering a block keeps what holds of every loop, whatever the walk's place in it, of a loop just entered
and of one without a header. -/
theorem forall_enter {P : Loop → Prop} {n : Nest} {block : Nat} {role : Role} (all : ∀ l ∈ n.loops, P l)
    (moved : ∀ l state, P l → P { l with state }) (header : role = .loopHeader → P (entered block))
    (body : P { state := .body, bound := .dynamic }) : ∀ l ∈ (n.enter block role).1.loops, P l := by
  obtain ⟨current, outer⟩ := List.forall_mem_cons.1 all
  have entering := n.entering_enter block role
  generalize (n.enter block role).1 = n' at entering ⊢
  cases entering with
  | move state => exact List.forall_mem_cons.2 ⟨moved _ state current, outer⟩
  | replace => exact List.forall_mem_cons.2 ⟨header rfl, outer⟩
  | unconditional => exact List.forall_mem_cons.2 ⟨body, outer⟩
  | push state =>
    exact List.forall_mem_cons.2 ⟨header rfl, List.forall_mem_cons.2 ⟨moved _ state current, outer⟩⟩
  | pop around =>
    rw [around] at outer
    exact outer

end ChanFlow.Nest

namespace ChanFlow.Analysis

open Ssa

variable {action : Action} {arrival : Arrival} {m m' : Machine} {event : Loop → Option Event} {change : Loop → Loop}
  {x : Run Unit}

def Machine.setLoop (m : Machine) (l : Loop) : Machine := { m with act := m.act.setLoop l }

/-- What a comparison tells of an index: the value on the left once the constant is on the right, the relation, and
the constant. -/
def compared (op : BinOp) (x y : Operand) : Option String × BinOp × Option Int :=
  match x.var? with
  | some var => (some var, op, y.int?)
  | none => (y.var?, op.flip, x.int?)

/-- What the current loop can become by an action that is interpreted on an arrival. -/
inductive Turn (a : Activation) (arrival : Arrival) : Action → Loop → Prop
  | stay (action : Action) : Turn a arrival action a.loops.current
  | advance {value : String} {ty : Ty} {edges : List PhiEdge} (static : a.loops.current.isStatic) :
    Turn a arrival (.define value ty (.phi edges)) a.loops.current.advance
  | candidate {value : String} {ty : Ty} {edges : List PhiEdge} {start step : Int}
    (header : a.loops.current.header = some arrival.block)
    (found : indexCandidate? a.func value edges = some (start, step)) :
    Turn a arrival (.define value ty (.phi edges)) (a.loops.current.noteIndex value start step)
  | comparison {value : String} {ty : Ty} {op : BinOp} {x y : Operand}
    (header : a.loops.current.header = some arrival.block) (maxUnroll : Nat) :
    Turn a arrival (.define value ty (.binary op x y)) (a.loops.current.noteCondition value (compared op x y).1
      (compared op x y).2.1 (compared op x y).2.2 maxUnroll)
  | settle {cond : Operand} {onTrue onFalse : Nat} :
    Turn a arrival (.perform (.branch cond onTrue onFalse)) a.loops.current.settle

/-- The machine after a step that turned the current loop into `l` and stayed inside its block. -/
def Turned (action : Action) (arrival : Arrival) (m m' : Machine) : Prop :=
  ∃ l, Turn m.act arrival action l ∧ Quiet (m.setLoop l) m'

theorem Turned.quiet {m'' : Machine}
    (turned : Turned action arrival m m') (quiet : Quiet m' m'') : Turned action arrival m m'' := by
  obtain ⟨l, turn, first⟩ := turned
  exact ⟨l, turn, first.trans quiet⟩

theorem Turned.revisits (turned : Turned action arrival m m') : m'.Revisits ↔ m.Revisits := by
  obtain ⟨l, _, quiet⟩ := turned
  exact quiet.revisits

theorem Quiet.turned (quiet : Quiet m m') (action : Action) (arrival : Arrival) :
    Turned action arrival m m' := ⟨m.act.loops.current, .stay action, quiet⟩

theorem leads_emit? {e : Option Event} (other : ∀ block, e ≠ some (.blockRevisited block)) (m : Machine) :
    Leads (emit? e) m (fun _ m' => Quiet m m' ∧ m'.budget = m.budget) fun _ _ => False := by
  cases e with
  | none => exact ⟨.refl m, rfl⟩
  | some e => exact ⟨.push m fun block eq => other block (eq ▸ rfl), rfl⟩

theorem Quiet.setLoop (quiet : Quiet m m') (l : Loop) : Quiet (m.setLoop l) (m'.setLoop l) := by
  obtain ⟨skeleton, stmts, protocol, tasks, revisits, counts⟩ := quiet
  refine ⟨?_, stmts, protocol, tasks, revisits, counts⟩
  have turned := congrArg (fun a : Activation => a.setLoop l) skeleton
  exact turned

/-- The loop changes as told; nothing halts. -/
theorem leads_changeLoop (other : ∀ l block, event l ≠ some (.blockRevisited block)) (m : Machine) :
    Leads (changeLoop event change) m
      (fun _ m' => Quiet (m.setLoop (change m.act.loops.current)) m' ∧ m'.budget = m.budget)
      fun _ _ => False := by
  rw [changeLoop, leads_bind, leads_activation, leads_bind]
  refine (leads_emit? (other _) m).imp (fun _ m' told => ?_)
  exact ⟨told.1.setLoop _, told.2⟩

theorem advanceEvent?_ne (l : Loop) (block : Nat) : l.advanceEvent? ≠ some (.blockRevisited block) := by
  intro told
  simp only [Loop.advanceEvent?, Option.bind_eq_bind, Option.bind_eq_some_iff] at told
  obtain ⟨step, -, told⟩ := told
  split at told
  · exact nomatch told
  · exact nomatch Option.some.inj told

theorem candidateEvent?_ne (value : String) (start step : Int) (l : Loop) (block : Nat) :
    l.candidateEvent? value start step ≠ some (.blockRevisited block) := by
  unfold Loop.candidateEvent?
  split <;> simp

theorem conditionEvent?_ne (value : String) (x : Option String) (op : BinOp) (bound : Option Int) (maxUnroll : Nat)
    (l : Loop) (block : Nat) : l.conditionEvent? value x op bound maxUnroll ≠ some (.blockRevisited block) := by
  unfold Loop.conditionEvent?
  split
  · split <;> simp
  · simp

section

variable {m : Machine} {arrival : Arrival} {value : String} {ty : Ty} {edges : List PhiEdge}

/-- How an instruction that may turn the loop comes out. -/
def LeadsTurning (x : Run Unit) (m : Machine) (action : Action) (arrival : Arrival) : Prop :=
  Leads x m (fun _ m' => Turned action arrival m m' ∧ m'.budget = m.budget)
    fun h m' => (∀ point, h ≠ .stopped point) ∧ Turned action arrival m m'

theorem LeadsTurning.of_quietly (quietly : Quietly x) (m : Machine) (action : Action)
    (arrival : Arrival) : LeadsTurning x m action arrival :=
  (quietly.leads m).weaken (fun _ _ led => ⟨led.1.turned action arrival, led.2⟩)
    fun _ _ led => ⟨led.1, led.2.turned action arrival⟩

theorem LeadsTurning.read {f : Activation → Run Unit} (next : LeadsTurning (f m.act) m action arrival) :
    LeadsTurning (activation >>= f) m action arrival := leads_bind.2 next

theorem LeadsTurning.bind {f : Unit → Run Unit} (first : LeadsTurning x m action arrival)
    (next : ∀ u, Quietly (f u)) : LeadsTurning (x >>= f) m action arrival := by
  rw [LeadsTurning, leads_bind]
  refine first.imp fun u m' led => ?_
  exact ((next u).leads m').weaken (fun _ _ led' => ⟨led.1.quiet led'.1, led'.2.trans led.2⟩)
    fun _ _ led' => ⟨led'.1, led.1.quiet led'.2⟩

theorem LeadsTurning.of_change (other : ∀ l block, event l ≠ some (.blockRevisited block))
    (turn : Turn m.act arrival action (change m.act.loops.current)) :
    LeadsTurning (changeLoop event change) m action arrival :=
  (leads_changeLoop other m).surely fun _ _ led => ⟨⟨_, turn, led.1⟩, led.2⟩

theorem leads_advanceIndex (static : m.act.loops.current.isStatic) :
    LeadsTurning (advanceIndex arrival edges) m (.define value ty (.phi edges)) arrival := by
  unfold advanceIndex
  split
  · exact .of_change advanceEvent?_ne (.advance static)
  · exact .of_quietly (.pure ()) m _ arrival

theorem leads_noteCandidate :
    LeadsTurning (noteCandidate arrival value edges) m (.define value ty (.phi edges)) arrival := by
  refine .read ?_
  split
  · next header =>
    simp only [atHeader, Bool.and_eq_true, decide_eq_true_eq] at header
    split
    · next found => exact .of_change (candidateEvent?_ne _ _ _) (.candidate header.1.2 found)
    · exact .of_quietly (.pure ()) m _ arrival
  · exact .of_quietly (.pure ()) m _ arrival

theorem leads_phi : LeadsTurning (phi arrival value edges) m (.define value ty (.phi edges)) arrival := by
  refine .read ?_
  split
  · exact .of_quietly (.failWith _) m _ arrival
  · dsimp only
    split
    · next header =>
      simp only [Bool.and_eq_true] at header
      exact (leads_advanceIndex header.1.2).bind fun _ => .bind .activation fun _ => quietly_bindValue value _
    · exact leads_noteCandidate.bind fun _ => .of_composed (composed_takeEdge value _)

theorem leads_binary {maxUnroll : Nat} {op : BinOp} {x y : Operand} :
    LeadsTurning (binary maxUnroll arrival value ty op x y) m (.define value ty (.binary op x y)) arrival := by
  refine .bind (.read ?_) fun _ => quietly_bindFresh value ty
  split
  · next header =>
    simp only [atHeader, Bool.and_eq_true, decide_eq_true_eq] at header
    exact .of_change (conditionEvent?_ne _ _ _ _ _) (.comparison header.1.2.2 _)
  · exact .of_quietly (.pure ()) m _ arrival

end

end ChanFlow.Analysis
