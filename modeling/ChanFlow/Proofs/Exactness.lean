import ChanFlow.Proofs.Arrivals
import ChanFlow.Proofs.Traces

/-!
Protocols have the traces of the functions they are inferred from.

In a function of `Plain` instructions, which create, use and close channels held in local values, a channel
has the name of the value it is held in, and no branch is the test of a select. The walk of a block adds
`Code` for the block to the current routine, and leaves a routine with code for every merge point it gave a
label. So the routine of the function has the traces of its paths.
-/
open List

namespace ChanFlow.Analysis

open Ssa Protocol

variable {f : Function} {b dst onTrue onFalse : Nat} {i : Instr} {a : Activation} {x : String} {arrival : Arrival}
  {env : Env} {walk : Walker} {action : Action} {op : Option ChanOp} {p : Program} {o : Options} {m m' m'' : Machine}
  {place : Place} {ops : List ChanOp} {block : Block}

/-! ### Names of merge points -/

theorem mergeName_inj {b' : Nat} (same : mergeName f b = mergeName f b') : b = b' := by
  have numerals : toString b = toString b' := (String.append_right_inj _).1 same
  rw [Nat.toString_eq_ofList_toDigits, Nat.toString_eq_ofList_toDigits, String.ofList_inj] at numerals
  have read := congrArg (Nat.ofDigitChars 10 · 0) numerals
  simpa only [Nat.ofDigitChars_ten_toDigits] using read

theorem mergeName_ne (f : Function) (b : Nat) : mergeName f b ≠ f.name := by
  intro same
  have length := congrArg String.length same
  have mark : "#".length = 1 := rfl
  simp only [mergeName, String.length_append, mark] at length
  omega

/-! ### Plain instructions -/

/-- What a plain instruction other than a terminator does, with the operation it performs. -/
inductive PlainAction : Action → Option ChanOp → Prop
  | makeChan {x : String} {ty : Ty} {capacity : Operand} {n : Int} (constant : capacity.int? = some n) :
    PlainAction (.define x ty (.makeChan capacity)) (some (.newChan x n))
  | recv {x : String} {ty : Ty} {chan : String} {commaOk : Bool} :
    PlainAction (.define x ty (.recv (.var chan) commaOk)) (some (.recv chan))
  | binary {x : String} {ty : Ty} {op : BinOp} {a b : Operand} : PlainAction (.define x ty (.binary op a b)) none
  | unary {x : String} {ty : Ty} {op : UnOp} {a : Operand} : PlainAction (.define x ty (.unary op a)) none
  | closed {x : String} {ty : Ty} {chan : String} {rest : List Operand} :
    PlainAction (.define x ty (.call ⟨.builtin "close", .var chan :: rest⟩)) (some (.close chan))
  | close {chan : String} {rest : List Operand} :
    PlainAction (.perform (.call ⟨.builtin "close", .var chan :: rest⟩)) (some (.close chan))
  | send {chan : String} {value : Operand} : PlainAction (.perform (.send (.var chan) value)) (some (.send chan))

/-- Whether an instruction creates, uses or closes a channel held in a local value, computes a value or leaves
its block. -/
def isPlain (i : Instr) : Bool :=
  match i.action with
  | .define _ _ (.makeChan capacity) => capacity.int?.isSome
  | .define _ _ (.recv (.var _) _) | .define _ _ (.binary ..) | .define _ _ (.unary ..) => true
  | .define _ _ (.call ⟨.builtin "close", .var _ :: _⟩) => true
  | .perform (.call ⟨.builtin "close", .var _ :: _⟩) | .perform (.send (.var _) _) => true
  | .perform effect => effect.isTerminator
  | _ => false

theorem plainAction_of_isPlain (plain : isPlain i) (inner : i.isTerminator = false) :
    PlainAction i.action i.chanOp? := by
  obtain ⟨action, pos⟩ := i
  simp only [isPlain] at plain
  split at plain
  · obtain ⟨n, constant⟩ := Option.isSome_iff_exists.1 plain
    simp only [Instr.chanOp?, constant]
    exact .makeChan constant
  · exact .recv
  · exact .binary
  · exact .unary
  · exact .closed
  · exact .close
  · exact .send
  · simp [Instr.isTerminator, plain] at inner
  · exact absurd plain Bool.false_ne_true

/-- Every value is an instance of its own name, and no select is open. -/
structure SelfNamed (a : Activation) : Prop where
  names : a.names = {}
  selects : a.selects = {}
  locals : ∀ x i, a.resolve? x = some i → ∃ routine seq index ty, i = .value ⟨routine, x⟩ seq index ty

theorem SelfNamed.channelName (named : SelfNamed a) {i : Instance}
    (bound : a.resolve? x = some i) : a.channelName i = x := by
  obtain ⟨routine, seq, index, ty, rfl⟩ := named.locals x i bound
  rw [Activation.channelName, named.names]
  rfl

theorem SelfNamed.bind_fresh (named : SelfNamed a) (x : String) (ty : Ty) : SelfNamed (a.bind x (a.fresh x ty)) := by
  refine ⟨named.names, named.selects, fun y i bound => ?_⟩
  rw [Activation.resolve?, Activation.bind, Table.get?_insert] at bound
  split at bound
  · next same =>
    obtain rfl := Option.some.inj bound
    exact same ▸ ⟨_, _, _, _, rfl⟩
  · exact named.locals y i bound

/-- The machine after an instruction that writes the statement of an operation, if it performs one. -/
structure Writes (op : Option ChanOp) (m m' : Machine) : Prop where
  named : SelfNamed m'.act
  stmts : m'.act.routine.stmts = (op.map (·.statement)).toList.foldl Routine.append m.act.routine.stmts

section Plain

variable {m : Machine}

section

variable (named : SelfNamed m.act)
include named

theorem leads_channelOf {chan : String} {done : String → Machine → Prop}
    (ends : done chan m) : Leads (channelOf (.var chan)) m done := by
  simp only [channelOf, instanceOf, instanceOf?, leads_bind, leads_activation, leads_pure]
  cases bound : m.act.resolve? chan with
  | none => trivial
  | some i => exact (named.channelName bound).symm ▸ ends

theorem leads_bindFresh (x : String) (ty : Ty) :
    Leads (bindFresh x ty) m fun _ m' => SelfNamed m'.act ∧ m'.act.routine = m.act.routine :=
  ⟨named.bind_fresh x ty, rfl⟩

theorem leads_bindWithFlag (x : String) (ty : Ty) (first : Option Instance) :
    Leads (bindWithFlag x ty first) m fun _ m' => SelfNamed m'.act ∧ m'.act.routine = m.act.routine :=
  ⟨{ named.bind_fresh x ty with }, rfl⟩

theorem SelfNamed.addStatement (s : Statement) : SelfNamed (m.addStatement s).act := { named with }

theorem leads_close (chan : String) :
    Leads (close (.var chan)) m fun _ m' => Writes (some (.close chan)) m m' := by
  rw [close, leads_bind]
  exact leads_channelOf named ⟨named.addStatement _, rfl⟩

theorem leads_noteComparison {maxUnroll : Nat} {op : BinOp} {a b : Operand} :
    Leads (noteComparison maxUnroll arrival x op a b) m
      fun _ m' => SelfNamed m'.act ∧ m'.act.routine = m.act.routine := by
  rw [noteComparison, leads_bind, leads_activation]
  split
  · simp only [changeLoop, leads_bind, leads_activation]
    cases m.act.loops.current.conditionEvent? _ _ _ _ _ <;> exact ⟨{ named with }, rfl⟩
  · exact ⟨named, rfl⟩

end

/-- What a plain instruction writes. -/
theorem leads_writes (plain : PlainAction action op) (named : SelfNamed m.act) :
    Leads (interpret env walk arrival action) m fun _ m' => Writes op m m' := by
  cases plain with
  | @makeChan x ty capacity n constant =>
    simp only [interpret, define, makeChan, constant, leads_bind]
    refine (leads_bindFresh named x ty).imp fun _ m' bound => ?_
    exact ⟨bound.1.addStatement _, by simp [bound.2, Routine.addStatement, ChanOp.statement]⟩
  | @recv x ty chan commaOk =>
    simp only [interpret, define, recv, leads_bind]
    refine leads_channelOf named ?_
    rw [leads_addStatement]
    split
    · refine (leads_bindWithFlag (named.addStatement (.recv chan)) x ty none).imp fun _ m' bound => ?_
      exact ⟨bound.1, congrArg (·.stmts) bound.2⟩
    · refine (leads_bindFresh (named.addStatement (.recv chan)) x ty).imp fun _ m' bound => ?_
      exact ⟨bound.1, congrArg (·.stmts) bound.2⟩
  | @binary x ty op a b =>
    simp only [interpret, define, binary, leads_bind]
    refine (leads_noteComparison named).imp fun _ m' kept => ?_
    refine (leads_bindFresh kept.1 x ty).imp fun _ m'' bound => ?_
    exact ⟨bound.1, congrArg (·.stmts) (bound.2.trans kept.2)⟩
  | @unary x ty op a =>
    refine (leads_bindFresh named x ty).imp fun _ m' bound => ?_
    exact ⟨bound.1, congrArg (·.stmts) bound.2⟩
  | closed => exact leads_close named _
  | close => exact leads_close named _
  | send =>
    simp only [interpret, perform, send, leads_bind]
    exact leads_channelOf named ⟨named.addStatement _, rfl⟩

theorem leads_plainTurned
    (plain : PlainAction action op) : LeadsTurning (interpret env walk arrival action) m action arrival := by
  cases plain with
  | makeChan => exact .of_quietly (.of_composed (composed_makeChan trivial _ _ _)) m _ arrival
  | recv => exact .of_quietly (.of_composed (composed_recv trivial _ _ _ _)) m _ arrival
  | binary => exact leads_binary
  | unary => exact .of_quietly (quietly_bindFresh _ _) m _ arrival
  | @closed x ty chan rest =>
    exact .of_quietly (quietly_callBuiltin "close" (.var chan :: rest) (some (x, ty))) m _ arrival
  | @close chan rest => exact .of_quietly (quietly_callBuiltin "close" (.var chan :: rest) none) m _ arrival
  | send => exact .of_quietly (.of_composed (composed_send trivial _)) m _ arrival

theorem leads_instanceOf? (x : Operand) (m : Machine) :
    Leads (instanceOf? x) m (fun _ m' => m'.act = m.act) fun _ _ => False := by
  cases x <;> exact rfl

theorem leads_returnValues (named : SelfNamed m.act) (slot : Nat) (xs : List Operand) :
    Leads (returnValues slot xs) m fun _ m' => SelfNamed m'.act ∧ m'.act.routine = m.act.routine := by
  induction xs generalizing m slot with
  | nil => exact ⟨named, rfl⟩
  | cons x rest ih =>
    rw [returnValues, leads_bind]
    refine (leads_instanceOf? x m).surely fun i m' same => ?_
    rw [← same] at named ⊢
    cases i with
    | none => exact ih (m := m'.emit _) named (slot + 1)
    | some i =>
      exact ih (m := m'.onAct (·.setReturned slot i)) { named with } (slot + 1)

end Plain

/-! ### Functions of plain instructions -/

structure Plain (f : Function) : Prop where
  linked : f.Linked
  instrs : ∀ block ∈ f.blocks, ∀ i ∈ block.instrs, isPlain i
  /-- Only the last instruction of a block leaves it. -/
  ends : ∀ block ∈ f.blocks, ∀ i ∈ block.instrs.dropLast, i.isTerminator = false
  /-- Nothing leads back to the first block. -/
  entry : ∀ block ∈ f.blocks, 0 ∉ block.succs
  /-- The targets of a branch differ. -/
  apart : ∀ block ∈ f.blocks, block.succs.Nodup

theorem unranged_of_isPlain {j : Instr} (plain : isPlain i) : ranges f i j = false := by
  obtain ⟨action, pos⟩ := i
  simp only [ranges]
  split
  · exact absurd plain Bool.false_ne_true
  · rfl

theorem mayCall_of_isPlain (plain : isPlain i) : mayCall i = false := by
  obtain ⟨action, pos⟩ := i
  simp only [isPlain] at plain
  split at plain
  any_goals rfl
  · next effect _ _ => cases effect <;> first | rfl | exact nomatch plain
  · exact nomatch plain

theorem Plain.steady (plain : Plain f) : Steady f where
  linked := plain.linked
  ends := plain.ends
  entry := plain.entry
  apart block member dst _ both := by simpa [both] using plain.apart block member
  unranged block member _ i inside _ _ := unranged_of_isPlain (plain.instrs block member i inside)

/-- Where the entry is plain and there is no initialiser, nothing else is interpreted. -/
theorem interpreted_eq {g : Function} (plain : Plain f) (entry : p.function? o.entry = some f)
    (alone : (p.function? o.init).filter (·.hasBody) = none) (runs : Interpreted p o g) : g = f := by
  induction runs with
  | entry found => exact Option.some.inj ((Option.filter_eq_some_iff.1 found).1.symm.trans entry)
  | init found => exact nomatch found.symm.trans alone
  | called _ calls _ _ same =>
    obtain ⟨i, block, found, instr, member, calls⟩ := calls
    subst same
    have never := mayCall_of_isPlain (plain.instrs block (mem_of_getElem? found) instr member)
    exact absurd calls (Bool.eq_false_iff.1 never)

/-! ### Walks -/

/-- The merge points that have a label. -/
abbrev Machine.Labelled (m : Machine) : Nat → Prop := m.act.course.Labelled

structure Faithful (f : Function) (m : Machine) : Prop where
  func : m.act.func = f
  calm : ∀ l ∈ m.act.loops.loops, Calm f l
  named : SelfNamed m.act
  labels : ∀ b label, m.act.labels.get? (b, []) = some label → label = mergeName f b
  tasks : m.tasks.waiting = []

/-- The merge points that got a label meanwhile have a routine with code for them, and no other routine has
changed. -/
structure Supplied (f : Function) (m m' : Machine) : Prop where
  labels : ∀ b, m.Labelled b → m'.Labelled b
  news : ∀ b, m'.Labelled b → ¬ m.Labelled b →
    ∃ r, m'.context.protocol.routine? (mergeName f b) = some r ∧ Code f m'.Labelled (.block b) r.stmts
  others : ∀ name, (∀ b, m'.Labelled b → ¬ m.Labelled b → name ≠ mergeName f b) →
    m'.context.protocol.routine? name = m.context.protocol.routine? name

theorem Supplied.of_same (labels : m'.act.labels = m.act.labels)
    (protocol : m'.context.protocol = m.context.protocol) : Supplied f m m' := by
  have same (b : Nat) : m'.Labelled b ↔ m.Labelled b :=
    Iff.of_eq (congrArg (fun known : Table BlockVisit String => known.get? (b, []) ≠ none) labels)
  exact ⟨fun b => (same b).2, fun b now before => absurd ((same b).1 now) before, fun _ _ => by rw [protocol]⟩

theorem Supplied.trans {m₁ m₂ : Machine} (one : Supplied f m m₁) (two : Supplied f m₁ m₂) :
    Supplied f m m₂ := by
  refine ⟨fun b => two.labels b ∘ one.labels b, fun b now before => ?_, fun name other => ?_⟩
  · by_cases between : m₁.Labelled b
    · obtain ⟨r, found, code⟩ := one.news b between before
      refine ⟨r, ?_, code.mono two.labels⟩
      rw [two.others, found]
      exact fun b' _ new same => new (mergeName_inj same ▸ between)
    · exact two.news b now between
  · rw [two.others name fun b now new => other b now fun old => new (one.labels b old)]
    exact one.others name fun b now new => other b (two.labels b now) new

/-- The machine after a walk from a place: the current list got code for the place. -/
structure Drafted (f : Function) (place : Place) (m m' : Machine) : Prop where
  faithful : Faithful f m'
  supplied : Supplied f m m'
  name : m'.act.routine.name = m.act.routine.name
  waiting : m'.act.routine.waiting = m.act.routine.waiting
  stmts : ∃ code, m'.act.routine.stmts = m.act.routine.stmts ++ code ∧ Code f m'.Labelled place code

/-- What follows can be written behind the current list as it is. -/
def Machine.Open (m : Machine) : Prop := m.act.routine.stmts.getLast? ≠ some .tau

theorem append_of_open (isOpen : m.Open) (s : Statement) :
    Routine.append m.act.routine.stmts s = m.act.routine.stmts ++ [s] := if_neg isOpen

theorem open_of_nil (empty : m.act.routine.stmts = []) : m.Open := by simp [Machine.Open, empty]

/-- A walk from a block drafts it, unless something was passed over. -/
def Drafts (f : Function) (walk : Walker) : Prop :=
  ∀ arrival m, Faithful f m → m.Open →
    Leads (walk arrival) m fun _ m' => m'.Revisits ∨ Drafted f (.block arrival.block) m m'

section Walks

variable {f : Function} {walk : Walker} {m m' : Machine}

section

variable (faithful : Faithful f m)
include faithful

theorem Faithful.key (b : Nat) : m.act.key b = (b, []) := by
  rw [Activation.key, show m.act.signature = [] from signature_eq_nil faithful.calm]

theorem Faithful.mergeLabel (b : Nat) : m.act.mergeLabel b = mergeName f b := by
  rw [Activation.mergeLabel, show m.act.signature = [] from signature_eq_nil faithful.calm, faithful.func, mergeName]
  simp

/-- A routine may take the place of the current one. -/
theorem Faithful.setRoutine (r : Routine) : Faithful f (m.setRoutine r) :=
  { faithful with named := { faithful.named with } }

theorem Faithful.openRoutine (r : Routine) (e : Event) : Faithful f (m.openRoutine r e) :=
  { faithful with named := { faithful.named with } }

theorem Faithful.closeRoutine : Faithful f m.closeRoutine := { faithful with }

theorem Faithful.withBudget (n : Nat) : Faithful f (m.withBudget n) := { faithful with }

/-- The label of a merge point that gets one. -/
theorem labelled_addLabel (dst b : Nat) : (m.addLabel dst).Labelled b ↔ b = dst ∨ m.Labelled b := by
  have get : (m.addLabel dst).act.labels.get? (b, []) =
      if m.act.key dst = (b, []) then some (m.act.mergeLabel dst) else m.act.labels.get? (b, []) :=
    Table.get?_insert _ _ _ _
  rw [Machine.Labelled, Course.Labelled, show (m.addLabel dst).act.course.labels = (m.addLabel dst).act.labels from rfl,
    get, faithful.key]
  by_cases same : b = dst
  · simp [same]
  · simp [same, Ne.symm same, Course.Labelled, Activation.course]

/-- A call of a merge point that has its label. -/
theorem drafted_call (isOpen : m.Open) {label : String} (known : m.act.labels.get? (m.act.key dst) = some label)
    (args : List String) : Drafted f (.edge dst) m (m.addStatement (.call label args)) := by
  rw [faithful.key] at known
  obtain rfl := faithful.labels dst label known
  refine ⟨faithful.setRoutine _, .of_same rfl rfl, rfl, rfl, [.call (mergeName f dst) args],
    append_of_open isOpen _, ?_⟩
  refine .call ?_ args
  exact fun absent => nomatch absent.symm.trans known

/-- A merge point that gets its label, and the routine that was made for it. -/
theorem drafted_merge (isOpen : m.Open) {params : List Parameter} {e : Event}
    (unknown : m.act.labels.get? (m.act.key dst) = none)
    (body : Drafted f (.block dst)
      ((m.addLabel dst).openRoutine (Routine.addParams { name := m.act.mergeLabel dst } params) e) m') :
    Drafted f (.edge dst) m (m'.closeRoutine.setRoutine (m.addLabel dst).act.routine) := by
  have labelled := labelled_addLabel faithful dst
  have here : m'.Labelled dst := body.supplied.labels dst ((labelled dst).2 (.inl rfl))
  have before : ¬ m.Labelled dst := by
    rw [faithful.key] at unknown
    exact fun known => known unknown
  have name : m'.act.routine.name = mergeName f dst := body.name.trans (faithful.mergeLabel dst)
  obtain ⟨code, stmts, isCode⟩ := body.stmts
  have closed := Machine.routine?_closeRoutine name
  refine ⟨body.faithful.closeRoutine.setRoutine _,
    ⟨fun b known => ?_, fun b now new => ?_, fun other away => ?_⟩, rfl, rfl, ?_⟩
  · exact body.supplied.labels b ((labelled b).2 (.inr known))
  · by_cases same : b = dst
    · subst same
      refine ⟨m'.act.routine, (closed _).trans (if_pos rfl), ?_⟩
      rw [stmts]
      exact isCode
    · obtain ⟨r, found, isCode⟩ := body.supplied.news b now fun old => ((labelled b).1 old).elim same new
      exact ⟨r, (closed _).trans ((if_neg fun eq => same (mergeName_inj eq).symm).trans found), isCode⟩
  · have elsewhere : mergeName f dst ≠ other := fun eq => away dst here before eq.symm
    refine (closed other).trans ((if_neg elsewhere).trans ?_)
    rw [body.supplied.others other fun b now new => away b now fun old => new ((labelled b).2 (.inr old))]
    exact Protocol.routine?_add_of_ne _ ((faithful.mergeLabel dst).symm ▸ elsewhere)
  · refine ⟨[.call (mergeName f dst) (m.act.routine.continuationParams.map (·.callee))], ?_, .call here _⟩
    rw [← faithful.mergeLabel]
    exact append_of_open isOpen _

end

/-- What is passed over stays so. -/
theorem leads_revisits {x : Run Unit} (regular : Alike 0 x x) (seen : m.Revisits) :
    Leads x m fun _ m' => m'.Revisits := by
  have kept := regular.revisits m seen
  refine leads_of (fun _ m' ends => ?_) fun _ _ _ => trivial
  rwa [ends] at kept

theorem Faithful.addLabel (faithful : Faithful f m) (dst : Nat) : Faithful f (m.addLabel dst) := by
  refine { faithful with named := { faithful.named with }, labels := fun b label known => ?_ }
  have known' : (m.act.labels.insert (m.act.key dst) (m.act.mergeLabel dst)).get? (b, []) = some label := known
  rw [Table.get?_insert, faithful.key, faithful.mergeLabel] at known'
  split at known'
  · next same =>
    obtain ⟨rfl, -⟩ := Prod.mk.inj same
    exact (Option.some.inj known').symm
  · exact faithful.labels b label known'

theorem guided_draftArrival (regular : Regular walk) (drafts : Drafts f walk) (faithful : Faithful f m)
    (isOpen : m.Open) (src dst : Nat) :
    Guided Always (arriveAt walk src dst) m (fun _ m' => m'.Revisits ∨ Drafted f (.edge dst) m m')
      fun _ _ => True := by
  refine guided_arriveAt regular (fun _ => mayFail_true _) ?_ ?_ ?_
  · intro block _ _
    refine .of_leads ((drafts _ m faithful isOpen).imp fun _ m' ends => ends.imp_right fun drafted => ?_)
    obtain ⟨code, stmts, isCode⟩ := drafted.stmts
    exact ⟨drafted.faithful, drafted.supplied, drafted.name, drafted.waiting, code, stmts, .inline isCode⟩
  · intro block label _ _ _ known
    exact .inr (drafted_call faithful isOpen known _)
  · intro block _ _ _ unknown
    refine .of_leads ((drafts _ _ ((faithful.addLabel dst).openRoutine _ _) (open_of_nil rfl)).imp ?_)
    exact fun _ m' ends => ends.imp id (drafted_merge faithful isOpen unknown)

/-- What was drafted since a machine whose list, labels and routines are those of now. -/
theorem Drafted.since {m₀ : Machine} (drafted : Drafted f place m₀ m')
    (routine : m₀.act.routine = m.act.routine) (labels : m₀.act.labels = m.act.labels)
    (protocol : m₀.context.protocol = m.context.protocol) : Drafted f place m m' := by
  obtain ⟨faithful, supplied, name, waiting, stmts⟩ := drafted
  rw [routine] at name waiting stmts
  exact ⟨faithful, (Supplied.of_same labels protocol).trans supplied, name, waiting, stmts⟩

section

variable (regular : Regular walk) (drafts : Drafts f walk) (faithful : Faithful f m) (isOpen : m.Open)
include regular drafts faithful isOpen

theorem guided_draftEdge (src dst : Nat) :
    Guided Always (followEdge walk src dst) m (fun _ m' => m'.Revisits ∨ Drafted f (.edge dst) m m')
      fun _ _ => True := by
  refine guided_followEdge (fun _ => trivial) fun _ n _ => ?_
  refine (guided_draftArrival regular drafts (faithful.withBudget n) isOpen src dst).imp ?_
  exact fun _ m' ends => ends.imp_right (·.since rfl rfl rfl)

/-- Both sides of a branch become one statement. -/
theorem guided_draftSides {src : Nat} :
    Guided Always (walkBothWays walk src onTrue onFalse) m
      (fun _ m' => m'.Revisits ∨ (Faithful f m' ∧ Supplied f m m' ∧ m'.act.routine.name = m.act.routine.name ∧
        m'.act.routine.waiting = m.act.routine.waiting ∧
        ∃ t e, m'.act.routine.stmts = m.act.routine.stmts ++ [branchStatement t e] ∧
          Code f m'.Labelled (.edge onTrue) t ∧ Code f m'.Labelled (.edge onFalse) e))
      fun _ _ => True := by
  have aside : Faithful f m.setAside := faithful.setRoutine _
  refine guided_walkBothWays regular ?_
  refine (guided_draftEdge regular drafts aside (open_of_nil rfl) src onTrue).imp ?_
  rintro - m₁ (seen | first)
  · refine .of_leads ((leads_revisits (alike_followEdge regular src onFalse) ?_).imp ?_)
    · exact seen
    · exact fun _ m₂ seen => ⟨mayFail_true m₂, fun _ _ _ _ => .inl seen⟩
  · have again : Faithful f (m₁.setAside.resetLoops m.act.loops) :=
      { first.faithful with calm := faithful.calm, named := { first.faithful.named with } }
    refine (guided_draftEdge regular drafts again (open_of_nil rfl) src onFalse).imp ?_
    rintro - m₂ (seen | second)
    · exact ⟨mayFail_true m₂, fun _ _ _ _ => .inl seen⟩
    · refine ⟨mayFail_true m₂, fun thenBody before rest waits => .inr ?_⟩
      obtain ⟨t, stmts, isCode⟩ := first.stmts
      obtain ⟨e, stmts', isCode'⟩ := second.stmts
      have lists : m₂.act.routine.waiting = t :: m.act.routine.stmts :: m.act.routine.waiting := by
        rw [second.waiting]
        exact congr (congrArg List.cons stmts) first.waiting
      obtain ⟨rfl, rest'⟩ := List.cons.inj (waits.symm.trans lists)
      obtain ⟨rfl, rfl⟩ := List.cons.inj rest'
      obtain rfl : m₂.act.routine.stmts = e := stmts'
      have start : Supplied f m m.setAside := .of_same rfl rfl
      have between : Supplied f m₁ (m₁.setAside.resetLoops m.act.loops) := .of_same rfl rfl
      refine ⟨second.faithful.setRoutine _, ?_, second.name.trans first.name, rfl, thenBody, _,
        append_of_open isOpen _, isCode.mono second.supplied.labels, isCode'⟩
      exact ((start.trans first.supplied).trans (between.trans second.supplied)).trans (.of_same rfl rfl)

end

/-! ### Blocks -/

/-- The machine after some instructions of a block, which performed these operations. -/
structure Written (f : Function) (m : Machine) (ops : List ChanOp) (m' : Machine) : Prop where
  faithful : Faithful f m'
  isOpen : m'.Open
  labels : m'.act.labels = m.act.labels
  protocol : m'.context.protocol = m.context.protocol
  name : m'.act.routine.name = m.act.routine.name
  waiting : m'.act.routine.waiting = m.act.routine.waiting
  stmts : m'.act.routine.stmts = m.act.routine.stmts ++ ops.map (·.statement)

/-- Nothing is read from the report and the budget. -/
theorem Written.paid (written : Written f m ops m') (e : Event) (n : Nat) :
    Written f m ops ((m'.emit e).withBudget n) := by
  exact { written with faithful := { written.faithful with } }

theorem Written.write (written : Written f m ops m') (calm : ∀ l, Turn m'.act arrival action l → Calm f l)
    (turned : Turned action arrival m' m'') (writes : Writes op m' m'') : Written f m (ops ++ op.toList) m'' := by
  obtain ⟨l, turn, quiet⟩ := turned
  have loops : ∀ l' ∈ m''.act.loops.loops, Calm f l' := by
    rw [quiet.loops]
    exact forall_mem_cons.2 ⟨calm l turn, fun l' member => written.faithful.calm l' (mem_cons_of_mem _ member)⟩
  have faithful : Faithful f m'' :=
    ⟨quiet.func.trans written.faithful.func, loops, writes.named,
      fun b label known => written.faithful.labels b label (by rw [← known, quiet.labels]; rfl),
      (congrArg (·.waiting) quiet.tasks).trans written.faithful.tasks⟩
  have stmts : m''.act.routine.stmts = m'.act.routine.stmts ++ op.toList.map (·.statement) := by
    rw [writes.stmts]
    cases op with
    | none => simp
    | some op => exact append_of_open written.isOpen _
  refine ⟨faithful, ?_, quiet.labels.trans written.labels, quiet.protocol.trans written.protocol,
    quiet.name.trans written.name, quiet.waiting.trans written.waiting, ?_⟩
  · rw [Machine.Open, stmts]
    cases op with
    | none => simpa [Machine.Open] using written.isOpen
    | some op => cases op <;> simp [ChanOp.statement]
  · simp [stmts, written.stmts]

theorem Written.drafted {code : List Statement}
    (written : Written f m ops m') (faithful : Faithful f m'') (supplied : Supplied f m' m'')
    (name : m''.act.routine.name = m'.act.routine.name) (waiting : m''.act.routine.waiting = m'.act.routine.waiting)
    (stmts : m''.act.routine.stmts = m'.act.routine.stmts ++ code)
    (isCode : Code f m''.Labelled place (ops.map (·.statement) ++ code)) : Drafted f place m m'' := by
  refine ⟨faithful, (Supplied.of_same written.labels written.protocol).trans supplied, name.trans written.name,
    waiting.trans written.waiting, _, ?_, isCode⟩
  rw [stmts, written.stmts, append_assoc]

theorem Written.stop (written : Written f m block.ops m') (found : f.block? b = some block)
    (last : block.succs = []) : Drafted f (.block b) m m' :=
  written.drafted written.faithful (.of_same rfl rfl) rfl rfl (append_nil _).symm (by simpa using Code.stop found last)

theorem Settled.writes {cond : Operand} (named : SelfNamed m.act)
    (settled : Settled cond onTrue onFalse arrival m m') : Writes none m m' := by
  obtain ⟨l, -, ⟨log, rfl⟩, -⟩ := settled
  exact ⟨{ named with }, rfl⟩

theorem selectTest?_eq_none (named : SelfNamed a) (cond : Operand) : selectTest? a cond = none := by
  have absent {i : Instance} : a.selects.values.find? (·.index = some i) = none := by rw [named.selects]; rfl
  simp only [selectTest?, absent, Option.bind_eq_bind, Option.bind_eq_none_iff]
  intro name _ definition _
  split
  · split <;> simp
  · rfl

theorem chanOp?_of_isTerminator (terminator : i.isTerminator) : i.chanOp? = none := by
  obtain ⟨action, pos⟩ := i
  cases action with
  | define => exact nomatch terminator
  | perform effect => cases effect <;> first | rfl | exact nomatch terminator

section

variable (last : block.terminator? = some i)
include last

theorem instrs_eq : block.instrs = block.instrs.dropLast ++ [i] ∧ i.isTerminator := by
  obtain ⟨last, terminator⟩ := Option.filter_eq_some_iff.1 last
  obtain ⟨before, split⟩ := getLast?_eq_some_iff.1 last
  exact ⟨by simp [split], terminator⟩

theorem last_mem : i ∈ block.instrs := by
  rw [(instrs_eq last).1]
  simp

theorem ops_eq : block.ops = block.instrs.dropLast.filterMap (·.chanOp?) := by
  obtain ⟨split, terminator⟩ := instrs_eq last
  rw [Block.ops, split, filterMap_append]
  simp [chanOp?_of_isTerminator terminator]

end

/-- The instructions of a block are interpreted, but for the rest. -/
structure Underwritten (f : Function) (m : Machine) (b : Nat) (block : Block) (rest : List Instr) (m' : Machine) :
    Prop where
  ends : rest = [] → m'.Revisits ∨ Drafted f (.block b) m m'
  written : rest ≠ [] → ∃ before, block.instrs = before ++ rest ∧ Written f m (before.filterMap (·.chanOp?)) m'

section Blocks

variable {p : Program} {o : Options} {arrival : Arrival} {block : Block} {i : Instr} {ops : List ChanOp}
  (plain : Plain f)
include plain

theorem guided_writeInstr (found : f.block? arrival.block = some block) (inner : i ∈ block.instrs.dropLast)
    (written : Written f m ops m') :
    Guided Always (walkInstr ⟨p, o⟩ walk arrival i) m' (fun _ m'' => Written f m (ops ++ i.chanOp?.toList) m'')
      fun _ _ => True := by
  refine guided_walkInstr (fun _ => trivial) fun _ n _ => .of_leads ?_
  have paid := written.paid (.instrVisited i) n
  have inBlock : block ∈ f.blocks := mem_of_getElem? found
  have member : i ∈ block.instrs := dropLast_subset _ inner
  have isPlain := plainAction_of_isPlain (plain.instrs block inBlock i member) (plain.ends block inBlock i inner)
  refine (Leads.and (leads_plainTurned isPlain) (leads_writes isPlain paid.faithful.named)).weaken ?_
    fun _ _ _ => trivial
  rintro - m'' ⟨⟨turned, -⟩, writes⟩
  refine paid.write (fun l turn => ?_) turned writes
  obtain rfl := paid.faithful.func
  exact calm_turn plain.steady.unranged (paid.faithful.calm _ mem_cons_self) found member turn

section

variable (regular : Regular walk) (drafts : Drafts f walk) (found : f.block? arrival.block = some block)
include regular drafts found

/-- The terminator of a block, after its other instructions. -/
theorem guided_draftLast (last : block.terminator? = some i) (written : Written f m block.ops m') :
    Guided Always (walkInstr ⟨p, o⟩ walk arrival i) m'
      (fun _ m'' => m''.Revisits ∨ Drafted f (.block arrival.block) m m'') fun _ _ => True := by
  refine guided_walkInstr (fun _ => trivial) fun _ n _ => ?_
  have paid := written.paid (.instrVisited i) n
  have faithful := paid.faithful
  obtain ⟨term, ends, succs, -⟩ := plain.linked.terminator found
  obtain rfl : i = term := Option.mem_unique last ends
  have terminator := (instrs_eq last).2
  have calm {l : Loop} (turn : Turn m'.act arrival i.action l) : Calm f l := by
    obtain rfl := faithful.func
    exact calm_turn plain.steady.unranged (faithful.calm _ mem_cons_self) found (last_mem last) turn
  cases same : i.action with
  | define => simp [Instr.isTerminator, same] at terminator
  | perform effect =>
    rw [Instr.successors, same] at succs
    cases effect with
    | jump t =>
      refine (guided_draftEdge regular drafts faithful paid.isOpen arrival.block t).imp ?_
      refine fun _ m'' ends => ends.imp_right fun drafted => ?_
      obtain ⟨code, stmts, isCode⟩ := drafted.stmts
      exact paid.drafted drafted.faithful drafted.supplied drafted.name drafted.waiting stmts (.jump found succs isCode)
    | branch cond onTrue onFalse =>
      have settle {m₀ : Machine}
          (settled : Settled cond onTrue onFalse arrival ((m'.emit (.instrVisited i)).withBudget n) m₀) :
          Written f m block.ops m₀ := by
        have kept := paid.write (fun l turn => calm (same ▸ turn)) settled.turned (settled.writes faithful.named)
        simpa using kept
      refine guided_branch (fun m₀ _ settled static _ => ?_) (fun m₀ _ _ settled found => ?_) fun m₀ settled => ?_
      · exact absurd static (by simp [((settle settled).faithful.calm _ mem_cons_self).dynamic])
      · exact absurd (found.symm.trans (selectTest?_eq_none (settle settled).faithful.named cond))
          (Option.some_ne_none _)
      · have settled := settle settled
        refine (guided_draftSides regular drafts settled.faithful settled.isOpen).imp ?_
        rintro - m'' (seen | ⟨faithful, supplied, name, waiting, t, e, stmts, left, right⟩)
        · exact .inl seen
        · exact .inr (settled.drafted faithful supplied name waiting stmts (.branch found succs left right))
    | ret results =>
      have returned := Leads.and ((Quietly.of_composed (composed_returnValues 0 results)).leads _)
        (leads_returnValues faithful.named 0 results)
      refine .of_leads (returned.weaken ?_ fun _ _ _ => trivial)
      rintro - m'' ⟨⟨quiet, -⟩, named, routine⟩
      have writes : Writes none ((m'.emit (.instrVisited i)).withBudget n) m'' :=
        ⟨named, congrArg (·.stmts) routine⟩
      have kept := paid.write (fun l turn => calm turn) (quiet.turned i.action arrival) writes
      exact .inr (Written.stop (by simpa using kept) found succs)
    | panic x => exact .of_leads (.inr (paid.stop found succs))
    | _ => simp [Instr.isTerminator, same, Effect.isTerminator] at terminator

/-- One instruction of a block after those before it. -/
theorem guided_draftInstr {before rest : List Instr} (split : block.instrs = before ++ i :: rest)
    (written : Written f m (before.filterMap (·.chanOp?)) m') :
    Guided Always (walkInstr ⟨p, o⟩ walk arrival i) m'
      (fun _ m'' => Underwritten f m arrival.block block rest m'') fun _ _ => True := by
  cases rest with
  | nil =>
    obtain ⟨term, last, -⟩ := plain.linked.terminator found
    obtain rfl : i = term := by
      have ends := (Option.filter_eq_some_iff.1 last).1
      simpa [split] using ends
    have ops : block.ops = before.filterMap (·.chanOp?) := by simp [ops_eq last, split]
    refine (guided_draftLast plain regular drafts found last (ops ▸ written)).imp ?_
    exact fun _ m'' ends => ⟨fun _ => ends, fun nonempty => absurd rfl nonempty⟩
  | cons next rest =>
    have inner : i ∈ block.instrs.dropLast := by simp [split]
    refine (guided_writeInstr plain found inner written).imp ?_
    refine fun _ m'' written => ⟨nofun, fun _ => ⟨before ++ [i], by simp [split], ?_⟩⟩
    have one : [i].filterMap (·.chanOp?) = i.chanOp?.toList := by cases op : i.chanOp? <;> simp [op]
    rw [filterMap_append, one]
    exact written

end

theorem written_enter (faithful : Faithful f m) (isOpen : m.Open) (found : f.block? arrival.block = some block) :
    Written f m [] ((m.enter block arrival.pred).onAct (·.noteVisit block.index)) := by
  have index := plain.linked.index_eq found
  have calm := calm_enter faithful.calm (index ▸ found)
  obtain ⟨visited, noted⟩ := noteVisit_eq (m.enter block arrival.pred).act block.index
  rw [Machine.onAct, noted]
  exact ⟨{ faithful with calm := calm, named := { faithful.named with } }, isOpen, rfl, rfl, rfl, rfl,
    (append_nil _).symm⟩

theorem drafts_enterBlock (regular : Regular walk) (drafts : Drafts f walk) :
    Drafts f (enterBlock ⟨p, o⟩ walk) := by
  intro arrival m faithful isOpen
  refine Guided.leads
    (guided_enterBlock (fun _ => mayFail_true m)
      (fun block _ _ => .inl ⟨block.index, by simp [Machine.emit]⟩) ?_)
  intro block found fresh
  have found : f.block? arrival.block = some block := faithful.func ▸ found
  have entered := written_enter plain faithful isOpen found
  obtain ⟨term, last, -⟩ := plain.linked.terminator found
  refine (Guided.forM (Underwritten f m arrival.block block)
    (fun i => (alike_walkInstr regular ⟨p, o⟩ arrival i).metered) ?_ ?_).imp fun _ m' under => under.ends rfl
  · intro i rest m' under
    obtain ⟨before, split, written⟩ := under.written nofun
    exact guided_draftInstr plain regular drafts found split written
  · exact ⟨fun empty => absurd empty (ne_nil_of_mem (last_mem last)), fun _ => ⟨[], rfl, entered⟩⟩

theorem drafts_walkBlock (depth : Nat) : Drafts f (walkBlock ⟨p, o⟩ depth) := by
  induction depth with
  | zero => exact fun _ _ _ _ => trivial
  | succ depth ih => exact drafts_enterBlock plain (regular_walkBlock ⟨p, o⟩ depth) ih

end Blocks

end Walks

/-! ### Programs -/

/-- The protocol spells out a function: the routine of the function is code for it, and so are those it calls. -/
def Spells (protocol : Protocol) (f : Function) : Prop :=
  ∃ labelled r, Supplies protocol f labelled ∧ protocol.routine? f.name = some r ∧
    Code f labelled (.block 0) r.stmts

theorem faithful_start (p : Program) (f : Function) (budget : Nat) : Faithful f (Machine.start p f budget) := by
  refine ⟨rfl, fun l member => ?_, ⟨rfl, rfl, nofun⟩, nofun, rfl⟩
  obtain rfl : l = {} := mem_singleton.1 member
  exact ⟨rfl, nofun, nofun⟩

/-- A function that was walked from its entry is spelled out once its routine is closed. -/
theorem spells_closeRoutine (start : m.act = (Activation.start f m.act.seq [] f.name))
    (drafted : Drafted f (.block 0) m m') : Spells m'.closeRoutine.context.protocol f := by
  have routine : m.act.routine = { name := f.name } := by rw [start]; rfl
  have unlabelled (b : Nat) : ¬ m.Labelled b := by
    rw [Machine.Labelled, start]
    exact fun known => known rfl
  have name : m'.act.routine.name = f.name := by rw [drafted.name, routine]
  have closed := Machine.routine?_closeRoutine name
  obtain ⟨code, stmts, isCode⟩ := drafted.stmts
  refine ⟨m'.Labelled, m'.act.routine, fun b known => ?_, (closed _).trans (if_pos rfl), ?_⟩
  · obtain ⟨r, found, isCode⟩ := drafted.supplied.news b known (unlabelled b)
    exact ⟨r, (closed _).trans ((if_neg fun eq => mergeName_ne f b eq.symm).trans found), isCode⟩
  · rw [stmts, routine]
    exact isCode

theorem leads_spells (plain : Plain f)
    (alone : (p.function? o.init).filter (·.hasBody) = none) (asFound : o.cleanUp = false) (budget : Nat) :
    Leads (analyse ⟨p, o⟩) (Machine.start p f budget) fun protocol m => m.Revisits ∨ Spells protocol f := by
  have regular := regular_walkBlock ⟨p, o⟩ (budget + 1)
  have drafts : Drafts f (walkBlock ⟨p, o⟩ (budget + 1)) := drafts_walkBlock plain (budget + 1)
  rw [Leads, analyse_eq ⟨p, o⟩ (Machine.start p f budget) (Nat.lt_succ_self budget)]
  refine Guided.leads (guided_analyseWith regular ?_)
  refine guided_initialise regular (fun _ => ?_) fun init _ _ found =>
    absurd (found.symm.trans alone) (Option.some_ne_none init)
  refine guided_walkFunction regular (.of_leads ?_)
  refine (drafts .entry _ ((faithful_start p f budget).openRoutine _ _) (open_of_nil rfl)).imp ?_
  rintro - m' (seen | drafted)
  · refine .of_leads ((leads_revisits (alike_drain regular _) ?_).imp fun _ m₃ seen m₄ quiet _ => ?_)
    · exact seen
    · exact .inl (quiet.revisits.2 seen)
  · refine guided_drain (fun _ m₂ => m₂ = m'.closeRoutine) regular (fun _ _ => trivial) ?_ ?_ rfl
    · rintro _ _ rfl - m₄ - -
      rw [if_neg (by simp [asFound])]
      exact .inr (spells_closeRoutine rfl drafted)
    · rintro _ _ a rest rfl waits
      exact absurd (waits.symm.trans drafted.faithful.tasks) (cons_ne_nil a rest)

/-- In a program of one plain function, the routine inferred for it has the traces of its paths. -/
theorem inferred_traces {p : Program} {o : Options} {f : Function} {budget : Nat} {protocol : Protocol}
    (entry : p.function? o.entry = some f) (alone : (p.function? o.init).filter (·.hasBody) = none) (plain : Plain f)
    (asFound : o.cleanUp = false) (inferred : (infer budget p o).result = .ok protocol) :
    ∃ r, protocol.routine? o.entry = some r ∧ ∀ ops, Runs protocol r.stmts ops ↔ f.Path 0 ops := by
  unfold infer at inferred
  split at inferred
  · exact nomatch inferred
  · next f' found =>
    obtain rfl : f' = f := Option.some.inj ((Option.filter_eq_some_iff.1 found).1.symm.trans entry)
    have steady (g : Function) (runs : Interpreted p o g) : Steady g :=
      interpreted_eq plain entry alone runs ▸ plain.steady
    have clean := leads_clean steady found budget
    have spells := leads_spells plain alone asFound budget
    split at inferred
    · next ends =>
      obtain rfl := Except.ok.inj inferred
      rcases spells.ok ends with seen | ⟨labelled, r, supplies, known, isCode⟩
      · exact absurd seen (clean.ok ends)
      · rw [← Program.function?_name entry]
        exact ⟨r, known, runs_iff_path supplies isCode⟩
    · exact nomatch inferred

/-- Sends and receives by turns, starting with either: a loop with two ways in. -/
def weaving : Function := .closed "main.main" [
  .of 0 none [] [1, 2] [
    .define "ch" .intChan (.makeChan (.int 1)),
    .define "c" .bool (.binary .eq (.var "ch") (.const .nil)),
    .perform (.branch (.var "c") 1 2)],
  .of 1 none [0, 2] [2] [
    .perform (.send (.var "ch") (.int 0)),
    .perform (.jump 2)],
  .of 2 (some "for.loop") [0, 1] [1, 3] [
    .define "v" .int (.recv (.var "ch") false),
    .define "d" .bool (.binary .lt (.var "v") (.int 3)),
    .perform (.branch (.var "d") 1 3)],
  .of 3 none [2] [] [
    .perform (.call ⟨.builtin "close", [.var "ch"]⟩),
    .perform (.ret [])]]

theorem weaving_traces :
    ∃ protocol, (infer 100 { functions := [weaving] } { cleanUp := false }).result = .ok protocol ∧
      ∃ r, protocol.routine? "main.main" = some r ∧ ∀ ops, Runs protocol r.stmts ops ↔ weaving.Path 0 ops := by
  have plain : Plain weaving := ⟨⟨weaving.draft, rfl⟩, by decide, by decide, by decide, by decide⟩
  obtain ⟨protocol, inferred⟩ := ok_of_toBool
    (by decide +kernel : (infer 100 { functions := [weaving] } { cleanUp := false }).result.toBool)
  exact ⟨protocol, inferred, inferred_traces rfl rfl plain rfl inferred⟩

end ChanFlow.Analysis
