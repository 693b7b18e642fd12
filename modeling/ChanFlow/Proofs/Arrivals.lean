import ChanFlow.Proofs.Guide
import ChanFlow.Proofs.Linked

/-!
Every arrival is interpreted.

An arrival at a block is passed over if the block was interpreted before at the same index values. The
second arrival along another edge is meant to be caught earlier, as a call of a merge point. This module
shows when that works: in functions none of whose loops is given a range, whose branches have two targets and
whose first block is not a target (`Steady`), nothing is ever passed over.

The walk keeps an `Orderly` course: a merge point that was seen has a label, and what leads to any other
block that was seen was seen before. A walk that starts at a block sees other blocks only through blocks it
has seen itself (`Wandered`), so the second side of a branch is still unseen after the first.
-/
open List

namespace ChanFlow.Analysis

open Ssa

variable {b src : Nat} {block dst : Block} {n loops : Nest} {a : Activation} {arrival : Arrival} {i : Instr}
  {f : Function}

/-! ### Functions and programs -/

/-- Whether a phi counts from a constant by a constant, and a comparison gives it a range. -/
def ranges (f : Function) (phi comparison : Instr) : Bool :=
  match phi.action, comparison.action with
  | .define value _ (.phi edges), .define _ _ (.binary op x y) =>
    (indexCandidate? f value edges).any fun (start, step) => (Loop.range? { indexVar := some value, start, step }
      (compared op x y).1 (compared op x y).2.1 (compared op x y).2.2).isSome
  | _, _ => false

/-- The phi that a loop counts with is one of its header. -/
def CountsWith (f : Function) (l : Loop) (value : String) : Prop :=
  ∃ h block phi ty edges start step, l.header = some h ∧ f.block? h = some block ∧ phi ∈ block.instrs ∧
    phi.action = .define value ty (.phi edges) ∧ indexCandidate? f value edges = some (start, step) ∧
    l.start = some start ∧ l.step = some step

/-- The loop has no known range, its header plays that part, and its index is counted there. -/
structure Calm (f : Function) (l : Loop) : Prop where
  dynamic : l.isStatic = false
  header : ∀ h, l.header = some h → ∃ block, f.block? h = some block ∧ block.role = .loopHeader
  counted : ∀ value, l.indexVar = some value → CountsWith f l value

structure Steady (f : Function) : Prop where
  linked : f.Linked
  /-- Only the last instruction of a block leaves it. -/
  ends : ∀ block ∈ f.blocks, ∀ i ∈ block.instrs.dropLast, i.isTerminator = false
  /-- Nothing leads back to the first block. -/
  entry : ∀ block ∈ f.blocks, 0 ∉ block.succs
  /-- The two targets of a branch differ, unless they are a merge point anyway. -/
  apart : ∀ block ∈ f.blocks, ∀ dst ∈ f.blocks, block.succs = [dst.index, dst.index] → dst.isMergePoint
  /-- No loop is given a range. -/
  unranged : ∀ block ∈ f.blocks, block.role = .loopHeader →
    ∀ phi ∈ block.instrs, ∀ comparison ∈ block.instrs, ranges f phi comparison = false

/-- Whether interpreting an instruction may lead into another function. -/
def mayCall (i : Instr) : Bool :=
  match i.action with
  | .define _ _ (.call c) | .perform (.call c) =>
    match c.callee with
    | .builtin _ => false
    | _ => true
  | .perform (.go _) | .perform .runDefers => true
  | _ => false

/-- The functions an analysis may come to interpret. -/
inductive Interpreted (p : Program) (o : Options) : Function → Prop
  | entry {f : Function} (found : (p.function? o.entry).filter (·.hasBody) = some f) : Interpreted p o f
  | init {f : Function} (found : (p.function? o.init).filter (·.hasBody) = some f) : Interpreted p o f
  | called {f g : Function} (caller : Interpreted p o g)
    (calls : ∃ i block, g.block? i = some block ∧ ∃ instr ∈ block.instrs, mayCall instr)
    (found : p.function? f.name = some f) (body : f.hasBody) : Interpreted p o f

/-! ### Courses -/

/-- What steers the walk of an activation. -/
structure Course where
  func : Function
  loops : Nest := {}
  labels : Table BlockVisit String := {}
  visited : List BlockVisit := []

def Activation.course (a : Activation) : Course := ⟨a.func, a.loops, a.labels, a.visited⟩

namespace Course

/-- A block was interpreted. -/
def Seen (c : Course) (b : Nat) : Prop := (b, []) ∈ c.visited

/-- A merge point has a label. -/
def Labelled (c : Course) (b : Nat) : Prop := c.labels.get? (b, []) ≠ none

end Course

def Course.label (c : Course) (key : BlockVisit) (label : String) : Course :=
  { c with labels := c.labels.insert key label }

variable {c : Course}

theorem Course.Labelled.label (known : c.Labelled b) (key : BlockVisit) (label : String) :
    (c.label key label).Labelled b := by
  rw [Labelled, Course.label, Table.get?_insert]
  split
  · exact Option.some_ne_none label
  · exact known

theorem Course.labelled_label (c : Course) (b : Nat) (label : String) : (c.label (b, []) label).Labelled b := by
  rw [Labelled, Course.label, Table.get?_insert, if_pos rfl]
  exact Option.some_ne_none label

structure Orderly (c : Course) : Prop where
  calm : ∀ l ∈ c.loops.loops, Calm c.func l
  merges : ∀ b block, c.Seen b → c.func.block? b = some block → block.isMergePoint → c.Labelled b
  preds : ∀ b block, c.Seen b → c.func.block? b = some block → block.isMergePoint = false →
    ∀ p ∈ block.preds, c.Seen p

/-- A block that can be walked: it was not seen, and leaves the course orderly once it is. -/
structure Ready (c : Course) (b : Nat) : Prop where
  unseen : ¬ c.Seen b
  merge : ∀ block, c.func.block? b = some block → block.isMergePoint → c.Labelled b
  preds : ∀ block, c.func.block? b = some block → block.isMergePoint = false → ∀ p ∈ block.preds, c.Seen p

/-- The course after a walk that saw the blocks `first` for other reasons than their predecessors. -/
structure Wandered (first : Nat → Prop) (c c' : Course) : Prop where
  func : c'.func = c.func
  seen : ∀ b, c.Seen b → c'.Seen b
  labels : ∀ b, c.Labelled b → c'.Labelled b
  news : ∀ b block, c'.Seen b → ¬ c.Seen b → ¬ first b → c.func.block? b = some block →
    block.isMergePoint = false → ∀ p ∈ block.preds, c'.Seen p ∧ ¬ c.Seen p

namespace Wandered

variable {first : Nat → Prop} {c c' c'' : Course}

theorem of_same (func : c'.func = c.func) (labels : c'.labels = c.labels) (visited : c'.visited = c.visited) :
    Wandered first c c' := by
  have seen (b : Nat) : c'.Seen b ↔ c.Seen b := by rw [Course.Seen, Course.Seen, visited]
  refine ⟨func, fun b => (seen b).2, fun b => ?_, fun b _ now before => absurd ((seen b).1 now) before⟩
  rw [Course.Labelled, Course.Labelled, labels]
  exact id

theorem label (key : BlockVisit) (name : String) : Wandered first c (c.label key name) :=
  ⟨rfl, fun _ seen => seen, fun _ known => known.label key name, fun _ _ now before => absurd now before⟩

theorem trans (one : Wandered first c c') (two : Wandered first c' c'') : Wandered first c c'' := by
  refine ⟨two.func.trans one.func, fun b => two.seen b ∘ one.seen b, fun b => two.labels b ∘ one.labels b, ?_⟩
  intro b block now before other found plain p member
  by_cases between : c'.Seen b
  · obtain ⟨seen, new⟩ := one.news b block between before other found plain p member
    exact ⟨two.seen p seen, new⟩
  · obtain ⟨seen, new⟩ := two.news b block now between other (one.func ▸ found) plain p member
    exact ⟨seen, fun old => new (one.seen p old)⟩

theorem weaken {second : Nat → Prop} (one : Wandered first c c') (more : ∀ b, first b → second b) :
    Wandered second c c' :=
  ⟨one.func, one.seen, one.labels, fun b block now before other => one.news b block now before (other ∘ more b)⟩

end Wandered

/-! ### Loops without a range -/

section Calm

variable {f : Function} {l : Loop}

theorem calm_entered (found : f.block? block.index = some block)
    (role : block.role = .loopHeader) : Calm f (Nest.entered block.index) := by
  refine ⟨rfl, fun h same => ?_, nofun⟩
  obtain rfl := Option.some.inj same
  exact ⟨block, found, role⟩

theorem calm_nil (f : Function) : ∀ l ∈ ({} : Nest).loops, Calm f l := by
  intro l member
  obtain rfl : l = {} := by simpa [Nest.loops] using member
  exact ⟨rfl, nofun, nofun⟩

theorem calm_enter (calm : ∀ l ∈ n.loops, Calm f l)
    (found : f.block? block.index = some block) : ∀ l ∈ (n.enter block.index block.role).1.loops, Calm f l :=
  Nest.forall_enter calm (fun _ _ calm => ⟨calm.dynamic, calm.header, calm.counted⟩) (calm_entered found)
    ⟨rfl, nofun, nofun⟩

theorem signature_eq_nil (calm : ∀ l ∈ n.loops, Calm f l) : n.signature = [] := by
  rw [Nest.signature, map_eq_nil_iff, filter_eq_nil_iff]
  intro l member
  have inside : l ∈ n.loops := by simpa [Nest.loops, or_comm] using member
  simp [(calm l inside).dynamic]

theorem Calm.noteIndex {start step : Int} (calm : Calm f l) (value : String)
    (counted : CountsWith f { l with indexVar := some value, start, step } value) :
    Calm f (l.noteIndex value start step) := by
  unfold Loop.noteIndex
  split
  · refine ⟨calm.dynamic, calm.header, fun other same => ?_⟩
    obtain rfl := Option.some.inj same
    exact counted
  · exact calm

/-- A comparison that gives no range leaves the loop without one. -/
theorem Calm.noteCondition (calm : Calm f l) {x : Option String} {op : BinOp} {bound : Option Int}
    (unranged : l.range? x op bound = none) (cond : String) (maxUnroll : Nat) :
    Calm f (l.noteCondition cond x op bound maxUnroll) := by
  unfold Loop.noteCondition
  split
  · rw [Loop.verdict, unranged]
    exact ⟨rfl, calm.header, calm.counted⟩
  · exact calm

theorem Calm.settle (calm : Calm f l) : Calm f l.settle := by
  unfold Loop.settle
  split
  · exact ⟨rfl, calm.header, calm.counted⟩
  · exact calm

/-- A calm loop is never repeated step by step. -/
theorem repeatsAt_eq_false (calm : ∀ l ∈ n.loops, Calm f l) (block : Nat) : n.current.repeatsAt block = false := by
  have dynamic := (calm _ mem_cons_self).dynamic
  simp [Loop.repeatsAt, dynamic]

/-- Where no comparison of a header gives a range, no instruction makes a loop static. -/
theorem calm_turn (unranged : ∀ block ∈ a.func.blocks, block.role = .loopHeader →
      ∀ phi ∈ block.instrs, ∀ comparison ∈ block.instrs, ranges a.func phi comparison = false)
    (calm : Calm a.func a.loops.current) (found : a.func.block? arrival.block = some block)
    (member : i ∈ block.instrs) (turn : Turn a arrival i.action l) : Calm a.func l := by
  generalize same : i.action = action at turn
  cases turn with
  | stay => exact calm
  | advance static => exact absurd static (by simp [calm.dynamic])
  | @candidate value ty edges start step header named =>
    exact calm.noteIndex value ⟨_, block, i, ty, edges, start, step, header, found, member, same, named, rfl, rfl⟩
  | @comparison value ty op x y header maxUnroll =>
    refine calm.noteCondition ?_ value maxUnroll
    cases index : a.loops.current.indexVar with
    | none => simp [Loop.range?, index]
    | some var =>
      obtain ⟨h, block', phi, ty', edges, start, step, header', found', phi', counts, named, starts, steps⟩ :=
        calm.counted var index
      obtain rfl := Option.some.inj (header.symm.trans header')
      obtain rfl : block = block' := Option.mem_unique found found'
      obtain ⟨block', found', role⟩ := calm.header _ header
      obtain rfl : block = block' := Option.mem_unique found found'
      have free := unranged block (mem_of_getElem? found) role phi phi' i member
      simpa [ranges, counts, same, named, Loop.range?, index, starts, steps] using free
  | settle => exact calm.settle

end Calm

/-! ### Walks -/

/-- An activation that has not been walked. -/
def Unwalked (a : Activation) : Prop := a.course = { func := a.func }

structure Sound (p : Program) (o : Options) (m : Machine) : Prop where
  clean : ¬ m.Revisits
  runs : Interpreted p o m.act.func
  orderly : Orderly m.act.course
  tasks : ∀ a ∈ m.tasks.waiting, Interpreted p o a.func ∧ Unwalked a

/-- However a step halts, nothing was passed over. -/
def Clean : Halt → Machine → Prop := fun _ m => ¬ m.Revisits

/-- From a sound machine a walker interprets the block it is asked for, and stays sound. -/
def Covers (p : Program) (o : Options) (walk : Walker) : Prop :=
  ∀ arrival m, Sound p o m → Ready m.act.course arrival.block →
    Leads (walk arrival) m
      (fun _ m' => Sound p o m' ∧ Wandered (· = arrival.block) m.act.course m'.act.course) Clean

abbrev Always : Point → Machine → Prop := fun _ _ => True

section Walks

variable {p : Program} {o : Options} {walk : Walker} {m m' : Machine}

theorem Sound.mayFail (sound : Sound p o m) : MayFail Clean m :=
  fun _ _ _ same seen => sound.clean (same.1 seen)

theorem Quiet.course (quiet : Quiet m m') : m'.act.course = m.act.course := by
  rw [Activation.course, Activation.course, quiet.func, quiet.loops, quiet.labels, quiet.visited]

theorem Sound.of_quiet (sound : Sound p o m) (quiet : Quiet m m') : Sound p o m' :=
  ⟨fun seen => sound.clean (quiet.revisits.1 seen), quiet.func ▸ sound.runs, quiet.course ▸ sound.orderly,
    quiet.tasks ▸ sound.tasks⟩

theorem Orderly.label (orderly : Orderly c) (key : BlockVisit) (name : String) : Orderly (c.label key name) :=
  ⟨orderly.calm, fun b block seen found merge => (orderly.merges b block seen found merge).label key name,
    orderly.preds⟩

theorem Orderly.unrepeated (orderly : Orderly c) (block : Nat) :
    c.loops.current.repeatsAt block = false := repeatsAt_eq_false orderly.calm block

theorem Orderly.key (orderly : Orderly a.course) (block : Nat) : a.key block = (block, []) := by
  have empty : a.loops.signature = [] := signature_eq_nil orderly.calm
  rw [Activation.key, Activation.signature, empty]

/-- A block with one way in has no other predecessor than the one control comes from. -/
theorem pred_unique (plain : block.isMergePoint = false) {q : Nat}
    (listed : src ∈ block.preds) (member : q ∈ block.preds) : q = src := by
  have short : block.preds.length ≤ 1 := by
    simp only [Block.isMergePoint, decide_eq_false_iff_not] at plain
    omega
  match preds : block.preds with
  | [] => simp [preds] at listed
  | [one] => simp_all
  | _ :: _ :: _ => simp [preds] at short

/-- Following an edge from a block that was seen. The target was not, unless it is a merge point. -/
theorem guided_coverEdge (regular : Regular walk) (covers : Covers p o walk) {dst : Nat}
    (sound : Sound p o m) (seen : m.act.course.Seen src)
    (edge : ∀ block, m.act.func.block? dst = some block → src ∈ block.preds)
    (fresh : ∀ block, m.act.func.block? dst = some block → block.isMergePoint = false →
      ¬ m.act.course.Seen dst) :
    Guided Always (followEdge walk src dst) m
      (fun _ m' => Sound p o m' ∧ Wandered (· = dst) m.act.course m'.act.course) Clean := by
  refine guided_followEdge (fun _ => sound.clean) fun _ n _ => ?_
  have sound' : Sound p o (m.withBudget n) := { sound with }
  refine guided_arriveAt regular (fun _ => sound'.mayFail) ?_ ?_ ?_
  · -- Without static loops only a block with one way in is walked straight on.
    intro block found straight
    have plain : block.isMergePoint = false :=
      Bool.eq_false_iff.2 fun merge => Bool.eq_false_iff.1 (sound.orderly.unrepeated dst) (straight merge)
    refine .of_leads (covers _ _ sound' ⟨fresh block found plain, fun block' found' merge => ?_, ?_⟩)
    · obtain rfl : block = block' := Option.mem_unique found found'
      exact absurd merge (Bool.eq_false_iff.1 plain)
    · intro block' found' plain' q member
      obtain rfl : block = block' := Option.mem_unique found found'
      exact pred_unique plain (edge block found) member ▸ seen
  · intro block label found merge _ known
    exact ⟨{ sound with }, .of_same rfl rfl rfl⟩
  · intro block found merge _ unknown
    have key := sound.orderly.key dst
    have labelled : Wandered (· = dst) m.act.course ((m.withBudget n).addLabel dst).act.course :=
      .label (m.act.key dst) (m.act.mergeLabel dst)
    have sound'' : Sound p o (((m.withBudget n).addLabel dst).openRoutine
        (Protocol.Routine.addParams { name := m.act.mergeLabel dst } m.act.routine.continuationParams)
        (.mergePointStarted (m.act.mergeLabel dst))) :=
      ⟨by simpa using sound.clean, sound.runs, sound.orderly.label _ _, sound.tasks⟩
    refine (Guided.of_leads
      (covers _ _ sound'' ⟨fun seen => ?_, fun _ _ _ => ?_, fun block' found' plain => ?_⟩)).imp ?_
    · have known := sound.orderly.merges dst block seen found merge
      rw [Course.Labelled, ← key] at known
      exact known unknown
    · have known := m.act.course.labelled_label dst (m.act.mergeLabel dst)
      rw [← key] at known
      exact known
    · obtain rfl : block = block' := Option.mem_unique found found'
      exact absurd merge (Bool.eq_false_iff.1 plain)
    · rintro - m' ⟨sound', wandered⟩
      exact ⟨⟨sound'.clean, sound'.runs, sound'.orderly, sound'.tasks⟩, labelled.trans wandered⟩

/-- The first block of a steady function is no merge point. -/
theorem Steady.entry_plain (steady : Steady f) (found : f.block? 0 = some block) :
    block.preds = [] ∧ block.isMergePoint = false := by
  have preds : block.preds = [] := by
    refine eq_nil_iff_forall_not_mem.2 fun q member => ?_
    obtain ⟨src, found', leads⟩ := (steady.linked.mem_preds found).1 member
    exact steady.entry src (mem_of_getElem? found') leads
  refine ⟨preds, ?_⟩
  have index := steady.linked.index_eq found
  simp [Block.isMergePoint, preds, index]

theorem Unwalked.orderly (new : Unwalked a) : Orderly a.course := by
  rw [new]
  exact ⟨calm_nil a.func, fun _ _ seen => absurd seen (by simp [Course.Seen]),
    fun _ _ seen => absurd seen (by simp [Course.Seen])⟩

theorem Unwalked.unseen (new : Unwalked a) (b : Nat) : ¬ a.course.Seen b := by
  rw [new]
  simp [Course.Seen]

theorem Newcomer.unwalked {caller : Activation} (new : Newcomer caller f a) : Unwalked a := by
  rw [Unwalked, Activation.course, new.unbegun.loops, new.unbegun.labels, new.unbegun.visited]

/-- A function that is walked leaves nothing behind but what it spawned. -/
def LeftClean (p : Program) (o : Options) (m : Machine) : Prop :=
  ¬ m.Revisits ∧ ∀ a ∈ m.tasks.waiting, Interpreted p o a.func ∧ Unwalked a

/-- The machine is still sound, and no block was seen or labelled. -/
structure Kept (p : Program) (o : Options) (m m' : Machine) : Prop where
  sound : Sound p o m'
  func : m'.act.func = m.act.func
  labels : m'.act.labels = m.act.labels
  visited : m'.act.visited = m.act.visited

theorem Kept.trans {m'' : Machine} (one : Kept p o m m') (two : Kept p o m' m'') : Kept p o m m'' :=
  ⟨two.sound, two.func.trans one.func, two.labels.trans one.labels, two.visited.trans one.visited⟩

theorem Sound.kept (sound : Sound p o m) (quiet : Quiet m m') : Kept p o m m' :=
  ⟨sound.of_quiet quiet, quiet.func, quiet.labels, quiet.visited⟩

/-- A turn of the current loop that keeps it calm. -/
theorem Sound.turned {action : Action} (sound : Sound p o m) (turned : Turned action arrival m m')
    (calm : ∀ l, Turn m.act arrival action l → Calm m.act.func l) : Kept p o m m' := by
  obtain ⟨l, turn, quiet⟩ := turned
  have loops : ∀ l' ∈ (m.setLoop l).act.loops.loops, Calm m.act.func l' :=
    forall_mem_cons.2 ⟨calm l turn, fun l' member => sound.orderly.calm l' (mem_cons_of_mem _ member)⟩
  have sound' : Sound p o (m.setLoop l) :=
    ⟨sound.clean, sound.runs, ⟨loops, sound.orderly.merges, sound.orderly.preds⟩, sound.tasks⟩
  exact ⟨sound'.of_quiet quiet, quiet.func, quiet.labels, quiet.visited⟩

variable (steady : ∀ f, Interpreted p o f → Steady f)
include steady

theorem ready_entry (runs : Interpreted p o c.func) (unseen : ¬ c.Seen 0) : Ready c 0 := by
  refine ⟨unseen, fun block found merge => ?_, fun block found _ q member => ?_⟩
  · exact absurd merge (Bool.eq_false_iff.1 ((steady _ runs).entry_plain found).2)
  · rw [((steady _ runs).entry_plain found).1] at member
    exact nomatch member

theorem guided_coverFunction (regular : Regular walk) (covers : Covers p o walk)
    (clean : LeftClean p o m) (runs : Interpreted p o m.act.func) (new : Unwalked m.act) :
    Guided Always (walkFunction walk) m (fun _ m' => LeftClean p o m') Clean := by
  refine guided_walkFunction regular (.of_leads ?_)
  have sound : Sound p o (m.openRoutine m.act.routine .routineStarted) :=
    ⟨by simpa using clean.1, runs, new.orderly, clean.2⟩
  exact (covers .entry _ sound (ready_entry steady runs (new.unseen 0))).imp
    (fun _ m' ends => ⟨ends.1.clean, ends.1.tasks⟩)

theorem guided_coverCall (regular : Regular walk) (covers : Covers p o walk) (sound : Sound p o m)
    {c : Call} {result : Result}
    (calls : (∀ name, c.callee ≠ .builtin name) →
      ∃ i block, m.act.func.block? i = some block ∧ ∃ instr ∈ block.instrs, mayCall instr) :
    Guided Always (call p walk c result) m (fun _ m' => Kept p o m m') Clean := by
  refine guided_call regular sound.mayFail (fun _ _ _ _ quiet _ => (sound.of_quiet quiet).clean)
    (fun m' quiet _ => sound.kept quiet) ?_
  intro f callee m' n other ⟨quiet, _, ⟨found, body⟩, new, _⟩ _ _ _
  have runs : Interpreted p o callee.func := new.func ▸ .called sound.runs (calls other) found body
  have clean : LeftClean p o { m'.withBudget n with act := callee } :=
    ⟨fun seen => sound.clean (quiet.revisits.1 seen), quiet.tasks ▸ sound.tasks⟩
  refine (guided_coverFunction steady regular covers clean runs new.unwalked).imp ?_
  intro _ m₁ left
  refine ⟨fun _ _ _ same seen => left.1 (same.1 seen), fun m₂ quiet₂ _ => ?_⟩
  have sound₁ : Sound p o (({ m₁ with act := m'.act } : Machine).addStatement
      (.call m₁.act.routine.name (callee.routine.params.map (·.caller)))) :=
    ⟨left.1, (sound.of_quiet quiet).runs, (sound.of_quiet quiet).orderly, left.2⟩
  exact ⟨sound₁.of_quiet quiet₂, quiet₂.func.trans quiet.func, quiet₂.labels.trans quiet.labels,
    quiet₂.visited.trans quiet.visited⟩

omit steady in
theorem guided_coverSpawn (sound : Sound p o m) {c : Call}
    (calls : ∃ i block, m.act.func.block? i = some block ∧ ∃ instr ∈ block.instrs, mayCall instr) :
    Guided Always (spawn p c) m (fun _ m' => Kept p o m m') Clean := by
  refine guided_spawn sound.mayFail (fun _ _ _ _ quiet _ => (sound.of_quiet quiet).clean)
    (fun m' quiet _ => sound.kept quiet) ?_
  rintro f a m' n ⟨quiet, -, ⟨found, body⟩, new, -⟩ - - m₁ rfl
  have kept := sound.of_quiet quiet
  have sound₁ : Sound p o ((m'.withBudget n).addStatement
      (.spawn a.routine.name (a.routine.params.map (·.caller)))) :=
    { kept with }
  refine ⟨fun _ m₂ quiet₂ _ => ⟨sound₁.of_quiet quiet₂, quiet₂.func.trans quiet.func,
    quiet₂.labels.trans quiet.labels, quiet₂.visited.trans quiet.visited⟩, ?_⟩
  intro queue _ queued
  refine ⟨⟨kept.clean, kept.runs, kept.orderly, ?_⟩, quiet.func, quiet.labels, quiet.visited⟩
  intro b member
  obtain ⟨-, rfl⟩ := TaskQueue.enqueue?_eq_some queued
  rcases mem_append.1 member with old | one
  · exact kept.tasks b old
  · obtain rfl := mem_singleton.1 one
    exact ⟨new.func ▸ .called sound.runs calls found body, new.unwalked⟩

theorem guided_coverDeferred (regular : Regular walk) (covers : Covers p o walk) (sound : Sound p o m)
    (calls : ∃ i block, m.act.func.block? i = some block ∧ ∃ instr ∈ block.instrs, mayCall instr) :
    Guided Always (runDeferred p walk) m (fun _ m' => Kept p o m m') Clean := by
  refine .read (.forM (fun _ m' => Kept p o m m') (fun c => (alike_call regular p c none).metered) ?_
    (sound.kept (.refl m)))
  intro c _ m' kept
  refine (guided_coverCall steady regular covers kept.sound fun _ => kept.func ▸ calls).imp ?_
  exact fun _ m'' kept' => kept.trans kept'

/-- An instruction that does not leave its block keeps what was seen and labelled. -/
theorem guided_coverInner (regular : Regular walk) (covers : Covers p o walk) (sound : Sound p o m)
    (found : m.act.func.block? arrival.block = some block)
    (member : i ∈ block.instrs) (inner : i.isTerminator = false) :
    Guided Always (interpret ⟨p, o⟩ walk arrival i.action) m (fun _ m' => Kept p o m m') Clean := by
  have steady' := steady _ sound.runs
  have calls (may : mayCall i) : ∃ j block, m.act.func.block? j = some block ∧
    ∃ instr ∈ block.instrs, mayCall instr :=
    ⟨_, block, found, i, member, may⟩
  refine guided_interpret sound.mayFail (fun m' turned _ => ?_) (fun c result call => ?_) (fun dst jump => ?_)
    (fun cond onTrue onFalse branch => ?_) (fun c spawn => ?_) (fun c _ => ?_) fun returns => ?_
  · exact sound.turned turned fun l => calm_turn steady'.unranged (sound.orderly.calm _ mem_cons_self) found member
  · refine guided_coverCall steady regular covers sound fun other => calls ?_
    obtain ⟨value, ty, same⟩ | same := call <;>
    · rw [mayCall, same]
      cases callee : c.callee <;> simp_all
  · simp [Instr.isTerminator, jump, Effect.isTerminator] at inner
  · simp [Instr.isTerminator, branch, Effect.isTerminator] at inner
  · exact guided_coverSpawn sound (calls (by rw [mayCall, spawn]))
  · exact ⟨{ sound with }, rfl, rfl, rfl⟩
  · exact guided_coverDeferred steady regular covers sound (calls (by rw [mayCall, returns]))

omit steady in
theorem Kept.seen (kept : Kept p o m m') (b : Nat) : m'.act.course.Seen b ↔ m.act.course.Seen b := by
  rw [Course.Seen, Course.Seen, show m'.act.course.visited = m.act.course.visited from kept.visited]

omit steady in
theorem Kept.wandered (kept : Kept p o m m') (first : Nat → Prop) :
    Wandered first m.act.course m'.act.course := .of_same kept.func kept.labels kept.visited

omit steady in
/-- Going back to the loops of before, after a walk. -/
theorem Sound.resetLoops (sound : Sound p o m) (calm : ∀ l ∈ loops.loops, Calm m.act.func l) :
    Sound p o (m.resetLoops loops) :=
  ⟨sound.clean, sound.runs, ⟨calm, sound.orderly.merges, sound.orderly.preds⟩, sound.tasks⟩

variable {c' : Course}

/-- The second target of a branch is still unseen once the first side was walked: it is reached from the
block of the branch only, which was seen before. -/
theorem unseen_after_first {onTrue onFalse : Nat} (runs : Interpreted p o f) (func : c.func = f)
    (found : f.block? src = some block) (succs : block.succs = [onTrue, onFalse]) (target : f.block? onFalse = some dst)
    (plain : dst.isMergePoint = false) (seen : c.Seen src) (before : ¬ c.Seen onFalse)
    (wandered : Wandered (· = onTrue) c c') : ¬ c'.Seen onFalse := by
  intro now
  have steady' := steady f runs
  by_cases same : onFalse = onTrue
  · subst same
    have index := steady'.linked.index_eq target
    exact Bool.eq_false_iff.1 plain
      (steady'.apart block (mem_of_getElem? found) dst (mem_of_getElem? target) (index ▸ succs))
  · have edge : src ∈ dst.preds := (steady'.linked.mem_preds target).2 ⟨block, found, by simp [succs]⟩
    exact (wandered.news onFalse dst now before same (func ▸ target) plain src edge).2 seen

/-- The last instruction of a block that was just seen: the targets are not, unless they are merge points. -/
theorem guided_coverLast (regular : Regular walk) (covers : Covers p o walk) (sound : Sound p o m)
    (found : m.act.func.block? arrival.block = some block)
    (last : block.terminator? = some i) (seen : m.act.course.Seen arrival.block)
    (fresh : ∀ t ∈ block.succs, ∀ dst, m.act.func.block? t = some dst → dst.isMergePoint = false →
      ¬ m.act.course.Seen t) :
    Guided Always (interpret ⟨p, o⟩ walk arrival i.action) m
      (fun _ m' => Sound p o m' ∧ Wandered (· ∈ block.succs) m.act.course m'.act.course) Clean := by
  have steady' := steady _ sound.runs
  obtain ⟨term, ends, succs, -⟩ := steady'.linked.terminator found
  obtain rfl : i = term := Option.mem_unique last ends
  have terminator : i.isTerminator := (Option.filter_eq_some_iff.1 last).2
  have member : i ∈ block.instrs := mem_of_getLast? (Option.filter_eq_some_iff.1 last).1
  have edge (t : Nat) (leads : t ∈ block.succs) (dst : Block) (target : m.act.func.block? t = some dst) :
      arrival.block ∈ dst.preds := (steady'.linked.mem_preds target).2 ⟨block, found, leads⟩
  -- An edge to any successor, from a machine that has seen nothing since.
  have follow (t : Nat) (leads : t ∈ block.succs) {m₀ : Machine} (kept : Kept p o m m₀) :
      Guided Always (followEdge walk arrival.block t) m₀
        (fun _ m' => Sound p o m' ∧ Wandered (· = t) m.act.course m'.act.course) Clean := by
    refine (guided_coverEdge regular covers kept.sound ((kept.seen _).2 seen) ?_ ?_).imp ?_
    · exact fun dst target => edge t leads dst (kept.func ▸ target)
    · exact fun dst target plain now => fresh t leads dst (kept.func ▸ target) plain ((kept.seen t).1 now)
    · exact fun _ m' ends => ⟨ends.1, (kept.wandered _).trans ends.2⟩
  cases same : i.action with
  | define value ty op => simp [Instr.isTerminator, same] at terminator
  | perform effect =>
    have targets : block.succs = effect.successors := by rw [succs, Instr.successors, same]
    rw [interpret]
    obtain ⟨step, quiet, eq⟩ | ⟨dst, rfl⟩ | ⟨cond, onTrue, onFalse, rfl⟩ | ⟨c, rfl⟩ | ⟨c, rfl⟩ |
      ⟨c, rfl⟩ | rfl :=
      perform_cases ⟨p, o⟩ arrival effect
    · rw [eq]
      refine .ends_quietly quiet sound.mayFail fun _ m' quiet _ => ?_
      exact ⟨sound.of_quiet quiet, (sound.kept quiet).wandered _⟩
    · have leads : dst ∈ block.succs := by simp [targets, Effect.successors]
      refine (follow dst leads (sound.kept (.refl m))).imp (fun _ m' ends => ⟨ends.1, ?_⟩)
      exact ends.2.weaken fun b same => same ▸ leads
    · have succs : block.succs = [onTrue, onFalse] := targets
      have calm (l : Loop) : Turn m.act arrival (.perform (.branch cond onTrue onFalse)) l → Calm m.act.func l :=
        same ▸ calm_turn steady'.unranged (sound.orderly.calm _ mem_cons_self) found member
      refine guided_branchSides regular ?_ ?_
      · intro m₀ next turned _ either
        have leads : next ∈ block.succs := by simpa [succs] using either
        refine (follow next leads (sound.turned turned calm)).imp (fun _ m' ends => ⟨ends.1, ?_⟩)
        exact ends.2.weaken fun b same => same ▸ leads
      · intro m₀ r turned _
        have kept := sound.turned turned calm
        have kept' : Kept p o m (m₀.setRoutine r) :=
          ⟨{ kept.sound with }, kept.func, kept.labels, kept.visited⟩
        refine (follow onTrue (by simp [succs]) kept').imp (fun _ m₁ ends => ?_)
        obtain ⟨sound₁, wandered⟩ := ends
        refine ⟨sound₁.mayFail, fun r => ?_⟩
        have func : m₁.act.func = m.act.func := wandered.func
        have sound₁' : Sound p o ((m₁.setRoutine r).resetLoops m₀.act.loops) := by
          refine Sound.resetLoops ⟨sound₁.clean, sound₁.runs, sound₁.orderly, sound₁.tasks⟩
            fun l member => ?_
          rw [show (m₁.setRoutine r).act.func = m₀.act.func from func.trans kept.func.symm]
          exact kept.sound.orderly.calm l member
        refine (guided_coverEdge regular covers sound₁' (wandered.seen _ seen) ?_ ?_).imp ?_
        · exact fun dst target => edge onFalse (by simp [succs]) dst (func ▸ target)
        · intro dst target plain
          have target' : m.act.func.block? onFalse = some dst := func ▸ target
          have unseen : ¬ m₁.act.course.Seen onFalse :=
            unseen_after_first steady sound.runs rfl found succs target' plain seen
              (fresh onFalse (by simp [succs]) dst target' plain) wandered
          exact unseen
        · rintro - m₂ ⟨sound₂, wandered₂⟩
          refine ⟨sound₂.mayFail,
            fun r => ⟨⟨sound₂.clean, sound₂.runs, sound₂.orderly, sound₂.tasks⟩, ?_⟩⟩
          have first : Wandered (· ∈ block.succs) m.act.course m₁.act.course :=
            wandered.weaken fun b same => by simp [succs, same]
          have reset : Wandered (· ∈ block.succs) m₁.act.course
              ((m₁.setRoutine _).resetLoops m₀.act.loops).act.course := .of_same rfl rfl rfl
          exact (first.trans reset).trans (wandered₂.weaken fun b same => by simp [succs, same])
    all_goals simp [Instr.isTerminator, same, Effect.isTerminator] at terminator

omit steady in
/-- The course once a block is entered and noted. -/
def Course.visit (c : Course) (b : Nat) (loops : Nest) : Course := { c with loops, visited := (b, []) :: c.visited }

omit steady in
theorem Course.seen_visit {b' : Nat} : (c.visit b loops).Seen b' ↔ b' = b ∨ c.Seen b' := by
  simp [Course.Seen, Course.visit]

omit steady in
theorem Ready.visit (orderly : Orderly c) (ready : Ready c b)
    (calm : ∀ l ∈ loops.loops, Calm c.func l) : Orderly (c.visit b loops) := by
  refine ⟨calm, fun b' block seen found merge => ?_, fun b' block seen found plain q member => ?_⟩
  · rcases Course.seen_visit.1 seen with rfl | seen
    · exact ready.merge block found merge
    · exact orderly.merges b' block seen found merge
  · rcases Course.seen_visit.1 seen with rfl | seen
    · exact Course.seen_visit.2 (.inr (ready.preds block found plain q member))
    · exact Course.seen_visit.2 (.inr (orderly.preds b' block seen found plain q member))

/-- The successors of a block that is just seen are unseen, unless they are merge points. -/
theorem unseen_succs (runs : Interpreted p o c.func) (orderly : Orderly c) (ready : Ready c b)
    (found : c.func.block? b = some block) {t : Nat} (leads : t ∈ block.succs) (target : c.func.block? t = some dst)
    (plain : dst.isMergePoint = false) : ¬ (c.visit b loops).Seen t := by
  have edge : b ∈ dst.preds := ((steady _ runs).linked.mem_preds target).2 ⟨block, found, leads⟩
  intro seen
  rcases Course.seen_visit.1 seen with rfl | seen
  · exact ready.unseen (ready.preds dst target plain t edge)
  · exact ready.unseen (orderly.preds t dst seen target plain b edge)

/-- A walk from a block, seen from before the block was. -/
theorem wandered_visit (runs : Interpreted p o c.func) (ready : Ready c b) (found : c.func.block? b = some block)
    (wandered : Wandered (· ∈ block.succs) (c.visit b loops) c') : Wandered (· = b) c c' := by
  refine ⟨wandered.func, fun b' seen => wandered.seen b' (Course.seen_visit.2 (.inr seen)),
    wandered.labels, fun b' dst now before other target plain q member => ?_⟩
  have before' : ¬ (c.visit b loops).Seen b' := fun seen => (Course.seen_visit.1 seen).elim other before
  by_cases leads : b' ∈ block.succs
  · have edge : b ∈ dst.preds := ((steady _ runs).linked.mem_preds target).2 ⟨block, found, leads⟩
    obtain rfl := pred_unique plain edge member
    exact ⟨wandered.seen q (Course.seen_visit.2 (.inl rfl)), ready.unseen⟩
  · obtain ⟨seen, new⟩ := wandered.news b' dst now before' leads target plain q member
    exact ⟨seen, fun old => new (Course.seen_visit.2 (.inr old))⟩

/-- The instructions of a block that was just seen, as far as they are interpreted. Only the last one leads on. -/
structure Underway (p : Program) (o : Options) (block : Block) (m₁ : Machine) (rest : List Instr) (m : Machine) :
    Prop where
  sound : Sound p o m
  wandered : Wandered (· ∈ block.succs) m₁.act.course m.act.course
  suffix : rest <:+ block.instrs
  kept : rest ≠ [] → Kept p o m₁ m

omit steady in
theorem Sound.emitted (sound : Sound p o m) (i : Instr) (n : Nat) :
    Kept p o m ((m.emit (.instrVisited i)).withBudget n) := by
  have kept := sound.kept (Quiet.push m (e := .instrVisited i) fun _ eq => nomatch eq)
  exact ⟨{ kept.sound with }, rfl, rfl, rfl⟩

theorem guided_coverInstr (regular : Regular walk) (covers : Covers p o walk) {m₁ : Machine}
    (found : m₁.act.func.block? arrival.block = some block) (seen : m₁.act.course.Seen arrival.block)
    (fresh : ∀ t ∈ block.succs, ∀ dst, m₁.act.func.block? t = some dst → dst.isMergePoint = false →
      ¬ m₁.act.course.Seen t) {rest : List Instr} (under : Underway p o block m₁ (i :: rest) m) :
    Guided Always (walkInstr ⟨p, o⟩ walk arrival i) m (fun _ m' => Underway p o block m₁ rest m') Clean := by
  have emitted : Quiet m (m.emit (.instrVisited i)) := .push m fun _ eq => nomatch eq
  refine guided_walkInstr (fun _ => (under.sound.of_quiet emitted).clean) fun _ n _ => ?_
  have kept := (under.kept nofun).trans (under.sound.emitted i n)
  have found' := kept.func ▸ found
  have suffix : rest <:+ block.instrs := (suffix_cons i rest).trans under.suffix
  cases rest with
  | nil =>
    obtain ⟨term, ends, -⟩ := (steady _ kept.sound.runs).linked.terminator found'
    have last : block.instrs.getLast? = some i := by
      obtain ⟨before, split⟩ := under.suffix
      simp [← split]
    obtain rfl : i = term := Option.some.inj (last.symm.trans (Option.filter_eq_some_iff.1 ends).1)
    refine (guided_coverLast steady regular covers kept.sound found' ends ((kept.seen _).2 seen) ?_).imp ?_
    · exact fun t leads dst target plain now => fresh t leads dst (kept.func ▸ target) plain ((kept.seen t).1 now)
    · exact fun _ m' ends => ⟨ends.1, (kept.wandered _).trans ends.2, suffix, nofun⟩
  | cons next rest =>
    have inner : i ∈ block.instrs.dropLast := by
      obtain ⟨before, split⟩ := under.suffix
      simp [← split]
    have member : i ∈ block.instrs := dropLast_subset _ inner
    have stays := (steady _ kept.sound.runs).ends block (mem_of_getElem? found') i inner
    refine (guided_coverInner steady regular covers kept.sound found' member stays).imp ?_
    exact fun _ m' ends =>
      ⟨ends.sound, (kept.trans ends).wandered _, suffix, fun _ => kept.trans ends⟩

omit steady in
theorem course_noteVisit {pred : Option Nat} (index : block.index = b)
    (calm : ∀ l ∈ (m.act.loops.enter block.index block.role).1.loops, Calm m.act.func l)
    (fresh : (m.enter block pred).act.hasVisited block.index = false) :
    ((m.enter block pred).act.noteVisit block.index).course =
      m.act.course.visit b (m.act.loops.enter block.index block.role).1 := by
  have empty : (m.enter block pred).act.signature = [] := signature_eq_nil calm
  subst index
  rw [Activation.noteVisit, fresh, if_neg Bool.false_ne_true, Activation.key, empty]
  rfl

theorem covers_enterBlock (regular : Regular walk) (covers : Covers p o walk) :
    Covers p o (enterBlock ⟨p, o⟩ walk) := by
  intro arrival m sound ready
  have entered {block : Block} (found : m.act.func.block? arrival.block = some block) :
      block.index = arrival.block ∧
      ∀ l ∈ (m.act.loops.enter block.index block.role).1.loops, Calm m.act.func l := by
    have index := (steady _ sound.runs).linked.index_eq found
    exact ⟨index, calm_enter sound.orderly.calm (index ▸ found)⟩
  refine Guided.leads (guided_enterBlock (fun _ => sound.mayFail) ?_ ?_)
  · intro block found visited
    obtain ⟨index, calm⟩ := entered found
    have empty : (m.enter block arrival.pred).act.signature = [] := signature_eq_nil calm
    rw [Activation.hasVisited, Activation.key, empty, index, contains_iff_mem] at visited
    exact absurd visited ready.unseen
  · intro block found fresh
    obtain ⟨index, calm⟩ := entered found
    have course := course_noteVisit index calm fresh
    have func : ((m.enter block arrival.pred).act.noteVisit block.index).func = m.act.func :=
      congrArg Course.func course
    have sound₁ : Sound p o ((m.enter block arrival.pred).onAct (·.noteVisit block.index)) := by
      refine ⟨?_, func.symm ▸ sound.runs, ?_, sound.tasks⟩
      · simpa [Machine.enter, Machine.revisits_emit] using sound.clean
      · rw [Machine.onAct_act, course]
        exact ready.visit sound.orderly calm
    refine (Guided.forM (Underway p o block _) (fun i => (alike_walkInstr regular ⟨p, o⟩ arrival i).metered) ?_
      ⟨sound₁, .of_same rfl rfl rfl, suffix_refl _, fun _ => sound₁.kept (.refl _)⟩).imp ?_
    · intro i rest m' under
      refine guided_coverInstr steady regular covers (func.symm ▸ found) ?_ ?_ under
      · rw [Machine.onAct_act, course]
        exact Course.seen_visit.2 (.inl rfl)
      · intro t leads dst target plain
        have target' : m.act.func.block? t = some dst := func ▸ target
        rw [Machine.onAct_act, course]
        exact unseen_succs steady sound.runs sound.orderly ready found leads target' plain
    · intro _ m' under
      have wandered := under.wandered
      rw [Machine.onAct_act, course] at wandered
      exact ⟨under.sound, wandered_visit steady sound.runs ready found wandered⟩

theorem covers_walkBlock (depth : Nat) : Covers p o (walkBlock ⟨p, o⟩ depth) := by
  induction depth with
  | zero => exact fun _ _ sound _ => sound.clean
  | succ depth ih => exact covers_enterBlock steady (regular_walkBlock ⟨p, o⟩ depth) ih

/-! ### Programs -/

/-- A machine whose current activation is still to be walked. -/
structure Begun (p : Program) (o : Options) (m : Machine) : Prop where
  clean : LeftClean p o m
  runs : Interpreted p o m.act.func
  unwalked : Unwalked m.act

theorem guided_coverInit (regular : Regular walk) (covers : Covers p o walk) (begun : Begun p o m) :
    Guided Always (initialise ⟨p, o⟩ walk) m (fun _ m' => Begun p o m') Clean := by
  refine guided_initialise regular (fun _ => begun) ?_
  intro init seq m' found quiet _ _
  have runs : Interpreted p o init := .init found
  have new : Unwalked (Activation.start init seq [] m.act.func.name) := rfl
  have sound : Sound p o { m' with act := Activation.start init seq [] m.act.func.name } :=
    ⟨fun seen => begun.clean.1 (quiet.revisits.1 seen), runs, new.orderly, quiet.tasks ▸ begun.clean.2⟩
  refine .of_leads ((covers .entry _ sound (ready_entry steady runs (new.unseen 0))).imp ?_)
  intro _ m₁ ends
  refine ⟨⟨ends.1.clean, ends.1.tasks⟩, quiet.func ▸ begun.runs, ?_⟩
  have same : m'.act.course = { func := m'.act.func } := by rw [quiet.course, begun.unwalked, quiet.func]
  exact same

theorem guided_coverTasks (regular : Regular walk) (covers : Covers p o walk) (clean : LeftClean p o m)
    (count : Nat) : Guided Always (drain walk count) m (fun _ m' => LeftClean p o m') Clean := by
  refine guided_drain (fun _ m => LeftClean p o m) regular (fun _ clean => clean.1)
    (fun _ _ clean _ => clean) ?_ clean
  intro _ m a rest clean waits
  have first := clean.2 a (waits ▸ mem_cons_self)
  have others : LeftClean p o { m with tasks := { m.tasks with waiting := rest }, act := a } :=
    ⟨clean.1, fun b member => clean.2 b (waits ▸ mem_cons_of_mem a member)⟩
  exact (guided_coverFunction steady regular covers others first.1 first.2).imp
    (fun _ _ left => left)

omit steady in
theorem revisits_start (entry : Function) (budget : Nat) : ¬ (Machine.start p entry budget).Revisits := by
  rintro ⟨block, member⟩
  simp [Machine.start, Context.setupEvents] at member

omit steady in
theorem unwalked_start (entry : Function) (budget : Nat) : Unwalked (Machine.start p entry budget).act := rfl

/-- Nothing is passed over in a program all of whose functions are steady. -/
theorem leads_clean {entry : Function} (found : Enters p o.entry entry) (budget : Nat) :
    Leads (analyse ⟨p, o⟩) (Machine.start p entry budget) (fun _ m => ¬ m.Revisits) Clean := by
  have regular := regular_walkBlock ⟨p, o⟩ (budget + 1)
  have covers := covers_walkBlock steady (budget + 1)
  have begun : Begun p o (Machine.start p entry budget) :=
    ⟨⟨revisits_start entry budget, fun _ waiting => nomatch waiting⟩, .entry found, unwalked_start entry budget⟩
  rw [Leads, analyse_eq ⟨p, o⟩ (Machine.start p entry budget) (Nat.lt_succ_self budget)]
  refine Guided.leads (guided_analyseWith regular ?_)
  refine (guided_coverInit steady regular covers begun).imp (fun _ m₁ begun => ?_)
  refine (guided_coverFunction steady regular covers begun.clean begun.runs begun.unwalked).imp (fun _ m₂ left => ?_)
  refine (guided_coverTasks steady regular covers left _).imp (fun _ m₃ left m₄ quiet _ => ?_)
  exact fun seen => left.1 (quiet.revisits.1 seen)

end Walks

theorem Interpreted.mem {p : Program} {o : Options} (runs : Interpreted p o f) : f ∈ p.functions := by
  cases runs with
  | entry found => exact mem_of_find?_eq_some (Option.filter_eq_some_iff.1 found).1
  | init found => exact mem_of_find?_eq_some (Option.filter_eq_some_iff.1 found).1
  | called _ _ found => exact mem_of_find?_eq_some found

/-- Sends, unless there is no channel. -/
def answer : Function where
  name := "main.answer"
  params := [⟨"out", .intChan⟩]
  freeVars := []
  results := none
  blocks := [
    .of 0 none [] [2, 1] [
      .define "c" .bool (.binary .eq (.var "out") (.const .nil)),
      .perform (.branch (.var "c") 2 1)],
    .of 1 none [0] [2] [
      .perform (.send (.var "out") (.int 1)),
      .perform (.jump 2)],
    .of 2 none [0, 1] [] [
      .perform (.ret [])]]

end ChanFlow.Analysis
