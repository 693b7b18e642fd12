import ChanFlow.Proofs.ChannelNames

/-!
Values that are created again and again.

An instruction that creates a value binds it to an instance made of the function, the value, the number of the
activation and the index of the innermost loop. Of the loops around it only the innermost one counts
(`created_alike_iff`), and that only if it is unrolled: the index of any other loop is zero (`poised_of_stops`).
-/
namespace ChanFlow

open Ssa

variable {a : Activation} {arrival : Arrival} {action : Action} {m' : Machine} {i : Instance}

/-! ### The index of the innermost loop -/

/-- A loop that is not unrolled has no index. -/
def Loop.Poised (l : Loop) : Prop := l.isStatic = false → l.index = 0

section Poised

variable {l : Loop}

theorem Loop.Poised.advance (static : l.isStatic) : l.advance.Poised := by
  intro dynamic
  have same : l.advance.isStatic = l.isStatic := by
    unfold Loop.advance
    split
    · rfl
    · split <;> rfl
  exact nomatch (same ▸ static).symm.trans dynamic

theorem Loop.Poised.noteIndex (poised : l.Poised) (var : String) (start step : Int) :
    (l.noteIndex var start step).Poised := by
  unfold Loop.noteIndex
  split
  · exact poised
  · exact poised

theorem Loop.Poised.noteCondition (poised : l.Poised) (cond : String) (x : Option String) (op : BinOp)
    (bound : Option Int) (maxUnroll : Nat) : (l.noteCondition cond x op bound maxUnroll).Poised := by
  unfold Loop.noteCondition
  split
  · next unknown =>
    have undecided : l.isStatic = false := by rw [Loop.isStatic, unknown]; rfl
    split
    · intro dynamic
      cases dynamic
    · exact fun _ => poised undecided
  · exact poised

theorem Loop.Poised.settle (poised : l.Poised) : l.settle.Poised := by
  unfold Loop.settle
  split
  · next unknown => exact fun _ => poised (by rw [Loop.isStatic, unknown]; rfl)
  · exact poised

end Poised

namespace Nest

variable {n : Nest}

/-- The entry of the innermost loop in the signature, and zero if that loop is not unrolled. -/
def innermost (n : Nest) : Int := if n.current.isStatic then n.signature.getLast?.getD 0 else 0

theorem getLast?_signature (static : n.current.isStatic) : n.signature.getLast? = some n.current.index := by
  simp [signature, static]

theorem innermost_eq (poised : n.current.Poised) : n.innermost = n.current.index := by
  unfold innermost
  split
  · next static => rw [getLast?_signature static]; rfl
  · next dynamic => exact (poised (by simpa using dynamic)).symm

theorem poised_enter (poised : ∀ l ∈ n.loops, l.Poised) (block : Nat) (role : Role) :
    ∀ l ∈ (n.enter block role).1.loops, l.Poised :=
  forall_enter poised (fun _ _ => id) (fun _ _ => rfl) fun _ => rfl

end Nest

namespace Analysis

/-! ### Every loop of a run is poised -/

def Activation.Poised (a : Activation) : Prop := ∀ l ∈ a.loops.loops, l.Poised

theorem Turn.poised {l : Loop} (poised : a.Poised) (turn : Turn a arrival action l) : (a.setLoop l).Poised := by
  obtain ⟨current, outer⟩ := List.forall_mem_cons.1 poised
  refine List.forall_mem_cons.2 ⟨?_, outer⟩
  cases turn with
  | stay action => exact current
  | advance static => exact .advance static
  | candidate header found => exact current.noteIndex _ _ _
  | comparison header maxUnroll => exact current.noteCondition _ _ _ _ _
  | settle => exact current.settle

theorem Unbegun.poised (unbegun : Unbegun a) : a.Poised := by
  rw [Activation.Poised, unbegun.loops]
  exact List.forall_mem_singleton.2 fun _ => rfl

theorem Quiet.poised {m : Machine} (quiet : Quiet m m') (poised : m.act.Poised) : m'.act.Poised := by
  rw [Activation.Poised, quiet.loops]
  exact poised

/-- All loops around the current place are poised. -/
def poising : Conduct where
  holds m := m.act.Poised
  keeps _ _ := True
  stopped point m := isPaid point → m.act.Poised
  ready m := m.act.Poised
  idle _ := True

theorem lawful_poising (env : Env) (property : Property) : poising.Lawful env property where
  quiet here quiet _ := ⟨quiet.poised here.holds, trivial⟩
  turn here _ turn := ⟨turn.poised here.holds, trivial⟩
  defer _ here := ⟨here.holds, trivial⟩
  straight here _ _ _ _ := ⟨here.holds, trivial⟩
  again here _ _ _ _ _ _ := ⟨here.holds, trivial⟩
  merge here _ _ _ _ _ _ := ⟨here.holds, fun _ walked => ⟨walked.holds, trivial⟩⟩
  aside here := here.holds
  between here _ := here.holds
  join _ _ second := ⟨second.holds, trivial⟩
  case _ _ first _ := ⟨first.holds, trivial⟩
  reset here _ := ⟨here.holds, trivial⟩
  call here quiet _ _ _ _ new _ _ := ⟨new.unbegun.poised, fun _ _ => ⟨quiet.poised here.holds, trivial⟩⟩
  spawn here quiet _ _ _ _ _ _ :=
    ⟨fun _ => ⟨quiet.poised here.holds, trivial⟩, fun _ _ _ => ⟨quiet.poised here.holds, trivial⟩⟩
  revisit here _ _ := ⟨⟨Nest.poised_enter here.holds _ _, trivial⟩, trivial⟩
  visit here _ _ _ := ⟨Nest.poised_enter here.holds _ _, trivial⟩
  instr during _ _ _ _ :=
    ⟨fun _ _ => during.1, fun _ _ _ => ⟨during.1, fun _ stays => ⟨stays.holds, trivial⟩⟩⟩
  ends during _ _ _ := ⟨⟨during.1, trivial⟩, trivial⟩
  stopEdge here _ _ _ := here.holds
  stopHandOver here _ _ := here.holds
  stopBlock _ paid := nomatch paid
  skip := id
  init _ ready _ quiet _ _ := ⟨List.forall_mem_singleton.2 fun _ => rfl, fun _ _ => quiet.poised ready⟩
  entry _ ready := ⟨ready, fun _ _ => trivial⟩
  task {m a rest} tidy _ waits :=
    ⟨(tidy.unbegun a (waits ▸ List.mem_cons_self)).1.poised, fun _ _ => trivial⟩
  stopTask _ paid := nomatch paid

section Runs

variable {p : Program} {o : Options} {n n₁ n₂ : Nat} {point : Point} {m m₁ m₂ : Machine}
  {value value₁ value₂ : String} {ty ty₁ ty₂ : Ty} {i₁ i₂ : Instance}

theorem poised_of_stops (stops : StopsAt p o n point m) (paid : isPaid point) : m.act.Poised := by
  obtain ⟨entry, found, stops⟩ := stops
  have lawful : poising.Lawful ⟨p, o⟩ (History p o entry n) := lawful_poising ⟨p, o⟩ _
  have fresh : poising.fresh (Machine.start p entry n) := List.forall_mem_singleton.2 fun _ => rfl
  exact (lawful.leads found fresh).error stops point rfl paid

/-! ### Creations -/

/-- The value that an instruction creates, with its type. -/
def created? : Action → Option (String × Ty)
  | .define value ty (.makeChan _) | .define value ty (.alloc _) | .define value ty .makeMap
  | .define value ty (.makeSlice _) | .define value ty (.makeClosure _ _) | .define value ty (.recv _ _) =>
    some (value, ty)
  | _ => none

/-- At time `n` and in state `m` a run creates a value, and binds it to the instance. -/
inductive Creates (p : Program) (o : Options) (n : Nat) (m : Machine) (value : String) (ty : Ty) (i : Instance) : Prop
  | intro {arrival : Arrival} {instr : Instr} {walk : Walker} {m' : Machine}
    (stops : StopsAt p o n (.instr arrival instr) m) (creation : created? instr.action = some (value, ty))
    (ends : interpret ⟨p, o⟩ walk arrival instr.action m = .ok () m') (binds : m'.act.resolve? value = some i)

theorem Quiet.fresh (quiet : Quiet m m') (value : String) (ty : Ty) : m'.act.fresh value ty = m.act.fresh value ty := by
  rw [Activation.fresh, quiet.func, quiet.seq, quiet.loops, Activation.fresh]

theorem Activation.resolve?_bind (a : Activation) (value : String) (i : Instance) :
    (a.bind value i).resolve? value = some i := by
  rw [Activation.resolve?, Activation.bind, Table.get?_insert, if_pos rfl]

/-- A value is bound to what was fresh before the instruction. -/
def BindsFresh (value : String) (ty : Ty) (m : Machine) (x : Run Unit) : Prop :=
  Leads x m fun _ m' => m'.act.resolve? value = some (m.act.fresh value ty)

theorem bindsFresh_after {α : Type} {x : Run α} {f : α → Run Unit} (quietly : Quietly x)
    (next : ∀ a m', BindsFresh value ty m' (f a)) : BindsFresh value ty m (x >>= f) := by
  rw [BindsFresh, leads_bind]
  refine (quietly.leads m).partly fun a m' led => ?_
  rw [← led.1.fresh]
  exact next a m'

theorem bindsFresh_bindFresh (value : String) (ty : Ty) (m : Machine) : BindsFresh value ty m (bindFresh value ty) :=
  Activation.resolve?_bind _ _ _

theorem bindsFresh_bindWithFlag (value : String) (ty : Ty) (first : Option Instance) (m : Machine) :
    BindsFresh value ty m (bindWithFlag value ty first) := Activation.resolve?_bind _ _ _

theorem bindsFresh_alloc (types : TypeTable) (scope : AllocScope) (value : String) (ty : Ty) (m : Machine) :
    BindsFresh value ty m (alloc types value ty scope) := by
  unfold BindsFresh alloc
  simp only [leads_bind, Analysis.fresh, leads_activation, leads_pure]
  refine ((Quietly.of_composed (composed_allocate trivial _)).leads m).partly fun id m₁ _ => ?_
  cases id with
  | none => exact Activation.resolve?_bind _ _ _
  | some id => cases scope <;> exact Activation.resolve?_bind _ _ _

theorem bindsFresh_makeContainer (types : TypeTable) (value : String) (ty : Ty) (m : Machine) :
    BindsFresh value ty m (makeContainer types value ty) := by
  unfold BindsFresh makeContainer
  simp only [leads_bind, Analysis.fresh, leads_activation, leads_pure]
  refine ((Quietly.of_composed (composed_allocate trivial _)).leads m).partly fun id m₁ _ => ?_
  cases id <;> exact Activation.resolve?_bind _ _ _

theorem bindsFresh_created {env : Env} {walk : Walker} (creation : created? action = some (value, ty)) (m : Machine) :
    BindsFresh value ty m (interpret env walk arrival action) := by
  unfold created? at creation
  split at creation <;> cases creation
  · next capacity =>
    show BindsFresh value ty m (makeChan value ty capacity)
    unfold makeChan
    split
    · exact trivial
    · exact Activation.resolve?_bind _ _ _
  · exact bindsFresh_alloc _ _ _ _ m
  · exact bindsFresh_makeContainer _ _ _ m
  · exact bindsFresh_makeContainer _ _ _ m
  · next func bindings =>
    show BindsFresh value ty m (makeClosure value ty func bindings)
    exact bindsFresh_after (.mapM (.of_composed <| composed_instanceOf ·) bindings) fun captures m' => Activation.resolve?_bind _ _ _
  · next chan commaOk =>
    show BindsFresh value ty m (recv value ty chan commaOk)
    refine bindsFresh_after (.of_composed (composed_channelOf chan)) fun name m' =>
      bindsFresh_after (.addStatement trivial) fun _ m' => ?_
    split
    · exact bindsFresh_bindWithFlag value ty none m'
    · exact bindsFresh_bindFresh value ty m'

theorem Creates.eq_fresh (creates : Creates p o n m value ty i) : i = m.act.fresh value ty := by
  obtain ⟨stops, creation, ends, binds⟩ := creates
  exact Option.some.inj (binds.symm.trans ((bindsFresh_created creation m).ok ends))

theorem Creates.poised (creates : Creates p o n m value ty i) : m.act.loops.current.Poised := by
  obtain ⟨stops, -, -, -⟩ := creates
  exact poised_of_stops stops rfl _ List.mem_cons_self

/-- What one activation creates is the same instance exactly if it is created for the same value at the same index of
the innermost loop, whatever the indices of the loops around that one are. -/
theorem created_alike_iff (one : Creates p o n₁ m₁ value₁ ty₁ i₁)
    (two : Creates p o n₂ m₂ value₂ ty₂ i₂) (same : m₁.act.ident = m₂.act.ident) :
    i₁ = i₂ ↔ value₁ = value₂ ∧ ty₁ = ty₂ ∧ m₁.act.loops.innermost = m₂.act.loops.innermost := by
  obtain ⟨name, seq⟩ := Prod.mk.inj same
  rw [one.eq_fresh, two.eq_fresh, Nest.innermost_eq one.poised, Nest.innermost_eq two.poised, Activation.fresh,
    Activation.fresh, name, seq]
  simp only [Instance.value.injEq, Origin.mk.injEq, true_and]
  constructor
  · rintro ⟨value, index, ty⟩
    exact ⟨value, ty, index⟩
  · rintro ⟨value, ty, index⟩
    exact ⟨value, index, ty⟩

end Runs

/-! ### A loop inside a loop -/

/-- Creates a channel in each iteration of a loop inside a loop, both of which are unrolled. -/
def quilting : Function := .closed "main.main" [
  .of 0 none [] [1] [.perform (.jump 1)],
  .of 1 (some "for.loop") [0, 5] [2, 6] [
    .define "i" .int (.phi [⟨0, .int 0⟩, ⟨5, .var "s"⟩]),
    .define "c" .bool (.binary .lt (.var "i") (.int 2)),
    .perform (.branch (.var "c") 2 6)],
  .of 2 (some "for.body") [1] [3] [.perform (.jump 3)],
  .of 3 (some "for.loop") [2, 4] [4, 5] [
    .define "j" .int (.phi [⟨2, .int 0⟩, ⟨4, .var "t"⟩]),
    .define "d" .bool (.binary .lt (.var "j") (.int 2)),
    .perform (.branch (.var "d") 4 5)],
  .of 4 (some "for.body") [3] [3] [
    .define "a" .intChan (.makeChan (.int 1)),
    .define "t" .int (.binary .add (.var "j") (.int 1)),
    .perform (.jump 3)],
  .of 5 (some "for.done") [3] [1] [
    .define "s" .int (.binary .add (.var "i") (.int 1)),
    .perform (.jump 1)],
  .of 6 (some "for.done") [1] [] [.perform (.ret [])]]

/-- What is created at a time of a run: the activation, the signature, the value and its instance. -/
def creation? (p : Program) (o : Options) (n : Nat) :
    Option ((String × Nat) × List Int × Int × (String × Ty) × Instance) :=
  match stop? p o n with
  | some (.instr arrival i, m) =>
    match created? i.action, interpret ⟨p, o⟩ (walkBlock ⟨p, o⟩ 0) arrival i.action m with
    | some (value, ty), .ok _ m' =>
      (m'.act.resolve? value).map fun i => (m.act.ident, m.act.signature, m.act.loops.innermost, (value, ty), i)
    | _, _ => none
  | _ => none

theorem creates_of_creation? {p : Program} {o : Options} {n : Nat} {ident : String × Nat} {signature : List Int}
    {index : Int} {value : String} {ty : Ty} (here : creation? p o n = some (ident, signature, index, (value, ty), i)) :
    ∃ m, Creates p o n m value ty i ∧ m.act.ident = ident ∧ m.act.signature = signature ∧
      m.act.loops.innermost = index := by
  unfold creation? at here
  split at here
  · next arrival instr m stops =>
    split at here
    · next creation ends =>
      obtain ⟨j, binds, eq⟩ := Option.map_eq_some_iff.1 here
      cases eq
      exact ⟨m, .intro (stop?_eq_some.1 stops) creation ends binds, rfl, rfl, rfl⟩
    · exact nomatch here
  · exact nomatch here

/-- The channels of two rounds of the inner loop are different. -/
theorem quilting_created_apart :
    ∃ m₁ m₂ i₁ i₂, Creates { functions := [quilting] } {} 12 m₁ "a" .intChan i₁ ∧
      Creates { functions := [quilting] } {} 20 m₂ "a" .intChan i₂ ∧ m₁.act.ident = m₂.act.ident ∧
      m₁.act.signature = [0, 0] ∧ m₂.act.signature = [0, 1] ∧ i₁ ≠ i₂ := by
  have one : creation? { functions := [quilting] } {} 12 =
      some (("main.main", 0), [0, 0], 0, ("a", .intChan), minted "a" 0) := by decide +kernel
  have two : creation? { functions := [quilting] } {} 20 =
      some (("main.main", 0), [0, 1], 1, ("a", .intChan), minted "a" 1) := by decide +kernel
  obtain ⟨m₁, creates₁, ident₁, signature₁, index₁⟩ := creates_of_creation? one
  obtain ⟨m₂, creates₂, ident₂, signature₂, index₂⟩ := creates_of_creation? two
  have same := ident₁.trans ident₂.symm
  refine ⟨m₁, m₂, _, _, creates₁, creates₂, same, signature₁, signature₂, fun alike => ?_⟩
  have index := ((created_alike_iff creates₁ creates₂ same).1 alike).2.2
  rw [index₁, index₂] at index
  exact absurd index (by decide)

/-- The first round of the inner loop creates the same channel in both rounds of the outer one. -/
theorem quilting_created_again :
    quilting.Linked ∧ (infer 100 { functions := [quilting] } {}).result.toBool ∧
      ∃ m₁ m₂ i, Creates { functions := [quilting] } {} 12 m₁ "a" .intChan i ∧
        Creates { functions := [quilting] } {} 41 m₂ "a" .intChan i ∧ m₁.act.ident = m₂.act.ident ∧
        m₁.act.signature = [0, 0] ∧ m₂.act.signature = [1, 0] := by
  have one : creation? { functions := [quilting] } {} 12 =
      some (("main.main", 0), [0, 0], 0, ("a", .intChan), minted "a" 0) := by decide +kernel
  have two : creation? { functions := [quilting] } {} 41 =
      some (("main.main", 0), [1, 0], 0, ("a", .intChan), minted "a" 0) := by decide +kernel
  obtain ⟨m₁, creates₁, ident₁, signature₁, -⟩ := creates_of_creation? one
  obtain ⟨m₂, creates₂, ident₂, signature₂, -⟩ := creates_of_creation? two
  exact ⟨⟨quilting.draft,
    rfl⟩, by decide +kernel, m₁, m₂, _, creates₁, creates₂, ident₁.trans ident₂.symm,
    signature₁, signature₂⟩

end Analysis

end ChanFlow
