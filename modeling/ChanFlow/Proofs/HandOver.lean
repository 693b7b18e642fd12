import ChanFlow.Proofs.Holdings

/-!
What becomes of composite values that are handed over.

A callee, a caller to which a value is returned and whoever reads a global get the container of the value itself. What
the value holds keeps its containers exactly where those are handed over as well or are on the heap
(`contents_handed_over`).
-/
namespace ChanFlow.Analysis

open Ssa Protocol

variable {types : TypeTable} {f : Function} {args : List Operand} {captures : List Instance}
  {receiver : Option Instance} {value name : String} {ty : Ty} {l : License} {h h' : Holdings}
  {entry : Option ContainerId} {count n₁ n₂ : Nat} {p : Program} {o : Options} {arrival : Arrival} {y : Operand}
  {pos : Option Position} {point : Point} {m₁ m₂ : Machine}

namespace Holdings

/-- The instances that can be come to from an instance, through the slots of containers. -/
inductive Reached (h : Holdings) (v : Instance) : Instance → Prop
  | self : Reached h v v
  | slot {x y : Instance} {id : ContainerId} {slot : Slot} (reached : Reached h v x) (seen : h.sees x = some id)
    (held : h.arena.content id slot = some y) : Reached h v y

/-- All that `v` leads to in `h` has the same containers in `h'`. -/
def Keeps (h h' : Holdings) (v : Instance) : Prop := ∀ x id, h.Reached v x → h.sees x = some id →
    h'.sees x = some id

end Holdings

variable {m m' : Machine} {a callee : Activation} {x v : Instance} {id : ContainerId}

/-! ### Calls -/

/-- The instances that are handed over by a call. -/
def handed (m : Machine) (f : Function) (args : List Operand) (captures : List Instance) (receiver : Option Instance) :
    List (Option Instance) := (handedTo m f args captures receiver).map (·.2)

section

variable (ends : calleeActivation types f args captures receiver m = .ok a m')
include ends

theorem prepare_of_callee : ∃ m₁ n, prepare types f args captures receiver m = .ok a m₁ ∧
    m' = m₁.withBudget n := by
  rw [calleeActivation_eq] at ends
  have leads : Leads (prepare types f args captures receiver >>= fun a =>
      spend (.handOver f.name a.routine.params) >>= fun _ => pure a) m
      fun a m' => ∃ m₁ n, prepare types f args captures receiver m = .ok a m₁ ∧ m' = m₁.withBudget n := by
    rw [leads_bind]
    refine leads_of (fun a m₁ prepared => ?_) fun _ _ _ => trivial
    rw [leads_bind, leads_spend]
    exact ⟨fun _ => trivial, fun n _ => ⟨m₁, n, prepared, rfl⟩⟩
  exact leads.ok ends

/-- A callee sees the containers of what it is handed, and those on the heap. -/
theorem sees_callee (x : Instance) :
    Holdings.sees { m' with act := a : Machine }.holdings x =
      if some x ∈ handed m f args captures receiver then m.holdings.sees x else m.context.heap.get? x := by
  obtain ⟨m₁, n, prepared, rfl⟩ := prepare_of_callee ends
  obtain ⟨-, outfitted⟩ := prepare_outfits prepared
  have heap : m₁.context.heap = m.context.heap :=
    congrArg (·.heap) ((composed_prepare _ _ _ _ _).aside prepared).1.same
  show (a.storage.get? x).or (m₁.context.heap.get? x) = _
  rw [outfitted.get? x, heap, handed]
  split
  · rw [show ({} : Scope).get? x = none from rfl, Option.or_none]
    rfl
  · rfl

end

section

variable (taken : takeResult types callee (some (value, ty)) m = .ok () m')
include taken

theorem sees_result (x : Instance) :
    m'.holdings.sees x = if some x ∈ callee.returned then (callee.storage.get? x).or (m.holdings.sees x)
      else m.holdings.sees x := by
  obtain ⟨heap, -, -, outfitted⟩ := takeResult_outfits taken
  show (m'.act.storage.get? x).or (m'.context.heap.get? x) = _
  rw [outfitted.get? x, heap]
  split
  · rw [Option.or_assoc]
    rfl
  · rfl

/-- What a callee sees is seen by its caller as well if it is returned, or if the caller has seen it already. -/
theorem sees_result_iff (seen : Holdings.sees { m with act := callee : Machine }.holdings x = some id) :
    m'.holdings.sees x = some id ↔
      some x ∈ callee.returned ∧ callee.storage.get? x = some id ∨ m.holdings.sees x = some id := by
  have seen : (callee.storage.get? x).or (m.context.heap.get? x) = some id := seen
  rw [sees_result taken]
  by_cases returned : some x ∈ callee.returned
  · rw [if_pos returned]
    cases held : callee.storage.get? x with
    | none => simp
    | some id' =>
      rw [held, Option.some_or] at seen
      rw [Option.some_or]
      exact iff_of_true seen (.inl ⟨returned, seen⟩)
  · rw [if_neg returned]
    exact (or_iff_right fun both => returned both.1).symm

end

/-! ### Globals -/

/-- A container on the heap stays the one of an instance; one that comes later is new. -/
structure Lodged (x : Instance) (entry : Option ContainerId) (count : Nat) (h : Holdings) : Prop where
  grown : count ≤ h.arena.containers.length
  here : h.heap.get? x = entry ∨ entry = none ∧ ∃ id, count ≤ id ∧ h.heap.get? x = some id

theorem Deed.lodged (deed : Deed l h h')
    (unplaced : ¬ l.place x) (lodged : Lodged x entry count h) : Lodged x entry count h' := by
  refine ⟨Nat.le_trans lodged.grown deed.length_le, ?_⟩
  cases deed with
  | @makeOnHeap i shape id arena made may =>
    rw [Table.get?_insert]
    split
    · next same =>
      subst same
      have missing : h.heap.get? i = none := (Option.or_eq_none_iff.1 (may.resolve_right unplaced)).2
      have new := (Arena.length_alloc made).1
      rcases lodged.here with held | ⟨-, id', -, held⟩
      · exact .inr ⟨held.symm.trans missing, id, new ▸ lodged.grown, rfl⟩
      · cases missing.symm.trans held
    · exact lodged.here
  | @shareOnHeap i j id known may =>
    have other : i ≠ x := fun same => unplaced (same ▸ may)
    rw [Table.get?_insert, if_neg other]
    exact lodged.here
  | makeInScope | shareInScope | write | replace | note => exact lodged.here

theorem Deeds.lodged (deeds : Deeds l h h')
    (unplaced : ¬ l.place x) (lodged : Lodged x entry count h) : Lodged x entry count h' := by
  induction deeds with
  | refl => exact lodged
  | tail _ deed ih => exact deed.lodged unplaced ih

/-- The containers in reach of the code that runs. -/
def Machine.reach (m : Machine) : List ContainerId := m.act.storage.values ++ m.context.heap.values

/-- The storage with what is overwritten replaced by `v`, if that is composite. -/
def Machine.replaced (m : Machine) (old : Option Instance) (shape : Option Shape) (v : Instance) : Arena :=
  match old, shape with
  | some old, some shape =>
    if shape.isComposite && old != v then (m.context.arena.replaceAll m.reach old v).2 else m.context.arena
  | _, _ => m.context.arena

/-- Replacing the aliases of a composite changes what containers hold, not who has which. -/
theorem leads_replaceComposite (old : Option Instance) (shape : Option Shape) (v : Instance) :
    Leads (replaceComposite old shape v) m fun _ m' => m'.act = m.act ∧ m'.context.heap = m.context.heap ∧
      m'.context.arena = m.replaced old shape v := by
  cases old with
  | none => exact ⟨rfl, rfl, rfl⟩
  | some old =>
    cases shape with
    | none => exact ⟨rfl, rfl, rfl⟩
    | some shape =>
      simp only [replaceComposite, Machine.replaced]
      split
      · rw [replaceAliases, leads_bind, leads_context, leads_bind, leads_activation]
        dsimp only
        rw [leads_bind, leads_modifyContext]
        split <;> exact ⟨rfl, rfl, rfl⟩
      · exact ⟨rfl, rfl, rfl⟩

/-- A store to a global hands the stored instance to the heap. -/
theorem heap_storeGlobal (program : Program) (name : String) (v : Instance) :
    Leads (storeGlobal program name v) m fun _ m' => m'.context.heap = handOne m.act.storage m.context.heap v := by
  have last (m' : Machine) :
    Leads (context >>= fun c => modifyContext (fun c => { c with globals := c.globals.insert name v })
      >>= fun _ => replaceComposite (c.globals.get? name) ((program.global? name).map fun g =>
        program.types.shape g.ty) v)
      m' fun _ m'' => m''.context.heap = m'.context.heap := by
    rw [leads_bind, leads_context, leads_bind, leads_modifyContext]
    exact (leads_replaceComposite _ _ v).imp fun _ _ kept => kept.2.1
  rw [storeGlobal, leads_bind, leads_activation]
  dsimp only
  cases held : m.act.storage.get? v with
  | some id =>
    have one : handOne m.act.storage m.context.heap v = m.context.heap.insert v id := by rw [handOne, held]
    rw [one]
    exact last { m with context := { m.context with heap := m.context.heap.insert v id } }
  | none =>
    have one : handOne m.act.storage m.context.heap v = m.context.heap := by rw [handOne, held]
    rw [one]
    exact last m

section

variable (stores : StopsAt p o n₁ (.instr arrival ⟨.perform (.store (.global name) y), pos⟩) m₁)
  (held : held? m₁ y = some v)
  (reads : StopsAt p o n₂ point m₂)
  (paid : isPaid point)
  (later : n₁ < n₂)
  (unplaced : ∀ n arrival' j m, n₁ < n → n < n₂ → StopsAt p o n (.instr arrival' j) m →
      ¬ (licenseOf m j.action).place x)
include stores held reads paid later unplaced

/-- What an instance has on the heap after a store to a global stays, until the instance gets another container. -/
theorem lodged_since :
    Lodged x ((handOne m₁.act.storage m₁.context.heap v).get? x) m₁.context.arena.containers.length
      m₂.holdings := by
  obtain ⟨entry, found, stops₁⟩ := stores
  obtain ⟨entry', found', stops₂⟩ := reads
  obtain rfl := Option.mem_unique found found'
  suffices m₂.budget = 0 ∧ ∃ d s, Config.Sound (History p o entry n₂) ⟨m₂, d, s⟩ ∧
      Lodged x ((handOne m₁.act.storage m₁.context.heap v).get? x) m₁.context.arena.containers.length
        m₂.holdings by
    obtain ⟨-, d, s, -, lodged⟩ := this
    exact lodged
  refine kept_since (P := fun c => Lodged x ((handOne m₁.act.storage m₁.context.heap v).get? x)
    m₁.context.arena.containers.length c.machine.holdings) stops₁ rfl stops₂ paid later ?_ ?_
  · intro c c' walk k sound idle now spent machine ends step move
    have deeds := deeds_simple rfl ends
    have ends : (instanceOf y >>= fun v => storeGlobal p name v) (m₁.withBudget k) = .ok () c'.machine := ends
    have stored : Leads (instanceOf y >>= fun v => storeGlobal p name v) (m₁.withBudget k)
        fun _ m' => m'.context.heap = handOne m₁.act.storage m₁.context.heap v := by
      rw [leads_bind]
      refine (leads_instance y).imp fun v' m read => ?_
      obtain ⟨held', act, -, same⟩ := read
      obtain rfl : v' = v := Option.some.inj (held'.symm.trans ((held?_congr rfl rfl y).trans held))
      have heap : m.context.heap = m₁.context.heap := congrArg (·.heap) same
      have storage : m.act.storage = m₁.act.storage := congrArg (·.storage) same
      rw [← heap, ← storage]
      exact heap_storeGlobal p name v'
    have heap := stored.ok ends
    refine ⟨deeds.length_le, .inl ?_⟩
    show c'.machine.context.heap.get? x = _
    rw [heap]
  · intro c c' sound lodged past step move
    cases move.upshot with
    | @simple arrival' i walk pays reached simple idle crew ends =>
      refine (deeds_simple simple ends).lodged ?_ lodged
      rw [licenseOf_withBudget, ← licenseOf_withBudget c.machine 0]
      refine unplaced (n₂ - (c'.machine.budget + 1)) arrival' i _ (by omega) (by omega) ⟨entry, found, ?_⟩
      exact reached.2
    | other heap arena draws =>
      refine ⟨?_, ?_⟩
      · rw [Machine.holdings, arena]
        exact lodged.grown
      · rw [Machine.holdings, heap]
        exact lodged.here

/-- What is seen where a global is stored to is seen later on the heap, if it is stored itself or was there before. -/
theorem sees_later_iff (seen : m₁.holdings.sees x = some id) :
    m₂.holdings.sees x = some id ↔ m₂.act.storage.get? x = some id ∨
      m₂.act.storage.get? x = none ∧ (x = v ∨ m₁.context.heap.get? x = some id) := by
  have there : id < m₁.context.arena.containers.length := by
    obtain ⟨entry, -, stops⟩ := stores
    exact (allocated_of_stops stops).2.sees seen
  obtain ⟨-, here⟩ := lodged_since stores held reads paid later unplaced
  show (m₂.act.storage.get? x).or (m₂.context.heap.get? x) = some id ↔ _
  cases own : m₂.act.storage.get? x with
  | some id' => simp
  | none =>
    have here : m₂.context.heap.get? x = _ ∨ _ := here
    rw [get?_handOne] at here
    simp only [Option.none_or, reduceCtorEq, true_and, false_or]
    by_cases same : x = v
    · have seen : (m₁.act.storage.get? x).or (m₁.context.heap.get? x) = some id := seen
      rw [if_pos same, seen] at here
      rcases here with here | ⟨missing, -⟩
      · exact iff_of_true here (.inl same)
      · cases missing
    · rw [if_neg same] at here
      rw [or_iff_right same]
      rcases here with here | ⟨missing, id', new, here⟩
      · rw [here]
      · have here : m₂.context.heap.get? x = some id' := here
        rw [here, missing]
        constructor
        · rintro ⟨⟩
          exact absurd there (Nat.not_lt_of_le new)
        · intro kept
          cases kept

end

/-! ### All of them -/

/-- What is held by a value that is handed over keeps its containers exactly where it is on the heap or handed over
itself: in a call or spawn, in what a call returns, and for all who come after a store to a global. -/
theorem contents_handed_over {p : Program} {o : Options} :
    (∀ {m m' : Machine} {f : Function} {args : List Operand} {captures : List Instance} {receiver : Option Instance}
      {a : Activation}, calleeActivation p.types f args captures receiver m = .ok a m' →
      ∀ v, some v ∈ handed m f args captures receiver →
        (m.holdings.Keeps { m' with act := a : Machine }.holdings v ↔
          ∀ x id, m.holdings.Reached v x → m.holdings.sees x = some id →
            some x ∈ handed m f args captures receiver ∨ m.context.heap.get? x = some id)) ∧
    (∀ {m m' : Machine} {callee : Activation} {value : String} {ty : Ty},
      takeResult p.types callee (some (value, ty)) m = .ok () m' → ∀ v, some v ∈ callee.returned →
        (Holdings.Keeps { m with act := callee : Machine }.holdings m'.holdings v ↔
          ∀ x id, Holdings.Reached { m with act := callee : Machine }.holdings v x →
            Holdings.sees { m with act := callee : Machine }.holdings x = some id →
            some x ∈ callee.returned ∧ callee.storage.get? x = some id ∨ m.holdings.sees x = some id)) ∧
    (∀ {n₁ n₂ : Nat} {arrival : Arrival} {name : String} {y : Operand} {pos : Option Position} {point : Point}
      {m₁ m₂ : Machine} {v : Instance}, StopsAt p o n₁
    (.instr arrival ⟨.perform (.store (.global name) y), pos⟩) m₁ →
      held? m₁ y = some v → StopsAt p o n₂ point m₂ → isPaid point → n₁ < n₂ →
      (∀ x, m₁.holdings.Reached v x → ∀ n arrival' j m, n₁ < n → n < n₂ →
        StopsAt p o n (.instr arrival' j) m → ¬ (licenseOf m j.action).place x) →
        (m₁.holdings.Keeps m₂.holdings v ↔ ∀ x id, m₁.holdings.Reached v x →
          m₁.holdings.sees x = some id → m₂.act.storage.get? x = some id ∨
            m₂.act.storage.get? x = none ∧ (x = v ∨ m₁.context.heap.get? x = some id))) := by
  refine ⟨fun {m m' f args captures receiver a} ends v _ => ?_, fun {m m' callee value ty} ends v _ => ?_,
    fun {n₁ n₂ arrival name y pos point m₁ m₂ v} stores held reads paid later unplaced => ?_⟩
  · refine forall₂_congr fun x id => forall₂_congr fun _ seen => ?_
    rw [sees_callee ends]
    split
    · next given => exact iff_of_true seen (.inl given)
    · next other => exact (or_iff_right other).symm
  · refine forall₂_congr fun x id => forall₂_congr fun _ seen => ?_
    exact sees_result_iff ends seen
  · refine forall₂_congr fun x id => forall₂_congr fun reached seen => ?_
    exact sees_later_iff stores held reads paid later (unplaced x reached) seen

/-! ### A map inside a struct -/

/-- Maps of channels. -/
def charts : Ty := .map (.basic "int") .intChan

/-- Structs with one field, which is a map of channels. -/
def chests : Ty := .struct [charts]

/-- Puts a channel into a map and the map into a struct, and hands the struct over. -/
def burying : Function := .closed "main.main" [
  .of 0 none [] [] [
    .define "a" .intChan (.makeChan (.int 1)),
    .define "m" charts .makeMap,
    .perform (.mapUpdate (.var "m") (.int 0) (.var "a")),
    .define "s" (.pointer chests) (.alloc .heap),
    .define "p" (.pointer charts) (.fieldAddr (.var "s") 0),
    .perform (.store (.var "p") (.var "m")),
    .perform (.call ⟨.static "main.dig", [.var "s"]⟩),
    .perform (.ret [])]]

/-- Sends on the channel that it finds in the map. -/
def digging : Function where
  name := "main.dig"
  params := [⟨"s", .pointer chests⟩]
  freeVars := []
  results := none
  blocks := [
    .of 0 none [] [] [
      .define "q" (.pointer charts) (.fieldAddr (.var "s") 0),
      .define "n" charts (.deref (.var "q")),
      .define "c" .intChan (.lookup (.var "n") (.int 0) false),
      .perform (.send (.var "c") (.int 1)),
      .perform (.ret [])]]

def buried : Program := { functions := [burying, digging] }

def chart : Instance := .value ⟨some "main.main", "m"⟩ 0 0 charts

def chest : Instance := .value ⟨some "main.main", "s"⟩ 0 0 (.pointer chests)

/-- The map that the struct holds has another container for the callee, which sends on a channel that is none. -/
theorem burying_forgets :
    ∃ m₁ m₂, StopsAt buried {} 6 (.instr ⟨0, none⟩ (.perform (.call ⟨.static "main.dig", [.var "s"]⟩)))
      m₁ ∧ StopsAt buried {} 10 (.instr ⟨0, none⟩
        (.define "c" .intChan (.lookup (.var "n") (.int 0) false))) m₂ ∧
      held? m₁ (.var "s") = some chest ∧ m₁.holdings.Reached chest chart ∧ m₁.holdings.sees chart = some 0 ∧
      held? m₂ (.var "s") = some chest ∧ held? m₂ (.var "n") = some chart ∧ m₂.holdings.sees chart = none ∧
      ((infer 100 buried { cleanUp := false }).result.toOption.bind (·.routine? "main.dig")).map (·.stmts) =
        some [.send "c"] := by
  obtain ⟨m₁, stops₁, given, outer, inner, seen⟩ : ∃ m, StopsAt buried {} 6
      (.instr ⟨0, none⟩ (.perform (.call ⟨.static "main.dig", [.var "s"]⟩))) m ∧
        held? m (.var "s") = some chest ∧
      m.holdings.sees chest = some 1 ∧ m.holdings.arena.content 1 (.field 0) = some chart ∧
      m.holdings.sees chart = some 0 := exists_stop (by decide +kernel)
  obtain ⟨m₂, stops₂, got, found, unseen⟩ : ∃ m, StopsAt buried {} 10 (.instr ⟨0, none⟩
      (.define "c" .intChan (.lookup (.var "n") (.int 0) false))) m ∧
      held? m (.var "s") = some chest ∧ held? m (.var "n") = some chart ∧ m.holdings.sees chart = none :=
    exists_stop (by decide +kernel)
  exact ⟨m₁, m₂, stops₁, stops₂, given, .slot .self outer inner, seen, got, found,
    unseen, by decide +kernel⟩

/-! ### A struct on the heap -/

/-- Pointers to structs that point to a struct with a channel. -/
def shelves : Ty := .pointer (.struct [.pointer (.struct [.intChan])])

/-- Puts a struct with a channel into another, has that handed back by a callee and leaves it in a global. -/
def shelving : Function := .closed "main.main" [
  .of 0 none [] [] [
    .define "a" .intChan (.makeChan (.int 1)),
    .define "m" (.pointer (.struct [.intChan])) (.alloc .heap),
    .define "p" (.pointer .intChan) (.fieldAddr (.var "m") 0),
    .perform (.store (.var "p") (.var "a")),
    .define "s" shelves (.alloc .heap),
    .define "q" (.pointer (.pointer (.struct [.intChan]))) (.fieldAddr (.var "s") 0),
    .perform (.store (.var "q") (.var "m")),
    .define "r" shelves (.call ⟨.static "main.hand", [.var "s"]⟩),
    .perform (.store (.global "main.kept") (.var "r")),
    .perform (.call ⟨.static "main.find", []⟩),
    .perform (.ret [])]]

/-- Gives back what it is given. -/
def handing : Function where
  name := "main.hand"
  params := [⟨"s", shelves⟩]
  freeVars := []
  results := some shelves
  blocks := [
    .of 0 none [] [] [.perform (.ret [.var "s"])]]

/-- Reads the global. -/
def finding : Function := .closed "main.find" [
  .of 0 none [] [] [
    .define "g" shelves (.deref (.global "main.kept")),
    .perform (.ret [])]]

def shelf : Program := { functions := [shelving, handing, finding] }

/-- Where nothing is in the scope, all containers are on the heap. -/
theorem sees_of_bare (bare : m.act.storage = {}) (x : Instance) : m.holdings.sees x = m.context.heap.get? x := by
  show (m.act.storage.get? x).or (m.context.heap.get? x) = _
  rw [bare]
  exact Option.none_or

/-- The machine when `n` steps are paid for. -/
def shelved (n : Nat) : Machine := (after (analyse ⟨shelf, {}⟩ (Machine.start shelf shelving n))).withBudget 1

/-- The struct that is handed around. -/
def shelfTop : Instance := .value ⟨some "main.main", "s"⟩ 0 0 shelves

/-- The callee when it has returned, and the machine that its caller goes on with. -/
def handedBack : Activation := { (shelved 9).act with returned := [some shelfTop] }

def resumed : Machine := { shelved 9 with act := (shelved 7).act }

/-- All that the struct leads to is on the heap: the callee sees it, the caller still does when the struct is returned,
and so does a callee that comes when it is in the global. -/
theorem shelving_keeps :
    (∃ x a m', held? (shelved 7) (.var "s") = some shelfTop ∧ (shelved 7).holdings.Reached shelfTop x ∧
      (shelved 7).holdings.sees x = some 0 ∧
      calleeActivation shelf.types handing [.var "s"] [] none (shelved 7) = .ok a m' ∧
      (shelved 7).holdings.Keeps { m' with act := a : Machine }.holdings shelfTop) ∧
    (∃ m', takeResult shelf.types handedBack (some ("r", shelves)) resumed = .ok () m' ∧
      Holdings.Keeps { resumed with act := handedBack : Machine }.holdings m'.holdings shelfTop) ∧
    ∃ m₁ m₂, StopsAt shelf {} 10
      (.instr ⟨0, none⟩ (.perform (.store (.global "main.kept") (.var "r")))) m₁ ∧
      StopsAt shelf {} 13 (.instr ⟨0, none⟩ (.define "g" shelves (.deref (.global "main.kept")))) m₂ ∧
      held? m₁ (.var "r") = some shelfTop ∧ m₁.holdings.Keeps m₂.holdings shelfTop := by
  obtain ⟨calls, returns, stores⟩ := contents_handed_over (p := shelf) (o := {})
  refine ⟨?_, ?_, ?_⟩
  · have inner : ((shelved 7).holdings.arena.content 1 (.field 0)).bind (shelved 7).holdings.sees = some 0 := by
      decide +kernel
    obtain ⟨x, content, seen⟩ := Option.bind_eq_some_iff.1 inner
    have held : held? (shelved 7) (.var "s") = some shelfTop := by decide +kernel
    have outer : (shelved 7).holdings.sees shelfTop = some 1 := by decide +kernel
    obtain ⟨a, goes⟩ := ends_of_isOk (x := calleeActivation shelf.types handing [.var "s"] [] none) (m := shelved 7)
      (by decide +kernel)
    have given (m : Machine) (held : held? m (.var "s") = some shelfTop) :
        some shelfTop ∈ handed m handing [.var "s"] [] none := by
      simp [handed, handedTo, handing, held]
    refine ⟨x, a, _, held, .slot .self outer content, seen, goes, ?_⟩
    refine (calls goes shelfTop (given _ held)).2 fun y id _ seen => .inr ?_
    exact (sees_of_bare (by decide +kernel) y).symm.trans seen
  · obtain ⟨⟨⟩, goes⟩ := ends_of_isOk (x := takeResult shelf.types handedBack (some ("r", shelves)))
      (m := resumed) (by decide +kernel)
    have seen (m : Machine) (a : Activation) (bare : m.act.storage = {}) (bare' : a.storage = {}) (y : Instance) (id)
        (seen : Holdings.sees { m with act := a : Machine }.holdings y = some id) : m.holdings.sees y = some id :=
      (sees_of_bare bare y).trans ((sees_of_bare (m := { m with act := a }) bare' y).symm.trans seen)
    have given : some shelfTop ∈ handedBack.returned := List.mem_cons_self
    exact ⟨_, goes, (returns goes shelfTop given).2 fun y id _ here =>
      .inr (seen resumed handedBack (by decide +kernel) (by decide +kernel) y id here)⟩
  · obtain ⟨m₁, stops₁, held, bare₁⟩ : ∃ m, StopsAt shelf {} 10
        (.instr ⟨0, none⟩ (.perform (.store (.global "main.kept") (.var "r")))) m ∧
        held? m (.var "r") = some shelfTop ∧ m.act.storage = {} := exists_stop (by decide +kernel)
    obtain ⟨m₂, stops₂, bare₂⟩ : ∃ m, StopsAt shelf {} 13
        (.instr ⟨0, none⟩ (.define "g" shelves (.deref (.global "main.kept")))) m ∧ m.act.storage = {} :=
      exists_stop (by decide +kernel)
    refine ⟨m₁, m₂, stops₁, stops₂, held, (stores stops₁ held stops₂ rfl (by decide) ?_).2
      fun y id _ seen => .inr ?_⟩
    · -- In between there is only the call, which gives no value a container.
      intro x _ n arrival j m later sooner stops
      have calls : (instrAt shelf {} n).all fun j => j.action = .perform (.call ⟨.static "main.find", []⟩) := by
        obtain rfl | rfl : n = 11 ∨ n = 12 := by omega
        all_goals decide +kernel
      rw [instrAt_of_stops stops] at calls
      rw [of_decide_eq_true calls]
      exact id
    · exact ⟨by rw [bare₂]; rfl, .inr ((sees_of_bare bare₁ y).symm.trans seen)⟩

end ChanFlow.Analysis
