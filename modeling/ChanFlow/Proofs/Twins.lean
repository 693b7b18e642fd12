import ChanFlow.Proofs.Quiet
import ChanFlow.Proofs.Spelling
import Mathlib.Data.List.Forall2

/-!
Two machines that look the same.

A `Twinning` says which instances and containers of one machine are which of another. Machines are `Twins` if what
they hold corresponds, as far as a `View` lets it be seen: names that are hidden, and blocks that are out of sight,
do not count. The second machine may hold entries for instances that the first one does not have.

Steps `Agree` if they take twins to twins, whenever both of them come to an end.
-/
open List

namespace ChanFlow

open Ssa Protocol

variable {s s' : Slot} {old old' new new' : Instance}

/-- The name of an instance in a protocol where it did not come in under another one. -/
def Instance.ownName : Instance → String
  | value origin .. => origin.value
  | external routine .. => routine
  | const literal => literal.render

theorem Analysis.Activation.channelName_eq (a : Activation) (i : Instance) :
    a.channelName i = (a.names.get? i).getD i.ownName := by
  unfold channelName
  cases a.names.get? i with
  | none => cases i <;> rfl
  | some name => rfl

theorem eq_iff_of_same {c c' d d' : ContainerId} (one : c' = c) (two : d' = d) : c = d ↔ c' = d' := by rw [one, two]

/-- Which instances and containers are which. Constants and what lives as long as the program are themselves. -/
structure Twinning where
  inst : Instance → Instance → Prop
  cell : ContainerId → ContainerId → Prop
  /-- The numbers that activations of a function may still get. -/
  issue : String → Nat → Prop
  /-- The functions that are not the same in both programs. -/
  changed : String → Prop
  /-- The names that functions and globals have. -/
  listed : String → Prop := fun _ => True
  /-- Where numbers are still given, any name will do. -/
  free : ∀ {func number}, issue func number → ∀ name, listed name := by exact fun _ _ => trivial
  unique : ∀ {i i' j j'}, inst i i' → inst j j' → (i = j ↔ i' = j')
  const : ∀ literal, inst (.const literal) (.const literal)
  program : ∀ name ty, listed name → inst (.ofProgram name ty) (.ofProgram name ty)
  ty : ∀ {i i'}, inst i i' → i'.ty? = i.ty?
  level : ∀ {i i'}, inst i i' → i'.isProgramLevel = i.isProgramLevel
  name : ∀ {i i'}, inst i i' → i'.ownName = i.ownName
  cells : ∀ {c c' d d'}, cell c c' → cell d d' → (c = d ↔ c' = d')

variable {T : Twinning}

/-! ### Tables -/

/-- The same entries in the same order, with others in between in the second list. -/
inductive Entwined (T : Twinning) {β : Type} (V : β → β → Prop) (spare : β → Prop) :
    List (Instance × β) → List (Instance × β) → Prop
  | nil : Entwined T V spare [] []
  | both {k k' : Instance} {v v' : β} {es es' : List (Instance × β)} (key : T.inst k k') (value : V v v')
    (rest : Entwined T V spare es es') : Entwined T V spare ((k, v) :: es) ((k', v') :: es')
  | extra {k' : Instance} {v' : β} {es es' : List (Instance × β)} (other : ∀ k, ¬ T.inst k k') (value : spare v')
    (rest : Entwined T V spare es es') : Entwined T V spare es ((k', v') :: es')

namespace Entwined

variable {β : Type} {V : β → β → Prop} {spare : β → Prop} {es es' : List (Instance × β)} {k k' : Instance}

theorem find (twined : Entwined T V spare es es') (key : T.inst k k') :
    Option.Rel V (Table.find k es) (Table.find k' es') := by
  induction twined with
  | nil => exact .none
  | @both j j' _ _ _ _ here value _ ih =>
    rw [Table.find, Table.find]
    by_cases same : j = k
    · rw [if_pos same, if_pos ((T.unique here key).1 same)]
      exact .some value
    · rw [if_neg same, if_neg (mt (T.unique here key).2 same)]
      exact ih
  | @extra j' _ _ _ other _ _ ih =>
    have differs : j' ≠ k' := fun same => other k (same ▸ key)
    show Option.Rel V _ (if j' = k' then _ else _)
    rw [if_neg differs]
    exact ih

theorem put (twined : Entwined T V spare es es') (key : T.inst k k') {v v' : β} (value : V v v') :
    Entwined T V spare (Table.put k v es) (Table.put k' v' es') := by
  induction twined with
  | nil => exact .both key value .nil
  | @both j j' _ _ _ _ here held rest ih =>
    rw [Table.put, Table.put]
    by_cases same : j = k
    · rw [if_pos same, if_pos ((T.unique here key).1 same)]
      exact .both key value rest
    · rw [if_neg same, if_neg (mt (T.unique here key).2 same)]
      exact .both here held ih
  | @extra j' _ _ _ other held _ ih =>
    have differs : j' ≠ k' := fun same => other k (same ▸ key)
    show Entwined T V spare _ (if j' = k' then _ else _)
    rw [if_neg differs]
    exact .extra other held ih

theorem get? {t t' : Table Instance β} (twined : Entwined T V spare t.entries t'.entries) (key : T.inst k k') :
    Option.Rel V (t.get? k) (t'.get? k') := twined.find key

theorem insert {t t' : Table Instance β} (twined : Entwined T V spare t.entries t'.entries) (key : T.inst k k')
    {v v' : β} (value : V v v') : Entwined T V spare (t.insert k v).entries (t'.insert k' v').entries :=
  twined.put key value

end Entwined

/-- Scopes in which further instances have containers of their own. -/
abbrev ScopeTwins (T : Twinning) (s s' : Scope) : Prop :=
  Entwined T T.cell (fun id' => ∀ id, ¬ T.cell id id') s.entries s'.entries

theorem ScopeTwins.mem_values {s s' : Scope} (twins : ScopeTwins T s s') {id id' : ContainerId}
    (cell : T.cell id id') : id ∈ s.values ↔ id' ∈ s'.values := by
  unfold ScopeTwins at twins
  rw [Table.values, Table.values]
  generalize s.entries = es, s'.entries = es' at twins
  induction twins with
  | nil => simp
  | both _ value _ ih => rw [map_cons, map_cons, mem_cons, mem_cons, T.cells cell value, ih]
  | extra _ value _ ih =>
    rw [map_cons, mem_cons, ih, or_iff_right]
    rintro rfl
    exact value id cell

/-! ### Storage -/

inductive SlotTwins (T : Twinning) : Slot → Slot → Prop
  | index {i i' : Instance} (inst : T.inst i i') : SlotTwins T (.index i) (.index i')
  | field (n : Nat) : SlotTwins T (.field n) (.field n)
  | key {k k' : Instance} (inst : T.inst k k') : SlotTwins T (.key k) (.key k')

theorem SlotTwins.kind (twins : SlotTwins T s s') : s'.kind = s.kind := by cases twins <;> rfl

/-- Tables of instances by instance. -/
abbrev EntriesTwins (T : Twinning) (t t' : Table Instance Instance) : Prop :=
  Entwined T T.inst (fun _ => True) t.entries t'.entries

abbrev SlotsTwins (T : Twinning) : List (Option Instance) → List (Option Instance) → Prop :=
  List.Forall₂ (Option.Rel T.inst)

inductive ContainerTwins (T : Twinning) : Container → Container → Prop
  | elems (length : Option Nat) {t t' : Table Instance Instance} (entries : EntriesTwins T t t') :
    ContainerTwins T (.elems length t) (.elems length t')
  | fields {ss ss' : List (Option Instance)} (slots : SlotsTwins T ss ss') : ContainerTwins T (.fields ss) (.fields ss')
  | map {t t' : Table Instance Instance} (entries : EntriesTwins T t t') : ContainerTwins T (.map t) (.map t')

theorem slotsTwins_replicate (n : Nat) : SlotsTwins T (List.replicate n none) (List.replicate n none) := by
  induction n with
  | zero => exact .nil
  | succ n ih => exact .cons .none ih

section Slots

variable {ss ss' : List (Option Instance)}

section

variable (twins : SlotsTwins T ss ss')
include twins

theorem SlotsTwins.getElem? (n : Nat) :
    Option.Rel (Option.Rel T.inst) ss[n]? ss'[n]? := by
  induction twins generalizing n with
  | nil => exact .none
  | cons here _ ih =>
    cases n with
    | zero => exact .some here
    | succ n => exact ih n

theorem SlotsTwins.part (n : Nat) : Option.Rel T.inst ss[n]?.join ss'[n]?.join := by
  have here := twins.getElem? n
  generalize ss[n]? = slot, ss'[n]? = slot' at here
  cases here with
  | none => exact .none
  | some inner => exact inner

theorem SlotsTwins.set (n : Nat) {i i' : Instance} (inst : T.inst i i') :
    SlotsTwins T (ss.set n (some i)) (ss'.set n (some i')) := by
  induction twins generalizing n with
  | nil => exact .nil
  | cons here rest ih =>
    cases n with
    | zero => exact .cons (.some inst) rest
    | succ n => exact .cons here (ih n)

theorem SlotsTwins.substitute (before : T.inst old old') (after : T.inst new new') :
    SlotsTwins T (ss.map fun s => if s = some old then some new else s)
      (ss'.map fun s => if s = some old' then some new' else s) := by
  induction twins with
  | nil => exact .nil
  | @cons s s' _ _ here _ ih =>
    refine .cons ?_ ih
    cases here with
    | none => exact .none
    | @some i i' inst =>
      show Option.Rel T.inst (if some i = some old then some new else some i)
        (if some i' = some old' then some new' else some i')
      by_cases same : i = old
      · rw [if_pos (congrArg some same), if_pos (congrArg some ((T.unique inst before).1 same))]
        exact .some after
      · rw [if_neg (mt Option.some.inj same), if_neg (mt Option.some.inj (mt (T.unique inst before).2 same))]
        exact .some inst

end

end Slots

namespace ContainerTwins

variable {c c' : Container}

theorem ofShape? (shape : Shape) :
    Option.Rel (ContainerTwins T) (Container.ofShape? shape) (Container.ofShape? shape) := by
  cases shape with
  | array n => exact .some (.elems _ .nil)
  | slice => exact .some (.elems _ .nil)
  | struct n => exact .some (.fields (slotsTwins_replicate n))
  | map => exact .some (.map .nil)
  | scalar => exact .none

theorem get? (twins : ContainerTwins T c c') (slot : SlotTwins T s s') :
    Option.Rel (Option.Rel T.inst) (c.get? s) (c'.get? s') := by
  cases twins with
  | elems length entries =>
    cases slot with
    | index inst => exact .some (entries.get? inst)
    | field n => exact .none
    | key inst => exact .none
  | fields slots =>
    cases slot with
    | index inst => exact .none
    | field n => exact slots.getElem? n
    | key inst => exact .none
  | map entries =>
    cases slot with
    | index inst => exact .none
    | field n => exact .none
    | key inst => exact .some (entries.get? inst)

theorem set? (twins : ContainerTwins T c c') (slot : SlotTwins T s s') {v v' : Instance}
    (value : T.inst v v') : Option.Rel (ContainerTwins T) (c.set? s v) (c'.set? s' v') := by
  cases twins with
  | elems length entries =>
    cases slot with
    | index inst => exact .some (.elems length (entries.insert inst value))
    | field n => exact .none
    | key inst => exact .none
  | @fields ss ss' slots =>
    cases slot with
    | index inst => exact .none
    | field n =>
      rw [Container.set?, Container.set?, slots.length_eq]
      split
      · exact .some (.fields (slots.set n value))
      · exact .none
    | key inst => exact .none
  | map entries =>
    cases slot with
    | index inst => exact .none
    | field n => exact .none
    | key inst => exact .some (.map (entries.insert inst value))

theorem substituteEntries {t t' : Table Instance Instance} (twins : EntriesTwins T t t')
    (before : T.inst old old') (after : T.inst new new') :
    EntriesTwins T (Container.substituteEntries old new t) (Container.substituteEntries old' new' t') := by
  unfold EntriesTwins Container.substituteEntries at *
  generalize t.entries = es, t'.entries = es' at twins ⊢
  induction twins with
  | nil => exact .nil
  | @both _ _ v v' _ _ key value _ ih =>
    refine .both key ?_ ih
    by_cases same : v = old
    · rw [if_pos same, if_pos ((T.unique value before).1 same)]
      exact after
    · rw [if_neg same, if_neg (mt (T.unique value before).2 same)]
      exact value
  | extra other _ _ ih => exact .extra other trivial ih

theorem substitute (twins : ContainerTwins T c c') (before : T.inst old old')
    (after : T.inst new new') : ContainerTwins T (c.substitute old new) (c'.substitute old' new') := by
  cases twins with
  | elems length entries => exact .elems length (substituteEntries entries before after)
  | fields slots => exact .fields (slots.substitute before after)
  | map entries => exact .map (substituteEntries entries before after)

end ContainerTwins

section Arena

variable {a : Arena} {c : Container} {id : ContainerId}

theorem get?_append_self : (Arena.mk (a.containers ++ [c])).get? a.containers.length = some c := by
  simp [Arena.get?]

theorem get?_append_of_ne (other : id ≠ a.containers.length) :
    (Arena.mk (a.containers ++ [c])).get? id = a.get? id := by
  rw [Arena.get?, Arena.get?]
  rcases Nat.lt_or_gt_of_ne other with old | beyond
  · rw [getElem?_append_left old]
  · have length : (a.containers ++ [c]).length ≤ id := by
      rw [length_append, length_singleton]
      exact beyond
    rw [getElem?_eq_none length, getElem?_eq_none (Nat.le_of_lt beyond)]

theorem get?_set (held : (a.get? id).isSome) (other : ContainerId) :
    (Arena.mk (a.containers.set id c)).get? other = if id = other then some c else a.get? other := by
  have inside : id < a.containers.length := by
    obtain ⟨c, found⟩ := Option.isSome_iff_exists.1 held
    exact (List.getElem?_eq_some_iff.1 found).1
  rw [Arena.get?, Arena.get?, getElem?_set, if_pos inside]

end Arena

structure ArenaTwins (T : Twinning) (a a' : Arena) : Prop where
  get? : ∀ {id id'}, T.cell id id' → Option.Rel (ContainerTwins T) (a.get? id) (a'.get? id')
  /-- The containers to come. -/
  room : ∀ n, T.cell (a.containers.length + n) (a'.containers.length + n)

namespace ArenaTwins

variable {a a' : Arena}

theorem alloc (twins : ArenaTwins T a a') (shape : Shape) :
    Option.Rel (fun r r' => T.cell r.1 r'.1 ∧ ArenaTwins T r.2 r'.2) (a.alloc shape) (a'.alloc shape) := by
  unfold Arena.alloc
  cases made : Container.ofShape? shape with
  | none => exact .none
  | some c =>
    have next : T.cell a.containers.length a'.containers.length := twins.room 0
    refine .some ⟨next, fun {id id'} cell => ?_, fun n => ?_⟩
    · have here := T.cells cell next
      by_cases new : id = a.containers.length
      · rw [new, here.1 new, get?_append_self, get?_append_self]
        exact made ▸ ContainerTwins.ofShape? shape
      · rw [get?_append_of_ne new, get?_append_of_ne (mt here.2 new)]
        exact twins.get? cell
    · have later := twins.room (1 + n)
      simpa [Nat.add_assoc] using later

section

variable {id id' : ContainerId} {s s' : Slot} {owner owner' : Instance}

theorem read (twins : ArenaTwins T a a') (cell : T.cell id id') (slot : SlotTwins T s s')
    {held held' : Option Instance} (read : a.read id s owner = .ok held) (read' : a'.read id' s' owner' = .ok held') :
    Option.Rel T.inst held held' := by
  unfold Arena.read at read read'
  have here := twins.get? cell
  generalize a.get? id = c, a'.get? id' = c' at here read read'
  cases here with
  | none => exact nomatch read
  | @some c c' here =>
    have contents := here.get? slot
    simp only [Option.bind_some] at read read'
    generalize c.get? s = x, c'.get? s' = x' at contents read read'
    cases contents with
    | none => exact nomatch read
    | some contents =>
      obtain rfl := Except.ok.inj read
      obtain rfl := Except.ok.inj read'
      exact contents

theorem set (twins : ArenaTwins T a a') (cell : T.cell id id') (held : (a.get? id).isSome)
    (held' : (a'.get? id').isSome) {c c' : Container} (made : ContainerTwins T c c') :
    ArenaTwins T ⟨a.containers.set id c⟩ ⟨a'.containers.set id' c'⟩ := by
  refine ⟨fun {j j'} here => ?_, fun n => ?_⟩
  · have same := T.cells cell here
    rw [get?_set held, get?_set held']
    by_cases eq : id = j
    · rw [if_pos eq, if_pos (same.1 eq)]
      exact .some made
    · rw [if_neg eq, if_neg (mt same.2 eq)]
      exact twins.get? here
  · simpa using twins.room n

theorem write (twins : ArenaTwins T a a') (cell : T.cell id id') (slot : SlotTwins T s s') {v v' : Instance}
    (value : T.inst v v') {before before' : Option Instance} {b b' : Arena}
    (write : a.write id s v owner = .ok (before, b)) (write' : a'.write id' s' v' owner' = .ok (before', b')) :
    Option.Rel T.inst before before' ∧ ArenaTwins T b b' := by
  unfold Arena.write at write write'
  have here := twins.get? cell
  have set := twins.set cell
  generalize a.get? id = c, a'.get? id' = c' at here write write' set
  cases here with
  | none => exact nomatch write
  | @some c c' here =>
    have contents := here.get? slot
    have changed := here.set? slot value
    simp only at write write'
    generalize c.get? s = x, c'.get? s' = x' at contents write write'
    generalize c.set? s v = y, c'.set? s' v' = y' at changed write write'
    cases contents with
    | none => exact nomatch write
    | some contents =>
      cases changed with
      | none => exact nomatch write
      | some changed =>
        obtain ⟨rfl, rfl⟩ := Prod.mk.inj (Except.ok.inj write)
        obtain ⟨rfl, rfl⟩ := Prod.mk.inj (Except.ok.inj write')
        exact ⟨contents, set rfl rfl changed⟩

end

theorem replaceAll (twins : ArenaTwins T a a') {ids ids' : List ContainerId}
    (same : ∀ {id id'}, T.cell id id' → (id ∈ ids ↔ id' ∈ ids')) (before : T.inst old old')
    (after : T.inst new new') :
    ArenaTwins T (a.replaceAll ids old new).2 (a'.replaceAll ids' old' new').2 := by
  refine ⟨fun {id id'} cell => ?_, fun n => ?_⟩
  · have here := twins.get? cell
    simp only [Arena.replaceAll, Arena.get?, getElem?_mapIdx] at here ⊢
    generalize a.containers[id]? = c, a'.containers[id']? = c' at here
    cases here with
    | none => exact .none
    | some here =>
      refine .some ?_
      simp only [contains_iff_mem]
      by_cases member : id ∈ ids
      · rw [if_pos member, if_pos ((same cell).1 member)]
        exact here.substitute before after
      · rw [if_neg member, if_neg (mt (same cell).2 member)]
        exact here
  · simpa [Arena.replaceAll] using twins.room n

end ArenaTwins

namespace Ssa

def Callee.operands : Callee → List Operand
  | .value x | .invoke x _ => [x]
  | .static _ | .builtin _ => []

def Call.operands (c : Call) : List Operand := c.callee.operands ++ c.args

/-- All operands of an instruction. -/
def Action.operands : Action → List Operand
  | .define _ _ (.call c) | .perform (.go c) | .perform (.defer c) | .perform (.call c) => c.operands
  | .define _ _ op => op.operands
  | .perform effect => effect.operands

end Ssa

/-- The parameters for a continuation as far as they come from the lists that are set aside. -/
def Protocol.Routine.openedParams (r : Routine) : List Parameter :=
  (r.waiting.reverse.flatMap created).foldl (fun ps name => addParam ps (.same name))
    (r.params.map fun p => .same p.callee)

theorem Protocol.Routine.continuationParams_eq (r : Routine) :
    r.continuationParams = (created r.stmts).foldl (fun ps name => addParam ps (.same name)) r.openedParams := by
  rw [continuationParams, flatMap_append, foldl_append, flatMap_singleton, openedParams]

theorem Protocol.Routine.openedParams_setAside (r : Routine) : r.setAside.openedParams = r.continuationParams := by
  rw [openedParams, continuationParams, setAside, reverse_cons]

namespace Analysis

/-! ### Machines -/

/-- What is looked at of an activation. -/
structure View where
  hidden : String → Prop
  /-- The functions that may be named. -/
  listed : String → Prop := fun _ => True
  blocks : Nat → Prop
  /-- Whether the values that it returns are looked at. -/
  returns : Prop
  /-- Whether there are merge points among the blocks. -/
  joins : Prop
  /-- The labels and visits of the blocks that are out of sight. -/
  labels : BlockVisit → Option String
  visited : BlockVisit → Prop

/-- Everything is looked at. -/
def View.whole : View where
  hidden _ := False
  blocks _ := True
  returns := True
  joins := True
  labels _ := none
  visited _ := False

structure View.Shows (view : View) (x : Operand) : Prop where
  var : ∀ name, x = .var name → ¬ view.hidden name
  func : ∀ name, x = .func name → view.listed name

theorem View.shows_whole (x : Operand) : View.whole.Shows x := ⟨fun _ _ => id, fun _ _ => trivial⟩

structure View.ShowsAction (view : View) (action : Action) : Prop where
  operands : ∀ x ∈ action.operands, view.Shows x
  closure : ∀ name ty func xs, action = .define name ty (.makeClosure func xs) → view.listed func
  defined : ∀ name ty op, action = .define name ty op → ¬ view.hidden name

theorem View.ShowsAction.whole (action : Action) : View.whole.ShowsAction action :=
  ⟨fun x _ => shows_whole x, fun _ _ _ _ _ => trivial, fun _ _ _ _ => id⟩

/-- The part of a function that is in view is the same, and leads nowhere else. -/
structure FunctionTwins (view : View) (f f' : Function) : Prop where
  signature : f'.toSignature = f.toSignature
  definition : ∀ value, ¬ view.hidden value → f'.definition? value = f.definition? value
  tested : ∀ value i x y, ¬ view.hidden value → f.definition? value = some i → i.op? = some (.binary .eq x y) →
    view.Shows x ∧ view.Shows y
  block : ∀ b, view.blocks b → f'.block? b = f.block? b
  straight : ¬ view.joins → ∀ b block, view.blocks b → f.block? b = some block → block.isMergePoint = false
  index : ∀ b block, view.blocks b → f.block? b = some block → view.blocks block.index
  shown : ∀ b block i, view.blocks b → f.block? b = some block → i ∈ block.instrs → view.ShowsAction i.action
  leaves : ∀ b block i, view.blocks b → f.block? b = some block → i ∈ block.instrs →
    ∀ next ∈ i.successors, view.blocks next

/-- The same routine, and continuations of it get the same parameters. -/
structure RoutineTwins (view : View) (r r' : Routine) : Prop where
  name : r'.name = r.name
  params : r'.params = r.params
  stmts : r'.stmts = r.stmts
  opened : view.joins → r'.openedParams = r.openedParams

structure SelectTwins (T : Twinning) (s s' : OpenSelect) : Prop where
  index : Option.Rel T.inst s.index s'.index
  slot : s'.slot = s.slot
  routine : s'.routine = s.routine
  cases : s'.cases = s.cases
  blocking : s'.blocking = s.blocking

/-- A select that no instance of the first machine is the index of. -/
def SpareSelect (T : Twinning) (s : OpenSelect) : Prop := ∀ i i', s.index = some i' → ¬ T.inst i i'

structure ActivationTwins (T : Twinning) (view : View) (a a' : Activation) : Prop where
  func : FunctionTwins view a.func a'.func
  own : ∀ value index ty, ¬ view.hidden value →
    T.inst (.value ⟨some a.func.name, value⟩ a.seq index ty) (.value ⟨some a'.func.name, value⟩ a'.seq index ty)
  callers : a'.callers = a.callers
  entered : ∀ name, T.changed name → a.reenters name
  listed : ∀ name, view.listed name → T.listed name
  routine : RoutineTwins view a.routine a'.routine
  locals : ∀ value, ¬ view.hidden value → Option.Rel T.inst (a.resolve? value) (a'.resolve? value)
  names : Entwined T Eq (fun _ => True) a.names.entries a'.names.entries
  storage : ScopeTwins T a.storage a'.storage
  defers : a'.defers = a.defers
  deferred : ∀ c ∈ a.defers, ∀ x ∈ c.operands, view.Shows x
  returned : view.returns → SlotsTwins T a.returned a'.returned
  selects : Entwined T (SelectTwins T) (SpareSelect T) a.selects.entries a'.selects.entries
  tuples : Entwined T (SlotsTwins T) (fun _ => True) a.tuples.entries a'.tuples.entries
  addresses : ∀ value, ¬ view.hidden value →
    Option.Rel (fun s s' => T.cell s.1 s'.1 ∧ SlotTwins T s.2 s'.2) (a.addresses.get? value) (a'.addresses.get? value)
  loops : a'.loops = a.loops
  labels : ∀ b signature, view.blocks b → a'.labels.get? (b, signature) = a.labels.get? (b, signature)
  visited : ∀ b signature, view.blocks b → ((b, signature) ∈ a'.visited ↔ (b, signature) ∈ a.visited)
  unlabelled : ∀ b signature, ¬ view.blocks b → a.labels.get? (b, signature) = view.labels (b, signature)
  unvisited : ∀ b signature, ¬ view.blocks b → ((b, signature) ∈ a.visited ↔ view.visited (b, signature))

structure CallableTwins (T : Twinning) (v v' : FunctionValue) : Prop where
  func : v'.func = v.func
  listed : T.listed v.func
  captures : List.Forall₂ T.inst v.captures v'.captures

structure ContextTwins (T : Twinning) (c c' : Context) : Prop where
  /-- The activations to come. -/
  numbered : ∀ func n value index ty, T.issue func (c.count func + n) →
    T.inst (.value ⟨some func, value⟩ (c.count func + n) index ty)
      (.value ⟨some func, value⟩ (c'.count func + n) index ty)
  foreign : ∀ func n ty, T.issue func (c.count func + n) →
    T.inst (.external func ty (c.count func + n)) (.external func ty (c'.count func + n))
  globals : ∀ name, Option.Rel T.inst (c.globals.get? name) (c'.globals.get? name)
  heap : ScopeTwins T c.heap c'.heap
  arena : ArenaTwins T c.arena c'.arena
  callables : Entwined T (CallableTwins T) (fun _ => True) c.callables.entries c'.callables.entries

structure Twins (T : Twinning) (view : View) (m m' : Machine) : Prop where
  context : ContextTwins T m.context m'.context
  act : ActivationTwins T view m.act m'.act

end Analysis

end ChanFlow
