import ChanFlow.Types.Declared
import ChanFlow.Storage.Instance

/-!
Storage of composite values. Containers live in one arena and are known by their position in it; a scope
says which container an instance has. Instances with the same container share their contents.
-/
namespace ChanFlow

/-- The ways a part of a container is addressed. -/
inductive SlotKind where
  | element | field | map
  /-- Any of them. -/
  | any
deriving DecidableEq, Repr

def SlotKind.render : SlotKind → String
  | element => "element"
  | field => "field"
  | map => "map"
  | any => "any"

inductive Slot where
  | index (i : Instance)
  | field (i : Nat)
  | key (k : Instance)
deriving DecidableEq, Repr

def Slot.kind : Slot → SlotKind
  | index _ => .element
  | field _ => .field
  | key _ => .map

inductive Container where
  /-- Elements by index; arrays have a length, slices have none. -/
  | elems (length : Option Nat) (entries : Table Instance Instance)
  | fields (slots : List (Option Instance))
  /-- Values by key. Nothing is ever removed, and the last value of a key stays. -/
  | map (entries : Table Instance Instance)
deriving DecidableEq, Repr

/-- Storage of the expected kind was not there. -/
structure StorageError where
  owner : Instance
  expected : SlotKind
deriving DecidableEq, Repr

namespace Container

def ofShape? : Shape → Option Container
  | .array n => some (elems (some n) {})
  | .slice => some (elems none {})
  | .struct n => some (fields (List.replicate n none))
  | .map => some (map {})
  | .scalar => none

def kind : Container → SlotKind
  | elems .. => .element
  | fields _ => .field
  | map _ => .map

/-- The contents of a slot. The outer option is empty where the container has no such slot. -/
def get? : Container → Slot → Option (Option Instance)
  | elems _ entries, .index i => some (entries.get? i)
  | fields slots, .field i => slots[i]?
  | map entries, .key k => some (entries.get? k)
  | _, _ => none

/-- The container after a write, where it has such a slot. -/
def set? : Container → Slot → Instance → Option Container
  | elems length entries, .index i, v => some (elems length (entries.insert i v))
  | fields slots, .field i, v =>
    if i < slots.length then some (fields (slots.set i (some v))) else none
  | map entries, .key k, v => some (map (entries.insert k v))
  | _, _, _ => none

/-- The values held in slots, whatever their address. -/
def values : Container → List Instance
  | elems _ entries => entries.values
  | fields slots => slots.filterMap id
  | map entries => entries.values

def substituteEntries (old new : Instance) (t : Table Instance Instance) : Table Instance Instance :=
  ⟨t.entries.map fun e => (e.1, if e.2 = old then new else e.2)⟩

/-- Every slot that held `old` holds `new`. -/
def substitute (old new : Instance) : Container → Container
  | elems length entries => elems length (substituteEntries old new entries)
  | fields slots => fields (slots.map fun s => if s = some old then some new else s)
  | map entries => map (substituteEntries old new entries)

end Container

/-- A container, by its position in the arena. -/
abbrev ContainerId := Nat

structure Arena where
  containers : List Container := []
deriving DecidableEq, Repr

namespace Arena

/-- A new container for a composite shape; a scalar gets none. -/
def alloc (a : Arena) (shape : Shape) : Option (ContainerId × Arena) :=
  (Container.ofShape? shape).map fun c => (a.containers.length, ⟨a.containers ++ [c]⟩)

def get? (a : Arena) (id : ContainerId) : Option Container := a.containers[id]?

def read (a : Arena) (id : ContainerId) (slot : Slot) (owner : Instance) :
    Except StorageError (Option Instance) :=
  match (a.get? id).bind (·.get? slot) with
  | some contents => .ok contents
  | none => .error ⟨owner, slot.kind⟩

/-- Writes a slot, and gives what it held before. -/
def write (a : Arena) (id : ContainerId) (slot : Slot) (v : Instance) (owner : Instance) :
    Except StorageError (Option Instance × Arena) :=
  match a.get? id with
  | none => .error ⟨owner, .any⟩
  | some c =>
    match c.get? slot, c.set? slot v with
    | some before, some c' => .ok (before, ⟨a.containers.set id c'⟩)
    | _, _ => .error ⟨owner, slot.kind⟩

/-- Replaces `old` by `new` in every slot of the given containers, and counts the slots. -/
def replaceAll (a : Arena) (ids : List ContainerId) (old new : Instance) : Nat × Arena :=
  let chosen := a.containers.zipIdx.filter fun (_, id) => ids.contains id
  (chosen.foldr (fun (c, _) count => c.values.count old + count) 0,
    ⟨a.containers.mapIdx fun id c => if ids.contains id then c.substitute old new else c⟩)

end Arena

/-- The containers of the instances of one scope. -/
abbrev Scope := Table Instance ContainerId

end ChanFlow
