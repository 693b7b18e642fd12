import ChanFlow.Analysis.Values

/-!
Composite values: allocation, fields, elements and map entries, and stores through addresses.
-/
namespace ChanFlow.Analysis

open Ssa

def isString (types : TypeTable) (i : Instance) : Bool := (i.ty?.map types.isString).getD false

/-- A new container for a shape, if the shape has one. -/
def allocate (shape : Shape) : Run (Option ContainerId) := do
  match (← context).arena.alloc shape with
  | some (id, arena) =>
    modifyContext fun c => { c with arena }
    return some id
  | none => return none

def addToHeap (i : Instance) (id : ContainerId) : Run Unit :=
  modifyContext fun c => { c with heap := c.heap.insert i id }

def addToScope (i : Instance) (id : ContainerId) : Run Unit :=
  modifyActivation fun a => { a with storage := a.storage.insert i id }

def readSlot (id : ContainerId) (slot : Slot) (owner : Instance) : Run (Option Instance) := do
  match (← context).arena.read id slot owner with
  | .ok contents => return contents
  | .error e => failWith (.notComposite e)

/-- Writes a slot, and gives what it held before. -/
def writeSlot (id : ContainerId) (slot : Slot) (v owner : Instance) : Run (Option Instance) := do
  let arena := (← context).arena
  emit? ((arena.get? id).map fun c => .slotWritten owner c.kind)
  match arena.write id slot v owner with
  | .ok (before, arena) =>
    modifyContext fun c => { c with arena }
    return before
  | .error e => failWith (.notComposite e)

/-- The container of an instance. One that came from elsewhere, as a parameter or the result of a foreign
function, gets its container when it is first needed. -/
def demandContainer (types : TypeTable) (owner : Instance) (expected : SlotKind) : Run ContainerId := do
  match ← containerOf? owner with
  | some id => return id
  | none =>
    let refuse : Run ContainerId := failWith (.notComposite ⟨owner, expected⟩)
    match owner.ty? with
    | none => refuse
    | some ty =>
      match ← allocate (types.shapeBehind ty) with
      | none => refuse
      | some id =>
        emit (.storageMade owner)
        if owner.isProgramLevel then addToHeap owner id else addToScope owner id
        return id

/-- The type of what a slot of `owner` holds; `ty` if that is not known. -/
def slotType (types : TypeTable) (owner : Instance) (field : Option Nat) (ty : Ty) : Run Ty := do
  match owner.ty? with
  | none => return ty
  | some ownerTy =>
    match types.element ownerTy field with
    | some elem => return elem.getD ty
    | none => throw (.endless ownerTy)

/-- Reads a slot. An empty one is filled with a new instance, so that it reads the same from then on. -/
def contentsOf (types : TypeTable) (id : ContainerId) (slot : Slot) (owner : Instance)
    (value : String) (ty : Ty) (field : Option Nat) : Run Instance := do
  match ← readSlot id slot owner with
  | some v => return v
  | none =>
    let v ← fresh value (← slotType types owner field ty)
    let _ ← writeSlot id slot v owner
    return v

def alloc (types : TypeTable) (value : String) (ty : Ty) (scope : AllocScope) : Run Unit := do
  let i ← fresh value ty
  match ← allocate (types.shapeBehind ty) with
  | some id =>
    match scope with
    | .heap => addToHeap i id
    | .frame => addToScope i id
  | none => pure ()
  bindValue value i

/-- A new, empty map or slice. -/
def makeContainer (types : TypeTable) (value : String) (ty : Ty) : Run Unit := do
  let i ← fresh value ty
  match ← allocate (types.shape ty) with
  | some id => addToScope i id
  | none => pure ()
  bindValue value i

def noteAddress (value : String) (id : ContainerId) (slot : Slot) : Run Unit :=
  modifyActivation fun a => { a with addresses := a.addresses.insert value (id, slot) }

/-- Binds a value to the contents of a slot, and if its address was taken notes the slot. -/
def bindSlot (types : TypeTable) (value : String) (ty : Ty) (owner : Instance) (slot : Slot)
    (field : Option Nat) (address : Bool) : Run Unit := do
  let id ← demandContainer types owner slot.kind
  let v ← contentsOf types id slot owner value ty field
  if address then noteAddress value id slot
  bindValue value v

def field (types : TypeTable) (value : String) (ty : Ty) (x : Operand) (i : Nat) (address : Bool) :
    Run Unit := do
  let owner ← instanceOf x
  bindSlot types value ty owner (.field i) (some i) address

def index (types : TypeTable) (value : String) (ty : Ty) (x i : Operand) (address : Bool) :
    Run Unit := do
  let owner ← instanceOf x
  if isString types owner then bindFresh value ty
  else
    let i ← instanceOf i
    bindSlot types value ty owner (.index i) none address

def lookup (types : TypeTable) (value : String) (ty : Ty) (map key : Operand) (commaOk : Bool) :
    Run Unit := do
  let owner ← instanceOf map
  if isString types owner then bindFresh value ty
  else
    let key ← instanceOf key
    let id ← demandContainer types owner .map
    let v ← contentsOf types id (.key key) owner value ty none
    if commaOk then bindWithFlag value ty (some v) else bindValue value v

def mapUpdate (types : TypeTable) (map key value : Operand) : Run Unit := do
  let owner ← instanceOf map
  let key ← instanceOf key
  let v ← instanceOf value
  let id ← demandContainer types owner .map
  let _ ← writeSlot id (.key key) v owner

/-- Lets `i` have the container of `owner`, in the scope that has it. -/
def shareContainer (owner i : Instance) : Run Unit := do
  match (← activation).storage.get? owner, (← context).heap.get? owner with
  | some id, _ => addToScope i id
  | none, some id => addToHeap i id
  | none, none => pure ()

/-- A slice is a new value over the same elements. -/
def slice (types : TypeTable) (value : String) (ty : Ty) (x : Operand) : Run Unit := do
  let owner ← instanceOf x
  let i ← fresh value ty
  if !isString types owner then shareContainer owner i
  bindValue value i

def typeAssert (value : String) (ty : Ty) (x : Operand) (commaOk : Bool) : Run Unit := do
  let v ← instanceOf x
  if commaOk then bindWithFlag value ty (some v) else bindValue value v

/-- The slot an operand is the address of. -/
def addressOf? (x : Operand) : Run (Option (ContainerId × Slot)) := do
  return x.var?.bind (← activation).addresses.get?

/-- Any operand that is not the address of a slot stands for the value it currently holds. -/
def deref (types : TypeTable) (value : String) (ty : Ty) (x : Operand) : Run Unit := do
  match ← addressOf? x with
  | some (id, slot) =>
    let pointer ← instanceOf x
    bindValue value (← contentsOf types id slot pointer value ty none)
  | none => bindOperand value x

/-- Replaces `old` by `new` in all storage that can be reached from here. -/
def replaceAliases (old new : Instance) : Run Unit := do
  let c ← context
  let (changed, arena) :=
    c.arena.replaceAll ((← activation).storage.values ++ c.heap.values) old new
  modifyContext fun c => { c with arena }
  if 0 < changed then emit (.aliasesReplaced old new changed)

/-- A composite value that is overwritten is replaced wherever it is held. -/
def replaceComposite (old : Option Instance) (shape : Option Shape) (v : Instance) : Run Unit := do
  match old, shape with
  | some old, some shape => if shape.isComposite && old != v then replaceAliases old v
  | _, _ => pure ()

/-- Storage reachable from a global outlives the activation. -/
def storeGlobal (program : Program) (name : String) (v : Instance) : Run Unit := do
  match (← activation).storage.get? v with
  | some id => addToHeap v id
  | none => pure ()
  let old := (← context).globals.get? name
  modifyContext fun c => { c with globals := c.globals.insert name v }
  replaceComposite old ((program.global? name).map fun g => program.types.shape g.ty) v

def storeLocal (types : TypeTable) (name : String) (v : Instance) : Run Unit := do
  let a ← activation
  let old ← match a.addresses.get? name with
    | some (id, slot) => do
      let pointer ← instanceOf (.var name)
      writeSlot id slot v pointer
    | none => pure (a.resolve? name)
  bindValue name v
  replaceComposite old ((a.func.valueType? name).map types.shapeBehind) v

def store (program : Program) (addr value : Operand) : Run Unit := do
  let v ← instanceOf value
  match addr with
  | .global name => storeGlobal program name v
  | .var name => storeLocal program.types name v
  | other => emit (.strayStore (← activation).func.name other)

def makeClosure (value : String) (ty : Ty) (func : String) (bindings : List Operand) : Run Unit := do
  let captures ← bindings.mapM instanceOf
  let i ← fresh value ty
  emit (.closureMade i func captures.length)
  modifyContext fun c => { c with callables := c.callables.insert i ⟨func, captures⟩ }
  bindValue value i

end ChanFlow.Analysis
