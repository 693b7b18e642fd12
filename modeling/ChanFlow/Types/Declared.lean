import ChanFlow.Table
import ChanFlow.Types.Basic

/-!
The declared types of a program and the questions asked of them: what a name stands for, how a value of
a type is laid out, what type its parts have, and which function implements a method.
-/
namespace ChanFlow

/-- How values of a type are stored: by index, by field, by key, or not in parts at all. -/
inductive Shape where
  | array (length : Nat)
  | slice
  | struct (fields : Nat)
  | map
  | scalar
deriving DecidableEq, Repr

def Shape.isComposite : Shape → Bool
  | scalar => false
  | _ => true

/-- What a type name stands for, and the functions implementing its methods. -/
structure TypeDecl where
  underlying : Ty
  methods : Dict String

structure TypeTable where
  decls : Dict TypeDecl := .empty

namespace TypeTable

/-- Follows at most `n` names. A name without a declaration stands for itself. -/
def follow (t : TypeTable) : Nat → Ty → Ty
  | n + 1, .named name =>
    match t.decls.get? name with
    | some decl => t.follow n decl.underlying
    | none => .named name
  | _, ty => ty

/-- The type a name finally stands for. Declarations may go round in a circle, so no more names are
followed than there are declarations, and one more. -/
def underlying (t : TypeTable) (ty : Ty) : Ty := t.follow (t.decls.size + 1) ty

/-- The type behind a pointer; any other type is its own. -/
def deref (t : TypeTable) (ty : Ty) : Ty :=
  match t.underlying ty with
  | .pointer elem => elem
  | _ => ty

def shape (t : TypeTable) (ty : Ty) : Shape :=
  match t.underlying ty with
  | .array length _ => .array length
  | .slice _ => .slice
  | .struct fields => .struct fields.length
  | .map _ _ => .map
  | _ => .scalar

/-- The shape of what a pointer points to, or of the value itself. -/
def shapeBehind (t : TypeTable) (ty : Ty) : Shape := t.shape (t.deref ty)

def isChan (t : TypeTable) (ty : Ty) : Bool :=
  match t.underlying ty with
  | .chan _ => true
  | _ => false

/-- A channel or a pointer to one. -/
def carriesChan (t : TypeTable) (ty : Ty) : Bool := t.isChan ty || t.isChan (t.deref ty)

def isInterface (t : TypeTable) (ty : Ty) : Bool :=
  match t.underlying ty with
  | .interface _ => true
  | _ => false

def isString (t : TypeTable) (ty : Ty) : Bool :=
  match t.underlying ty with
  | .basic name => name = "string"
  | _ => false

/-- The type of a field, element or map value, looking through at most `n` pointers. The outer option
is empty when there are more pointers than that. -/
def elementWithin (t : TypeTable) (field : Option Nat) : Nat → Ty → Option (Option Ty)
  | 0, _ => none
  | n + 1, ty =>
    match t.underlying ty with
    | .struct fields => some (field.bind (fields[·]?))
    | .array _ elem => some (some elem)
    | .slice elem => some (some elem)
    | .map _ value => some (some value)
    | .pointer elem => t.elementWithin field n elem
    | _ => some none

/-- The pointers that stand in front of a type and of the declared types. Looking through more of them
than that comes to the same pointer twice. -/
def pointerBound (t : TypeTable) (ty : Ty) : Nat :=
  ty.leadingPointers + t.decls.entries.foldr (fun e count => e.2.underlying.leadingPointers + count) 0

/-- The type of a field, element or map value. The outer option is empty when looking through pointers
never comes to an end. -/
def element (t : TypeTable) (ty : Ty) (field : Option Nat) : Option (Option Ty) :=
  t.elementWithin field (t.pointerBound ty + 1) ty

/-- The function implementing a method of a named type or of a pointer to one. -/
def method (t : TypeTable) (ty : Ty) (name : String) : Option String :=
  match ty with
  | .pointer elem => t.method elem name
  | .named typeName => do
    let decl ← t.decls.get? typeName
    decl.methods.get? name
  | _ => none

/-- Whether a type has every method an interface asks for. Any other type asks for none. -/
def satisfies (t : TypeTable) (concrete target : Ty) : Bool :=
  match t.underlying target with
  | .interface methods => methods.all fun m => (t.method concrete m).isSome
  | _ => true

end TypeTable

end ChanFlow
