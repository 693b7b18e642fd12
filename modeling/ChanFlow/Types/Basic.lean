/-!
The types a program declares its values with, their equality, and their text.

Apart from names a type is what it is built from; a name stands for a declaration of the program.
-/
namespace ChanFlow

inductive Ty where
  | basic (name : String)
  | chan (elem : Ty)
  | array (length : Nat) (elem : Ty)
  | slice (elem : Ty)
  | map (key value : Ty)
  | pointer (elem : Ty)
  | struct (fields : List Ty)
  | interface (methods : List String)
  | func
  | tuple (elems : List Ty)
  | named (name : String)
deriving Repr, Inhabited

namespace Ty

mutual

def same : Ty → Ty → Bool
  | basic a, basic b => a = b
  | chan a, chan b => same a b
  | array m a, array n b => m = n && same a b
  | slice a, slice b => same a b
  | map k v, map k' v' => same k k' && same v v'
  | pointer a, pointer b => same a b
  | struct as, struct bs => sameAll as bs
  | interface ms, interface ns => ms = ns
  | func, func => true
  | tuple as, tuple bs => sameAll as bs
  | named a, named b => a = b
  | _, _ => false

def sameAll : List Ty → List Ty → Bool
  | [], [] => true
  | a :: as, b :: bs => same a b && sameAll as bs
  | _, _ => false

end

mutual

theorem same_iff : (a b : Ty) → (same a b = true ↔ a = b)
  | basic _, b | interface _, b | named _, b => by cases b <;> simp [same]
  | func, b => by cases b <;> simp [same]
  | chan a, b | slice a, b | pointer a, b => by cases b <;> simp [same, same_iff a]
  | array _ a, b => by cases b <;> simp [same, same_iff a]
  | map k v, b => by cases b <;> simp [same, same_iff k, same_iff v]
  | struct as, b | tuple as, b => by cases b <;> simp [same, sameAll_iff as]

theorem sameAll_iff : (as bs : List Ty) → (sameAll as bs = true ↔ as = bs)
  | [], bs => by cases bs <;> simp [sameAll]
  | a :: as, bs => by cases bs <;> simp [sameAll, same_iff a, sameAll_iff as]

end

instance : DecidableEq Ty := fun a b => decidable_of_iff (same a b = true) (same_iff a b)

/-- The number of parts of a tuple type. -/
def tupleLength? : Ty → Option Nat
  | tuple elems => some elems.length
  | _ => none

/-- How many pointers stand in front of a type. -/
def leadingPointers : Ty → Nat
  | pointer elem => leadingPointers elem + 1
  | _ => 0

mutual

def render : Ty → String
  | basic name => name
  | chan elem => "chan " ++ render elem
  | array length elem => "[" ++ toString length ++ "]" ++ render elem
  | slice elem => "[]" ++ render elem
  | map key value => "map[" ++ render key ++ "]" ++ render value
  | pointer elem => "*" ++ render elem
  | struct fields => "struct\x7b" ++ "; ".intercalate (renderAll fields) ++ "\x7d"
  | interface methods => "interface\x7b" ++ "; ".intercalate methods ++ "\x7d"
  | func => "func"
  | tuple elems => "(" ++ ", ".intercalate (renderAll elems) ++ ")"
  | named name => name

def renderAll : List Ty → List String
  | [] => []
  | a :: as => render a :: renderAll as

end

end Ty

end ChanFlow
