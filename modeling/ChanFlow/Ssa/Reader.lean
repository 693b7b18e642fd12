import ChanFlow.Ssa.Grammar

/-!
Reading programs and single instructions.

The whole text must follow the grammar before anything is made of it. Then the declarations take effect
in the order of the text, and the first one at fault ends the reading.
-/
namespace ChanFlow.Ssa

open Text

/-- What reading a program gives. A type declared again replaces the earlier declaration, which is not
an error; its name is noted, also when the reading fails later. -/
structure Reading where
  redeclared : List String
  result : Except Error Program

def mismatch (text : String) (reach : Nat) : Error := .mismatch (Location.ofOffset text reach)

/-- One instruction at the start of a text. What follows it does not matter. -/
def Instr.read (text : String) : Except Error Instr :=
  match Grammar.instr.run text with
  | .error reach => .error (mismatch text reach)
  | .ok found =>
    match found.fault with
    | some fault => .error (.numeral fault)
    | none => .ok found.value

namespace Program

def declare (p : Program) : Decl → Except Error Program
  | .type name decl => .ok { p with types := ⟨p.types.decls.insert name decl⟩ }
  | .global g => p.addGlobal g
  | .function draft => p.addFunction draft

/-- The name of a type that is declared already. -/
def redeclares (p : Program) : Decl → Option String
  | .type name _ => if (p.types.decls.get? name).isSome then some name else none
  | _ => none

def declareAll (p : Program) : List (Except NumeralFault Decl) → Reading
  | [] => ⟨[], .ok p⟩
  | .error fault :: _ => ⟨[], .error (.numeral fault)⟩
  | .ok decl :: rest =>
    match p.declare decl with
    | .error e => ⟨[], .error e⟩
    | .ok p' =>
      let reading := p'.declareAll rest
      { reading with redeclared := (p.redeclares decl).toList ++ reading.redeclared }

def read (text : String) : Reading :=
  match Grammar.program.run text with
  | .error reach => ⟨[], .error (mismatch text reach)⟩
  | .ok found => declareAll {} found.value

end Program

end ChanFlow.Ssa
