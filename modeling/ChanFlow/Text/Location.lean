/-!
Lines and columns of a text. A line ends with a line feed, whether or not a carriage return stands
before it; a carriage return alone is an ordinary character. Both counts start at one.
-/
namespace ChanFlow.Text

structure Location where
  line : Nat
  column : Nat
deriving DecidableEq, Repr

namespace Location

def start : Location := ⟨1, 1⟩

/-- The location after a character. -/
def step (l : Location) (c : Char) : Location :=
  if c = '\n' then ⟨l.line + 1, 1⟩ else ⟨l.line, l.column + 1⟩

/-- The location of the character at an offset. -/
def ofOffset (text : String) (offset : Nat) : Location :=
  (text.toList.take offset).foldl step start

end Location

end ChanFlow.Text
