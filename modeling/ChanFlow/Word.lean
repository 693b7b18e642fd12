/-!
The ranges of the numbers a program can write: signed 64-bit integers and unsigned 64-bit indices.
Integers are plain integers here, and an operation that could leave the range says so.
-/
namespace ChanFlow.Word

/-- `-2 ^ 63` -/
def least : Int := -9223372036854775808

/-- `2 ^ 63 - 1` -/
def greatest : Int := 9223372036854775807

def Fits (i : Int) : Prop := least ≤ i ∧ i ≤ greatest

instance (i : Int) : Decidable (Fits i) := inferInstanceAs (Decidable (_ ∧ _))

/-- The integer itself if it is in range. -/
def inRange? (i : Int) : Option Int := if Fits i then some i else none

/-- Below `2 ^ 64`. -/
def IndexFits (n : Nat) : Prop := n < 18446744073709551616

instance (n : Nat) : Decidable (IndexFits n) := inferInstanceAs (Decidable (_ < _))

end ChanFlow.Word
