import ChanFlow.Text.Parser

/-!
The pieces both text formats are made of: blanks and comments, symbols, words and numerals.

Blanks and comments may stand between any two pieces, so a lexeme passes over those behind it. What
follows it then starts where the next piece starts.
-/
namespace ChanFlow.Text

def isBlank (c : Char) : Bool := c = ' ' || c = '\t' || c = '\n' || c = '\r'

def isDigit (c : Char) : Bool := '0' ≤ c && c ≤ '9'

def isLetter (c : Char) : Bool := ('a' ≤ c && c ≤ 'z') || ('A' ≤ c && c ≤ 'Z')

/-- Characters a name may start with. -/
def startsName (c : Char) : Bool := isLetter c || c = '_'

/-- The place after blanks and comments. A comment starts with two slashes and runs to the end of its
line; `inComment` tells whether the place lies in one. -/
def Cursor.skip (inComment : Bool) (offset : Nat) : List Char → Cursor
  | [] => ⟨offset, []⟩
  | c :: cs =>
    if inComment then Cursor.skip (c != '\n' && c != '\r') (offset + 1) cs
    else if isBlank c then Cursor.skip false (offset + 1) cs
    else if c = '/' && cs.head? = some '/' then Cursor.skip true (offset + 1) cs
    else ⟨offset, c :: cs⟩

/-- A name: one character that may start it and all that continue it. -/
def scanName (continues : Char → Bool) : List Char → Option (List Char × List Char)
  | [] => none
  | c :: cs =>
    if startsName c then some (c :: cs.takeWhile continues, cs.dropWhile continues) else none

/-- All leading characters of a class, of which there must be one. -/
def scanRun (p : Char → Bool) (cs : List Char) : Option (List Char × List Char) :=
  match cs.takeWhile p with
  | [] => none
  | taken => some (taken, cs.dropWhile p)

/-- Digits, with a minus sign in front or not. -/
def scanInteger : List Char → Option (List Char × List Char)
  | '-' :: cs => (scanRun isDigit cs).map fun (taken, rest) => ('-' :: taken, rest)
  | cs => scanRun isDigit cs

/-- A given word with no character behind it that would continue it. -/
def scanWord (continues : Char → Bool) (word : String) (cs : List Char) :
    Option (List Char × List Char) :=
  match word.toList.isPrefixOf? cs with
  | some rest => if (rest.head?.map continues).getD false then none else some (word.toList, rest)
  | none => none

def natOfDigits (digits : List Char) : Nat := Nat.ofDigitChars 10 digits 0

def intOfNumeral : List Char → Int
  | '-' :: digits => -(natOfDigits digits : Int)
  | digits => natOfDigits digits

namespace Parser

variable {φ α : Type}

def blanks : Parser φ Unit := fun c => ⟨0, some ⟨(), none, Cursor.skip false c.offset c.rest⟩⟩

def lexeme (p : Parser φ α) : Parser φ α := do
  let a ← p
  blanks
  return a

def symbol (s : String) : Parser φ Unit := lexeme (literal s)

/-- The first of the given symbols that matches, with what it stands for. -/
def oneOf (choices : List (String × α)) : Parser φ α :=
  firstOf (choices.map fun (s, a) => do symbol s; return a)

end Parser

end ChanFlow.Text
