/-!
Parsers over lists of characters with ordered choice.

A parser finds a value at a cursor or does not match there. A choice takes the first alternative that
matches, and a repetition takes as many items as there are; neither is reconsidered later. Beside its
result a parser tells how far it got: the largest offset at which a named rule was tried and failed,
also in an alternative that was given up.
-/
namespace ChanFlow.Text

/-- A place in a text: the number of characters before it, and the characters after it. -/
structure Cursor where
  offset : Nat
  rest : List Char
deriving DecidableEq, Repr

def Cursor.start (text : String) : Cursor := ⟨0, text.toList⟩

/-- A value found in a text, and the place after it. A piece of text may have the right form and still
no value of its kind, such as a numeral that is too large; that is a fault. Reading goes on after a
fault, and the first one is kept. -/
structure Match (φ α : Type) where
  value : α
  fault : Option φ
  next : Cursor

/-- The outcome of a parser: what it found, and the largest offset at which a named rule failed. -/
structure Reply (φ α : Type) where
  reach : Nat
  found : Option (Match φ α)

def Parser (φ α : Type) : Type := Cursor → Reply φ α

namespace Parser

variable {φ ψ α β : Type}

protected def pure (a : α) : Parser φ α := fun c => ⟨0, some ⟨a, none, c⟩⟩

protected def bind (p : Parser φ α) (f : α → Parser φ β) : Parser φ β := fun c =>
  match p c with
  | ⟨reach, none⟩ => ⟨reach, none⟩
  | ⟨reach, some m⟩ =>
    let reply := f m.value m.next
    ⟨max reach reply.reach,
      reply.found.map fun m' => { m' with fault := m.fault <|> m'.fault }⟩

instance : Monad (Parser φ) where
  pure := Parser.pure
  bind := Parser.bind

def fail : Parser φ α := fun _ => ⟨0, none⟩

/-- The first alternative wins where it matches; otherwise the second starts at the same place. -/
protected def orElse (p : Parser φ α) (q : Unit → Parser φ α) : Parser φ α := fun c =>
  match p c with
  | ⟨reach, some m⟩ => ⟨reach, some m⟩
  | ⟨reach, none⟩ =>
    let reply := q () c
    ⟨max reach reply.reach, reply.found⟩

instance : OrElse (Parser φ α) := ⟨Parser.orElse⟩

/-- A named rule: a failure counts at the place where the rule was tried. -/
def rule (p : Parser φ α) : Parser φ α := fun c =>
  match p c with
  | ⟨reach, some m⟩ => ⟨reach, some m⟩
  | ⟨reach, none⟩ => ⟨max reach c.offset, none⟩

/-- An indivisible piece of text. It is a named rule by itself, and nothing inside it is one. -/
def token (scan : List Char → Option (List Char × List Char)) : Parser φ (List Char) := fun c =>
  match scan c.rest with
  | some (taken, rest) => ⟨0, some ⟨taken, none, ⟨c.offset + taken.length, rest⟩⟩⟩
  | none => ⟨c.offset, none⟩

/-- Exactly the given text. Not a named rule. -/
def literal (s : String) : Parser φ Unit := fun c =>
  match s.toList.isPrefixOf? c.rest with
  | some rest => ⟨0, some ⟨(), none, ⟨c.offset + s.length, rest⟩⟩⟩
  | none => ⟨0, none⟩

/-- Passes over the characters of a class. -/
def skipWhile (p : Char → Bool) : Parser φ Unit := fun c =>
  ⟨0, some ⟨(), none, ⟨c.offset + (c.rest.takeWhile p).length, c.rest.dropWhile p⟩⟩⟩

/-- Nothing is left. -/
def eoi : Parser φ Unit := rule fun c =>
  ⟨0, if c.rest.isEmpty then some ⟨(), none, c⟩ else none⟩

def opt (p : Parser φ α) : Parser φ (Option α) :=
  (do return some (← p)) <|> pure none

/-- The first of several alternatives that matches. -/
def firstOf : List (Parser φ α) → Parser φ α
  | [] => fail
  | p :: ps => p <|> firstOf ps

/-- At most `n` items, as many as there are. -/
def upTo (p : Parser φ α) : Nat → Parser φ (List α)
  | 0 => pure []
  | n + 1 => (do
      let a ← p
      let as ← upTo p n
      return a :: as) <|> pure []

/-- As many items as there are. An item that takes at least one character occurs at most once for each
character that is left, so the bound cuts nothing off and the last, failing, attempt is made. -/
def many (p : Parser φ α) : Parser φ (List α) := fun c => upTo p (c.rest.length + 1) c

def sepBy1 (p : Parser φ α) (sep : Parser φ Unit) : Parser φ (List α) := do
  let a ← p
  let as ← many (do sep; p)
  return a :: as

def sepBy (p : Parser φ α) (sep : Parser φ Unit) : Parser φ (List α) :=
  sepBy1 p sep <|> pure []

/-- Records a fault, if there is one. -/
def report (fault : Option φ) : Parser φ Unit := fun c => ⟨0, some ⟨(), fault, c⟩⟩

/-- Hands the first fault over as a value, so that what follows can have faults of its own. -/
def checked (p : Parser φ α) : Parser ψ (Except φ α) := fun c =>
  let reply := p c
  ⟨reply.reach, reply.found.map fun m =>
    ⟨match m.fault with
      | some fault => .error fault
      | none => .ok m.value, none, m.next⟩⟩

/-- Reads at the start of a text. A mismatch gives the furthest offset reached. -/
def run (p : Parser φ α) (text : String) : Except Nat (Match φ α) :=
  match p (Cursor.start text) with
  | ⟨_, some m⟩ => .ok m
  | ⟨reach, none⟩ => .error reach

end Parser

end ChanFlow.Text
