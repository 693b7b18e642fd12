/-!
JSON documents, written over several lines with two blanks for each level.
-/
namespace ChanFlow

inductive Json where
  | text (s : String)
  | integer (i : Int)
  | list (items : List Json)
  | object (fields : List (String × Json))
deriving Inhabited

namespace Json

/-- A character inside a quoted text. Quotes, backslashes and control characters are escaped. -/
def quoteChar (c : Char) : String :=
  match c with
  | '"' => "\\\""
  | '\\' => "\\\\"
  | '\n' => "\\n"
  | '\r' => "\\r"
  | '\t' => "\\t"
  | '\x08' => "\\b"
  | '\x0c' => "\\f"
  | c =>
    if c.toNat < 32 then
      "\\u" ++ String.ofList ((Nat.toDigits 16 (0x10000 + c.toNat)).drop 1)
    else c.toString

def quote (s : String) : String := "\"" ++ String.join (s.toList.map quoteChar) ++ "\""

def pad (depth : Nat) : String := String.ofList (List.replicate (2 * depth) ' ')

/-- Items on lines of their own, between two marks. Nothing stands between the marks of an empty list. -/
def enclose (opening closing : String) (depth : Nat) (items : List String) : String :=
  if items.isEmpty then opening ++ closing
  else
    opening ++ "\n" ++ String.intercalate ",\n" (items.map (pad (depth + 1) ++ ·)) ++ "\n" ++
      pad depth ++ closing

mutual

def renderAt (depth : Nat) : Json → String
  | text s => quote s
  | integer i => toString i
  | list items => enclose "[" "]" depth (renderItems (depth + 1) items)
  | object fields => enclose "\x7b" "\x7d" depth (renderFields (depth + 1) fields)

def renderItems (depth : Nat) : List Json → List String
  | [] => []
  | j :: rest => renderAt depth j :: renderItems depth rest

def renderFields (depth : Nat) : List (String × Json) → List String
  | [] => []
  | (key, j) :: rest => (quote key ++ ": " ++ renderAt depth j) :: renderFields depth rest

end

def render (j : Json) : String := renderAt 0 j

end Json

end ChanFlow
