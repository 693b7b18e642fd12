import ChanFlow.Analysis.Machine
import ChanFlow.Text.Lexeme

/-!
Command lines: what can be asked for, and how it is written.
-/
namespace ChanFlow

inductive Task where
  /-- Infers the protocol of a program. -/
  | infer
  /-- Reads a protocol and writes it back. -/
  | check
  /-- Reads a program and writes it back. -/
  | dump
deriving DecidableEq, Repr

structure Command where
  task : Task
  file : String
  /-- Where the protocol is written, if not to standard output. -/
  output : Option String := none
  json : Bool := false
  verbose : Bool := false
  options : Analysis.Options := {}
deriving DecidableEq, Repr

namespace Command

inductive Error where
  | usage
  | unknownTask (word : String)
  | unknownFlag (flag : String)
  | missingValue (flag : String)
  | badNumber (value : String)
  | surplus (word : String)
deriving DecidableEq, Repr

def usage : String :=
  "usage: infer FILE [-o FILE] [--json] [--no-cleanup] [--entry NAME] [--init NAME] " ++
    "[--max-unroll N] [-v]\n       check FILE [-v]\n       dump FILE [-v]"

def Error.message : Error → String
  | usage => Command.usage
  | unknownTask word => "unrecognized subcommand '" ++ word ++ "'"
  | unknownFlag flag => "unexpected argument '" ++ flag ++ "' found"
  | missingValue flag => "a value is required for '" ++ flag ++ "'"
  | badNumber value => "invalid value '" ++ value ++ "' for '--max-unroll'"
  | surplus word => "unexpected argument '" ++ word ++ "' found"

def number? (value : String) : Option Nat :=
  match value.toList with
  | [] => none
  | digits =>
    let n := Text.natOfDigits digits
    if digits.all Text.isDigit && decide (Word.IndexFits n) then some n else none

/-- A flag and its value may be one word, with an equals sign between them. -/
def splitFlag (word : String) : List String :=
  match word.toList.span (· ≠ '=') with
  | (flag, '=' :: value) =>
    if flag.take 2 = ['-', '-'] then [String.ofList flag, String.ofList value] else [word]
  | _ => [word]

/-- The words of a command line that are not flags, and the command with the flags taken into it. -/
def flags (c : Command) : List String → Except Error (List String × Command)
  | [] => .ok ([], c)
  | "-v" :: rest => flags { c with verbose := true } rest
  | "--verbose" :: rest => flags { c with verbose := true } rest
  | "--json" :: rest => flags { c with json := true } rest
  | "--no-cleanup" :: rest => flags { c with options := { c.options with cleanUp := false } } rest
  | [flag] =>
    if ["-o", "--output", "--entry", "--init", "--max-unroll"].contains flag then
      .error (.missingValue flag)
    else if flag.toList.head? = some '-' then .error (.unknownFlag flag)
    else .ok ([flag], c)
  | "-o" :: path :: rest => flags { c with output := some path } rest
  | "--output" :: path :: rest => flags { c with output := some path } rest
  | "--entry" :: entry :: rest => flags { c with options := { c.options with entry } } rest
  | "--init" :: init :: rest => flags { c with options := { c.options with init } } rest
  | "--max-unroll" :: value :: rest =>
    match number? value with
    | some maxUnroll => flags { c with options := { c.options with maxUnroll } } rest
    | none => .error (.badNumber value)
  | word :: rest =>
    if word.toList.head? = some '-' then .error (.unknownFlag word)
    else do
      let (words, c) ← flags c rest
      return (word :: words, c)

def task? : String → Option Task
  | "infer" => some .infer
  | "check" => some .check
  | "dump" => some .dump
  | _ => none

def ofWords (words : List String) : Except Error Command := do
  let (plain, c) ← flags { task := .infer, file := "" } (words.flatMap splitFlag)
  match plain with
  | [] => .error .usage
  | word :: rest =>
    match task? word, rest with
    | none, _ => .error (.unknownTask word)
    | some _, [] => .error .usage
    | some task, [file] => .ok { c with task, file }
    | some _, _ :: extra :: _ => .error (.surplus extra)

end Command

end ChanFlow
