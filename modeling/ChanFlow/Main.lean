import ChanFlow.Analysis.Infer
import ChanFlow.Command
import ChanFlow.Protocol.Document
import ChanFlow.Protocol.Reader
import ChanFlow.Ssa.Reader

/-!
The command line.
-/
namespace ChanFlow.Command

/-- More than any analysis takes that fits in memory. -/
def budget : Nat := 1000000000

def haltMessage : Analysis.Halt → String
  | .failed error => error.message
  | .stopped _ | .endless _ => "the analysis did not end"

/-- What a command writes for a text, and the events on the way. -/
def answer (c : Command) (input : String) : Except String String × List Event :=
  match c.task with
  | .check =>
    (match Protocol.read input with
      | .ok p => .ok p.render
      | .error e => .error e.message, [])
  | .dump =>
    let reading := Ssa.Program.read input
    (match reading.result with
      | .ok p => .ok p.render
      | .error e => .error e.message, reading.redeclared.map .typeRedeclared)
  | .infer =>
    let reading := Ssa.Program.read input
    let warnings := reading.redeclared.map Event.typeRedeclared
    match reading.result with
    | .error e => (.error e.message, warnings)
    | .ok p =>
      let outcome := Analysis.infer budget p c.options
      (match outcome.result with
        | .ok q => .ok (if c.json then q.document.render else q.render)
        | .error halt => .error (haltMessage halt), warnings ++ outcome.log.toList)

def execute (c : Command) : IO UInt32 := do
  let (result, events) := answer c (← IO.FS.readFile c.file)
  let least := if c.verbose then Level.debug else .warn
  (events.filter fun e => least.shownAt e.level).forM fun e => IO.eprintln e.render
  match result, c.output with
  | .error message, _ =>
    IO.eprintln ("Error: " ++ message)
    return 1
  | .ok text, some path =>
    IO.FS.writeFile path text
    return 0
  | .ok text, none =>
    IO.print text
    return 0

end ChanFlow.Command

def main (args : List String) : IO UInt32 := do
  match ChanFlow.Command.ofWords args with
  | .ok command => command.execute
  | .error e =>
    IO.eprintln ("error: " ++ e.message)
    return 2
