/-!
Statements of a protocol: channel operations, calls and spawns of routines, and choices. `tau` does
nothing.
-/
namespace ChanFlow.Protocol

inductive Statement where
  | newChan (name : String) (capacity : Int)
  | send (chan : String)
  | recv (chan : String)
  | close (chan : String)
  | call (routine : String) (args : List String)
  | spawn (routine : String) (args : List String)
  /-- One of two branches is taken. -/
  | branch (onTrue onFalse : List Statement)
  /-- One of several cases is taken; its first statement is the channel operation that chooses it. -/
  | select (cases : List (List Statement))
  | tau
deriving Repr, Inhabited

namespace Statement

mutual

def same : Statement → Statement → Bool
  | newChan a m, newChan b n => a = b && m = n
  | send a, send b => a = b
  | recv a, recv b => a = b
  | close a, close b => a = b
  | call r as, call s bs => r = s && as = bs
  | spawn r as, spawn s bs => r = s && as = bs
  | branch t e, branch t' e' => sameAll t t' && sameAll e e'
  | select cs, select ds => sameCases cs ds
  | tau, tau => true
  | _, _ => false

def sameAll : List Statement → List Statement → Bool
  | [], [] => true
  | a :: as, b :: bs => same a b && sameAll as bs
  | _, _ => false

def sameCases : List (List Statement) → List (List Statement) → Bool
  | [], [] => true
  | c :: cs, d :: ds => sameAll c d && sameCases cs ds
  | _, _ => false

end

mutual

theorem same_iff : (a b : Statement) → (same a b = true ↔ a = b)
  | newChan .., b => by cases b <;> simp [same]
  | send _, b | recv _, b | close _, b => by cases b <;> simp [same]
  | call .., b | spawn .., b => by cases b <;> simp [same]
  | branch t e, b => by cases b <;> simp [same, sameAll_iff t, sameAll_iff e]
  | select cs, b => by cases b <;> simp [same, sameCases_iff cs]
  | tau, b => by cases b <;> simp [same]

theorem sameAll_iff : (as bs : List Statement) → (sameAll as bs = true ↔ as = bs)
  | [], bs => by cases bs <;> simp [sameAll]
  | a :: as, bs => by cases bs <;> simp [sameAll, same_iff a, sameAll_iff as]

theorem sameCases_iff : (cs ds : List (List Statement)) → (sameCases cs ds = true ↔ cs = ds)
  | [], ds => by cases ds <;> simp [sameCases]
  | c :: cs, ds => by cases ds <;> simp [sameCases, sameAll_iff c, sameCases_iff cs]

end

instance : DecidableEq Statement := fun a b => decidable_of_iff (same a b = true) (same_iff a b)

def isTau : Statement → Bool
  | tau => true
  | _ => false

def withoutTau (ss : List Statement) : List Statement := ss.filter (!·.isTau)

mutual

/-- Whether a statement uses a channel itself, without counting the routines it names. -/
def communicates : Statement → Bool
  | newChan .. | send _ | recv _ | close _ | select _ => true
  | branch t e => anyCommunicates t || anyCommunicates e
  | call .. | spawn .. | tau => false

def anyCommunicates : List Statement → Bool
  | [] => false
  | s :: ss => communicates s || anyCommunicates ss

end

mutual

/-- The routines a statement calls or spawns, at any depth, in the order of the text. -/
def callees : Statement → List String
  | call routine _ | spawn routine _ => [routine]
  | branch t e => calleesOfAll t ++ calleesOfAll e
  | select cs => calleesOfCases cs
  | _ => []

def calleesOfAll : List Statement → List String
  | [] => []
  | s :: ss => callees s ++ calleesOfAll ss

def calleesOfCases : List (List Statement) → List String
  | [] => []
  | c :: cs => calleesOfAll c ++ calleesOfCases cs

end

/-- Whether a statement stays when only the routines in `keep` are left. -/
def targets (keep : String → Bool) : Statement → Bool
  | call routine _ | spawn routine _ => keep routine
  | _ => true

mutual

/-- Drops the calls and spawns inside a statement whose routine is not kept. -/
def restrict (keep : String → Bool) : Statement → Statement
  | branch t e => branch (restrictAll keep t) (restrictAll keep e)
  | select cs => select (restrictCases keep cs)
  | s => s

def restrictAll (keep : String → Bool) : List Statement → List Statement
  | [] => []
  | s :: ss => if targets keep s then restrict keep s :: restrictAll keep ss else restrictAll keep ss

def restrictCases (keep : String → Bool) : List (List Statement) → List (List Statement)
  | [] => []
  | c :: cs => restrictAll keep c :: restrictCases keep cs

end

mutual

/-- Equality up to `tau` statements. -/
def equivalent : Statement → Statement → Bool
  | branch t e, branch t' e' =>
    matchesAll t (withoutTau t') && matchesAll e (withoutTau e')
  | select cs, select ds => matchesCases cs ds
  | a, b => a = b

/-- Passes over `tau` on the left; the right list has none. -/
def matchesAll : List Statement → List Statement → Bool
  | [], bs => bs.isEmpty
  | a :: as, bs =>
    if isTau a then matchesAll as bs
    else match bs with
      | [] => false
      | b :: bs => equivalent a b && matchesAll as bs

def matchesCases : List (List Statement) → List (List Statement) → Bool
  | [], ds => ds.isEmpty
  | c :: cs, d :: ds => matchesAll c (withoutTau d) && matchesCases cs ds
  | _ :: _, [] => false

end

/-- Equality of two statement lists up to `tau` statements at any depth. -/
def equivalentAll (as bs : List Statement) : Bool := matchesAll as (withoutTau bs)

/-- The words of a statement; those a branch or select starts with. -/
def phrase : Statement → String
  | newChan name capacity => "newchan " ++ name ++ ", " ++ toString capacity
  | send chan => "send " ++ chan
  | recv chan => "recv " ++ chan
  | close chan => "close " ++ chan
  | call routine args => "call " ++ routine ++ "(" ++ ", ".intercalate args ++ ")"
  | spawn routine args => "spawn " ++ routine ++ "(" ++ ", ".intercalate args ++ ")"
  | branch .. => "if"
  | select _ => "select"
  | tau => "tau"

def indent (depth : Nat) : String := String.ofList (List.replicate (4 * depth) ' ')

mutual

/-- The lines of a statement. -/
def render (depth : Nat) : Statement → String
  | branch t e =>
    indent depth ++ "if\n" ++ renderBody (depth + 1) t ++ indent depth ++ "else\n" ++
      renderBody (depth + 1) e ++ indent depth ++ "endif;\n"
  | select cs => indent depth ++ "select\n" ++ renderCases depth cs ++ indent depth ++ "endselect;\n"
  | s => indent depth ++ phrase s ++ ";\n"

/-- A body that does nothing shows as `tau`. -/
def renderBody (depth : Nat) : List Statement → String
  | [] => indent depth ++ "tau;\n"
  | s :: ss => render depth s ++ renderAll depth ss

def renderAll (depth : Nat) : List Statement → String
  | [] => ""
  | s :: ss => render depth s ++ renderAll depth ss

def renderCases (depth : Nat) : List (List Statement) → String
  | [] => ""
  | c :: cs => indent (depth + 1) ++ "case\n" ++ renderBody (depth + 2) c ++ renderCases depth cs

end

/-- A statement by itself: a branch or select as its lines, any other without the final semicolon. -/
def display : Statement → String
  | branch t e => render 0 (branch t e)
  | select cs => render 0 (select cs)
  | s => phrase s

end Statement

end ChanFlow.Protocol
