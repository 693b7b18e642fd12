import ChanFlow.Json
import ChanFlow.Protocol.Basic

/-!
Protocols as JSON documents.
-/
namespace ChanFlow.Protocol

open Json

namespace Statement

mutual

def document : Statement → Json
  | newChan name capacity =>
    object [("NewChan", object [("name", text name), ("size", integer capacity)])]
  | send chan => object [("Send", object [("chan", text chan)])]
  | recv chan => object [("Recv", object [("chan", text chan)])]
  | close chan => object [("Close", object [("chan", text chan)])]
  | call routine args =>
    object [("Call", object [("routine", text routine), ("args", list (args.map text))])]
  | spawn routine args =>
    object [("Spawn", object [("routine", text routine), ("args", list (args.map text))])]
  | branch onTrue onFalse =>
    object [("If", object [("then_branch", list (documents onTrue)),
      ("else_branch", list (documents onFalse))])]
  | select cases => object [("Select", object [("cases", list (caseDocuments cases))])]
  | tau => text "Tau"

def documents : List Statement → List Json
  | [] => []
  | s :: rest => document s :: documents rest

def caseDocuments : List (List Statement) → List Json
  | [] => []
  | c :: rest => list (documents c) :: caseDocuments rest

end

end Statement

def Parameter.document (p : Parameter) : Json :=
  object [("caller", text p.caller), ("callee", text p.callee)]

def Routine.document (r : Routine) : Json :=
  object [("name", text r.name), ("params", list (r.params.map Parameter.document)),
    ("stmts", list (Statement.documents r.stmts))]

def document (p : Protocol) : Json := object [("funcs", list (p.routines.map Routine.document))]

end ChanFlow.Protocol
