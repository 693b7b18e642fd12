import ChanFlow.Ssa.Program

/-!
The text of instructions, functions and programs.
-/
namespace ChanFlow.Ssa

def renderOperands (xs : List Operand) : String := ", ".intercalate (xs.map (·.render))

def BinOp.render : BinOp → String
  | add => "+" | sub => "-" | mul => "*" | div => "/" | rem => "%"
  | and => "&" | or => "|" | xor => "^" | shl => "<<" | shr => ">>" | andNot => "&^"
  | eq => "==" | ne => "!=" | lt => "<" | le => "<=" | gt => ">" | ge => ">="

def UnOp.render : UnOp → String
  | not => "not" | neg => "neg" | compl => "compl"

def Conversion.render : Conversion → String
  | changeType => "changetype"
  | convert => "convert"
  | changeInterface => "changeiface"
  | makeInterface => "makeiface"

def AllocScope.render : AllocScope → String
  | heap => "heap" | frame => "local"

def Callee.render : Callee → String
  | static func => "&" ++ func
  | value operand => operand.render
  | builtin name => "builtin " ++ name
  | invoke receiver method => "invoke " ++ receiver.render ++ " " ++ method

def Call.render (c : Call) : String := c.callee.render ++ "(" ++ renderOperands c.args ++ ")"

def SelectCase.render : SelectCase → String
  | send chan value => "send " ++ chan.render ++ " <- " ++ value.render
  | recv chan => "recv " ++ chan.render

def PhiEdge.render (e : PhiEdge) : String := toString e.pred ++ ": " ++ e.value.render

def renderCommaOk (commaOk : Bool) : String := if commaOk then " commaok" else ""

def renderUnmodelled (op : String) (args : List Operand) : String :=
  "opaque " ++ op ++ "(" ++ renderOperands args ++ ")"

def ValueOp.render : ValueOp → String
  | alloc scope => "alloc " ++ scope.render
  | binary op x y => x.render ++ " " ++ op.render ++ " " ++ y.render
  | recv chan commaOk => "recv " ++ chan.render ++ renderCommaOk commaOk
  | deref x => "deref " ++ x.render
  | unary op x => op.render ++ " " ++ x.render
  | call c => "call " ++ c.render
  | convert op x => op.render ++ " " ++ x.render
  | extract tuple i => "extract " ++ tuple.render ++ ", " ++ toString i
  | field x i => "field " ++ x.render ++ ", " ++ toString i
  | fieldAddr x i => "fieldaddr " ++ x.render ++ ", " ++ toString i
  | index x i => "index " ++ x.render ++ ", " ++ i.render
  | indexAddr x i => "indexaddr " ++ x.render ++ ", " ++ i.render
  | lookup map key commaOk =>
    "lookup " ++ map.render ++ ", " ++ key.render ++ renderCommaOk commaOk
  | makeChan capacity => "makechan " ++ capacity.render
  | makeClosure func bindings =>
    "makeclosure &" ++ func ++ "(" ++ renderOperands bindings ++ ")"
  | makeMap => "makemap"
  | makeSlice length => "makeslice " ++ length.render
  | next iter => "next " ++ iter.render
  | range x => "range " ++ x.render
  | phi edges => "phi [" ++ ", ".intercalate (edges.map (·.render)) ++ "]"
  | select blocking cases =>
    "select " ++ (if blocking then "blocking" else "nonblocking") ++
      " [" ++ ", ".intercalate (cases.map (·.render)) ++ "]"
  | slice x => "slice " ++ x.render
  | typeAssert x commaOk => "typeassert " ++ x.render ++ renderCommaOk commaOk
  | unmodelled op args => renderUnmodelled op args

def Effect.render : Effect → String
  | jump target => "jump " ++ toString target
  | branch cond onTrue onFalse =>
    "if " ++ cond.render ++ " then " ++ toString onTrue ++ " else " ++ toString onFalse
  | ret [] => "return"
  | ret results => "return " ++ renderOperands results
  | send chan value => "send " ++ chan.render ++ ", " ++ value.render
  | store addr value => "store " ++ addr.render ++ ", " ++ value.render
  | mapUpdate map key value =>
    "mapupdate " ++ map.render ++ ", " ++ key.render ++ ", " ++ value.render
  | go c => "go " ++ c.render
  | defer c => "defer " ++ c.render
  | call c => "call " ++ c.render
  | runDefers => "rundefers"
  | panic x => "panic " ++ x.render
  | unmodelled op args => renderUnmodelled op args

def Action.render : Action → String
  | define name ty op => name ++ ": " ++ ty.render ++ " = " ++ op.render
  | perform effect => effect.render

def Instr.render (i : Instr) : String :=
  i.action.render ++
    match i.pos with
    | some pos => " ; " ++ pos.render
    | none => ""

def BlockDraft.render (b : BlockDraft) : String :=
  "block " ++ toString b.index ++ (b.tag.map (" " ++ ·)).getD "" ++ ":\n" ++
    String.join (b.instrs.map fun i => "  " ++ i.render ++ "\n")

def Param.render (p : Param) : String := p.name ++ ": " ++ p.ty.render

def renderParams (ps : List Param) : String := ", ".intercalate (ps.map (·.render))

/-- A function without captured variables shows no brackets for them. -/
def Signature.render (s : Signature) : String :=
  "func " ++ s.name ++
    (if s.freeVars.isEmpty then "" else "[" ++ renderParams s.freeVars ++ "]") ++
    "(" ++ renderParams s.params ++ ")" ++
    (s.results.map (" -> " ++ ·.render)).getD "" ++ "\n"

def Function.render (f : Function) : String :=
  f.toSignature.render ++ String.join (f.blocks.map (·.render))

def renderMethods (methods : Dict String) : String :=
  if methods.entries.isEmpty then ""
  else " \x7b " ++ ", ".intercalate (methods.entries.map fun m => m.1 ++ " = " ++ m.2) ++ " \x7d"

def renderDecl (name : String) (decl : TypeDecl) : String :=
  "type " ++ name ++ " " ++ decl.underlying.render ++ renderMethods decl.methods ++ "\n"

def Global.render (g : Global) : String := "global " ++ g.name ++ ": " ++ g.ty.render ++ "\n"

def Program.render (p : Program) : String :=
  String.join (p.types.decls.entries.map fun d => renderDecl d.1 d.2) ++
    String.join (p.globals.map (·.render)) ++
    String.join (p.functions.map (·.render))

end ChanFlow.Ssa
