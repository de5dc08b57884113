import MonkeyLang.Ast.Error
import MonkeyLang.Eval.Machine
import MonkeyLang.Text.Excerpt

namespace MonkeyLang

inductive ScriptError where
  | parse (error : ParseError)
  | fault (fault : Fault)

structure Report where
  message : String
  location : Option Location
deriving DecidableEq, Repr

/-- How deeply the values may nest that the host writes into a stack trace. It writes them on its own
stack, which is not the one that programs are evaluated on. -/
def renderLimit : Nat := 200

namespace Call

def text (name : String) (arguments : List String) : String :=
  let name := if name.isEmpty then "<call>" else name
  "(" ++ " ".intercalate (name :: arguments) ++ ")"

def render (call : Call) : String :=
  text call.name (call.arguments.map Value.debug)

def renderWithin (levels : Nat) (call : Call) : Option String := do
  return text call.name (← call.arguments.mapM (Value.debugWithin levels))

end Call

def traceText (calls : List String) : String :=
  match calls with
  | [] => ""
  | calls => "Monkey stacktrace: " ++ " ".intercalate calls

def stackTrace (calls : List Call) : String :=
  traceText (calls.map Call.render)

def stackTraceWithin (levels : Nat) (calls : List Call) : Option String := do
  return traceText (← calls.mapM (Call.renderWithin levels))

namespace Report

def withPlace (line : String) (column : Option String) (message : String) : String :=
  if message.startsWith "Error on line " then message
  else
    let column := match column with
      | some column => ", col " ++ column
      | none => ""
    "Error on line " ++ line ++ column ++ ": " ++ message

def text (report : Report) : String :=
  match report.location with
  | some ⟨line, column⟩ => withPlace (toString line) (some (toString column)) report.message
  | none => report.message

end Report

namespace ScriptError

def heading : ScriptError → String
  | parse error =>
    if error.isInternal then "InternalError"
    else
      match error with
      | .lexical _ => "LexError"
      | _ => "ParseError"
  | fault (.boundReturn _) => "InternalError"
  | fault _ => "EvaluationFault"

def excerpt (source : String) (location : Location) : String :=
  Text.excerpt source location.line (some location.column) 2

def calls : ScriptError → List Call
  | parse _ => []
  | fault error => error.calls

def reportWith (source trace : String) : ScriptError → Report
  | parse error =>
    let message := (parse error).heading ++ ": " ++ error.message
    match error.span? with
    | some span =>
      ⟨message ++ "\n" ++ excerpt source span.location, some span.location⟩
    | none => ⟨message, none⟩
  | fault error =>
    let message := (fault error).heading ++ ": " ++ error.message
    let trace := if trace = "" then "" else "\n" ++ trace
    match error.span? with
    | some span =>
      let ⟨line, column⟩ := span.location
      let place := s!"\n(line {line}, col {column})\n"
      ⟨message ++ place ++ excerpt source span.location ++ trace, some span.location⟩
    | none => ⟨message ++ trace, none⟩

def report (source : String) (error : ScriptError) : Report :=
  error.reportWith source (stackTrace error.calls)

def reportWithin (levels : Nat) (source : String) (error : ScriptError) : Option Report := do
  return error.reportWith source (← stackTraceWithin levels error.calls)

end ScriptError

end MonkeyLang
