import MonkeyLang.Ast.Parser
import MonkeyLang.Eval.Basic
import MonkeyLang.Session.Report

namespace MonkeyLang

structure Session where
  persistent : Bool
  machine : Machine
  scope : FrameId

inductive Answer where
  | value (value : Value)
  | failure (error : ScriptError) (report : Report)
  /-- The stack of the host was used up while the report was written, and there is no answer. -/
  | raised

namespace Session

def outcome {α : Type} : EStateM.Result Fault Machine α → Except Fault α × Machine
  | .ok value machine => (.ok value, machine)
  | .error fault machine => (.error fault, machine)

def reset (session : Session) : Session :=
  match Machine.install session.machine with
  | .ok scope machine => { session with machine, scope }
  | .error _ machine => { session with machine }

def start (persistent : Bool) : Session :=
  reset ⟨persistent, .empty, 0⟩

def record (session : Session) (event : TraceEvent) : Session :=
  { session with machine := { session.machine with trace := session.machine.trace.push event } }

def clearTrace (session : Session) : Session :=
  { session with machine := { session.machine with trace := #[] } }

def runProgram (session : Session) (program : Block) : Except ScriptError Value × Session :=
  match outcome (evaluate program session.scope session.machine) with
  | (.ok value, machine) => (.ok value, { session with machine })
  | (.error fault, machine) =>
    (.error (.fault fault), { session with machine }.record (.fault fault.kind fault.message))

def run (session : Session) (source : String) : Except ScriptError Value × Session :=
  let session := if session.persistent then session else session.reset
  let session := session.clearTrace.record (.script source.length)
  match parse source with
  | .ok program => session.runProgram program
  | .error error =>
    let session := if error.isInternal then session.record (.fault error.kind error.message) else session
    (.error (.parse error), session)

/-- Runs a script and answers it, with so many levels for the host to write values. -/
def handleWithin (levels : Nat) (session : Session) (source : String) : Answer × Session :=
  match session.run source with
  | (.ok value, session) => (.value value, session)
  | (.error error, session) =>
    match error.reportWithin levels source with
    | some report => (.failure error report, session)
    | none => (.raised, session)

def handle (session : Session) (source : String) : Answer × Session :=
  session.handleWithin renderLimit source

def resolve (session : Session) (name : String) : Option Value :=
  session.machine.store.resolve session.scope name

def call (session : Session) (callee : Value) (arguments : List Value) :
    Except Fault Value × Session :=
  let (result, machine) := outcome (callValue callee arguments session.machine)
  (result, { session with machine })

def bindings (session : Session) : List (String × Value) :=
  session.machine.store.bindings session.scope

def traceText (session : Session) : String :=
  String.join (session.machine.trace.toList.map fun event => event.line ++ "\n")

end Session

end MonkeyLang
