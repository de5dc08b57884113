import MonkeyLang.Eval.Builtin
import MonkeyLang.Store

namespace MonkeyLang

structure Call where
  name : String
  arguments : List Value

inductive TraceEvent where
  | script (length : Nat)
  | function (closure : Closure) (count : Nat)
  | builtin (op : Builtin) (count : Nat)
  | fault (kind message : String)

namespace TraceEvent

def line : TraceEvent → String
  | script length => s!"[DBG] handle_script {length} chars"
  | function closure count => s!"[DBG] Function call {closure.debug} argc {count}"
  | builtin op count => s!"[DBG] BuiltIn call {op.name} argc {count}"
  | fault kind message => s!"[DBG] fault {kind} {message}"

end TraceEvent

structure Machine where
  store : Store
  /-- The calls that have not ended, the innermost first. -/
  calls : List Call
  closures : Nat
  trace : Array TraceEvent

inductive Fault where
  /-- A value that is no function was called, at the place if the call stands in a source; the calls
  that had not ended are listed outermost first. -/
  | notCallable (callee : Value) (site : Option Span) (calls : List Call)
  | tooDeep (span : Span)
  | boundReturn (name : String)

namespace Fault

def message : Fault → String
  | notCallable (.error message) _ _ => "cannot call an error value: " ++ message
  | notCallable callee _ _ => "not a function: " ++ callee.debug
  | tooDeep _ => "maximum recursion depth exceeded"
  | boundReturn name => "cannot bind a return wrapper to " ++ Text.quoted name

def span? : Fault → Option Span
  | notCallable _ site _ => site
  | tooDeep span => some span
  | boundReturn _ => none

def kind : Fault → String
  | notCallable _ _ _ | tooDeep _ => "EvaluationFault"
  | boundReturn _ => "TypeError"

def calls : Fault → List Call
  | notCallable _ _ calls => calls
  | tooDeep _ => []
  | boundReturn _ => []

end Fault

abbrev EvalM := EStateM Fault Machine

namespace Machine

def empty : Machine := ⟨.empty, [], 0, #[]⟩

def builtins (frame : FrameId) : List (String × Value) :=
  Builtin.all.map fun op => (op.name, .builtin op frame)

def child (parent : Option FrameId) : EvalM FrameId :=
  modifyGet fun m =>
    let (frame, store) := m.store.child parent
    (frame, { m with store })

/-- Binds a name in a frame and gives the value; a wrapped return value is never bound. -/
def bind (frame : FrameId) (name : String) (value : Value) : EvalM Value :=
  match value with
  | .returned _ => throw (.boundReturn name)
  | value => do
    modify fun m => { m with store := m.store.bind frame name value }
    return value

def record (event : TraceEvent) : EvalM Unit :=
  modify fun m => { m with trace := m.trace.push event }

def closure (params : List Ident) (body : Block) (scope : FrameId) : EvalM Value :=
  modifyGet fun m => (.function ⟨m.closures, params, body, scope⟩, { m with closures := m.closures + 1 })

/-- Runs a computation inside a call, which ends with it however it ends. -/
def during (call : Call) (body : EvalM Value) : EvalM Value := fun m =>
  match body { m with calls := call :: m.calls } with
  | .ok value m => .ok value { m with calls := m.calls.tail }
  | .error fault m => .error fault { m with calls := m.calls.tail }

def notCallable {α : Type} (callee : Value) (site : Option Span) : EvalM α := do
  throw (.notCallable callee site (← get).calls.reverse)

def install : EvalM FrameId := do
  let frame ← child none
  modify fun m => { m with store := m.store.bindAll frame (builtins frame) }
  return frame

end Machine

end MonkeyLang
