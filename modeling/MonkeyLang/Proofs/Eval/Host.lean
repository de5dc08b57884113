import Mathlib.Data.List.Basic
import MonkeyLang.Eval.Basic
import MonkeyLang.Proofs.Ast.WellFormed
import MonkeyLang.Proofs.Eval.Ends
import MonkeyLang.Proofs.Value.Parts

namespace MonkeyLang

/-- What the host raises when an operation is used outside of its domain. -/
inductive HostError where
  | noElement
  | noEntry
  | unhashable
  | zeroDivision
  | wrongArguments
  | boundReturn
  | unknownOperator
deriving DecidableEq, Repr

inductive Raised where
  | fault (fault : Fault)
  | host (error : HostError)

abbrev HostM := EStateM Raised Machine

namespace Host

def element (elements : List Value) (i : Nat) : Except HostError Value :=
  match elements[i]? with
  | some value => .ok value
  | none => .error .noElement

def hash (key : Value) : Except HostError Key :=
  match key.key? with
  | some key => .ok key
  | none => .error .unhashable

def contains (entries : List (Key × Value)) (key : Value) : Except HostError Bool := do
  return Table.contains entries (← hash key)

def entry (entries : List (Key × Value)) (key : Value) : Except HostError Value := do
  match entries.lookup (← hash key) with
  | some value => .ok value
  | none => .error .noEntry

def insert (entries : List (Key × Value)) (key value : Value) : Except HostError (List (Key × Value)) := do
  return Table.insert (← hash key) value entries

def quotient (left right : Nat) : Except HostError Nat :=
  if right = 0 then .error .zeroDivision else .ok (left / right)

def hashable (value : Value) : Bool :=
  value.key?.isSome

def divide (left right : Int) : Except HostError Value :=
  if right = 0 then .ok (.error "division by zero")
  else do
    let size ← quotient left.natAbs right.natAbs
    return checked .div left right (if left < 0 ↔ right < 0 then size else -size)

def integerOperation (operator : Operator) (left right : Int) : Except HostError Value :=
  match operator with
  | .add => .ok (checked operator left right (left + right))
  | .sub => .ok (checked operator left right (left - right))
  | .mul => .ok (checked operator left right (left * right))
  | .div => divide left right
  | .less => .ok (.boolean (left < right))
  | .greater => .ok (.boolean (right < left))
  | .lessEqual => .ok (.boolean (left ≤ right))
  | .greaterEqual => .ok (.boolean (right ≤ left))
  | .equal => .ok (.boolean (left = right))
  | .notEqual => .ok (.boolean (left ≠ right))
  | .not | .neg => .error .unknownOperator

def binary (operator : Operator) : (left right : Value) → Except HostError Value
  | .integer left, .integer right => integerOperation operator left right
  | .string left, .string right => .ok (Value.append operator left (.string right) right)
  | .string left, .integer right => .ok (Value.append operator left (.integer right) (toString right))
  | left, right => .ok (.error s!"Expected number, got {left.debug} and {right.debug}")

def unary (operator : Operator) (right : Value) : Except HostError Value :=
  match operator, right with
  | .not, right => .ok (.boolean !right.isTruthy)
  | .neg, .integer value =>
    .ok (if inRange (-value) then .integer (-value) else .error s!"integer overflow: -{value}")
  | .neg, right => .ok (.error s!"unknown operator: {Operator.neg.symbol}{right.typeName}")
  | _, _ => .error .unknownOperator

def index (left index : Value) : Except HostError Value :=
  match left, index with
  | .array elements, .integer index =>
    if index < 0 ∨ elements.length ≤ index then .ok .null else element elements index.toNat
  | .array _, index => .ok (.error s!"Invalid index value: {index.debug}")
  | .hash entries, index =>
    if hashable index then do
      if ← contains entries index then entry entries index
      else return .error s!"key not found: {index.debug}"
    else .ok index.unusableKey
  | left, _ => .ok (.error s!"Can not index object type: {left.typeName}")

def apply : Builtin → List Value → Except HostError Value
  | .len, [.string value] => .ok (.integer value.utf8ByteSize)
  | .len, [.array elements] => .ok (.integer elements.length)
  | .first, [.array elements] => if elements.isEmpty then .ok .null else element elements 0
  | .last, [.array elements] =>
    if elements.isEmpty then .ok .null else element elements (elements.length - 1)
  | .rest, [.array elements] => .ok (.array elements.dropLast)
  | .push, [.array elements, value] => .ok (.array (elements ++ [value]))
  | .put, [.hash entries, key, value] =>
    if hashable key then do return .hash (← insert entries key value) else .ok key.unusableKey
  | .push, [target, _] => .ok (Builtin.push.invalidArgument target)
  | .put, [target, _, _] => .ok (Builtin.put.invalidArgument target)
  | .push, _ | .put, _ => .error .wrongArguments
  | op, [argument] => .ok (op.invalidArgument argument)
  | _, _ => .error .wrongArguments

def lift {α : Type} (x : EvalM α) : HostM α := fun m =>
  match x m with
  | .ok a last => .ok a last
  | .error fault last => .error (.fault fault) last

def attempt {α : Type} (x : Except HostError α) : HostM α :=
  match x with
  | .ok a => return a
  | .error error => throw (.host error)

def bind (frame : FrameId) (name : String) (value : Value) : HostM Value :=
  match value with
  | .returned _ => throw (.host .boundReturn)
  | value => lift (Machine.bind frame name value)

def during (call : Call) (body : HostM Value) : HostM Value := fun m =>
  match body { m with calls := call :: m.calls } with
  | .ok value m => .ok value { m with calls := m.calls.tail }
  | .error raised m => .error raised { m with calls := m.calls.tail }

def unlessError (value : HostM Value) (next : Value → HostM Value) : HostM Value := do
  match ← value with
  | .error message => return .error message
  | value => next value

section Rules

variable (recurse : Node → FrameId → HostM Value) (frame : FrameId)

def statements (result : Value) : List Stmt → HostM Value
  | [] => return result
  | s :: ss => do
    match ← recurse (.stmt s) frame with
    | .returned value => return .returned value
    | value => statements value ss

def arguments : List Expr → HostM (Except String (List Value))
  | [] => return .ok []
  | e :: es => do
    match ← recurse (.expr e) frame with
    | .error message => return .error message
    | value => return (← arguments es).map (value :: ·)

def entries (done : List (Key × Value)) : List (Expr × Expr) → HostM Value
  | [] => return .hash done
  | (k, v) :: pairs =>
    unlessError (recurse (.expr k) frame) fun key =>
      if hashable key then
        unlessError (recurse (.expr v) frame) fun value => do
          entries (← attempt (insert done key value)) pairs
      else return key.unusableKey

def bindParams : List Ident → List Value → HostM Unit
  | param :: params, argument :: rest => do
    let _ ← bind frame param.name argument
    bindParams params rest
  | _, _ => return ()

def call (callee : Value) (arguments : List Value) (site : Option Span) : HostM Value :=
  match callee with
  | .function closure => do
    let frame ← lift (Machine.child (some closure.scope))
    bindParams frame closure.params arguments
    lift (Machine.record (.function closure arguments.length))
    let result ← during ⟨"<fn>", arguments⟩ (recurse (.block closure.body) frame)
    return result.unwrap
  | .builtin op _ =>
    if arguments.length = op.arity then do
      lift (Machine.record (.builtin op arguments.length))
      during ⟨op.name, arguments⟩ (attempt (apply op arguments))
    else return op.wrongArity arguments.length
  | callee => lift (Machine.notCallable callee site)

def callExpr (site : Span) (callee : Expr) (args : List Expr) : HostM Value := do
  let callee ← recurse (.expr callee) frame
  if callee.isCallable then
    match ← arguments recurse frame args with
    | .error message => return .error message
    | .ok args => call recurse callee args (some site)
  else lift (Machine.notCallable callee (some site))

def expr : Expr → HostM Value
  | .name ident => do
    let store := (← get).store
    return (store.resolve frame ident.name).getD (.error ("identifier not found: " ++ ident.name))
  | .integer _ value => return .integer value
  | .boolean _ value => return .boolean value
  | .string _ value => return .string value
  | .unary _ operator right =>
    unlessError (recurse (.expr right) frame) fun right => attempt (unary operator right)
  | .binary _ operator left right =>
    unlessError (recurse (.expr left) frame) fun left =>
      unlessError (recurse (.expr right) frame) fun right => attempt (binary operator left right)
  | .function _ params body => lift (Machine.closure params body frame)
  | .call site callee args => callExpr recurse frame site callee args
  | .array _ elements => do
    match ← arguments recurse frame elements with
    | .error message => return .error message
    | .ok values => return .array values
  | .index _ left index =>
    unlessError (recurse (.expr left) frame) fun left =>
      unlessError (recurse (.expr index) frame) fun index => attempt (Host.index left index)
  | .hash _ pairs => entries recurse frame [] pairs

def stmt : Stmt → HostM Value
  | .bind _ name value => unlessError (recurse (.expr value) frame) (bind frame name.name)
  | .ret _ value => return .returned (← recurse (.expr value) frame)
  | .branch _ condition consequence alternative =>
    unlessError (recurse (.expr condition) frame) fun condition =>
      if condition.isTruthy then statements recurse frame .null consequence.statements
      else
        match alternative with
        | some alternative => statements recurse frame .null alternative.statements
        | none => return .null
  | .expr _ value => recurse (.expr value) frame

end Rules

def node (recurse : Node → FrameId → HostM Value) (node : Node) (frame : FrameId) : HostM Value :=
  match node with
  | .block block => statements recurse frame .null block.statements
  | .stmt s => stmt recurse frame s
  | .expr e => expr recurse frame e

def evalWithin : Nat → Node → FrameId → HostM Value
  | 0 => fun node _ => throw (.fault (.tooDeep node.span))
  | depth + 1 => node (evalWithin depth)

def evaluate (program : Block) (frame : FrameId) : HostM Value := do
  return (← evalWithin evaluationLimit (.block program) frame).unwrap

end Host

namespace Host

end Host

end MonkeyLang
