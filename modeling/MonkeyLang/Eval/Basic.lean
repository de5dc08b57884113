import MonkeyLang.Eval.Machine

/-!
# Evaluation

Evaluates blocks, statements and expressions in a frame. `evalNode` says what each kind of node does
and takes the evaluation of the nodes inside it as an argument; `evalWithin` ties the knot, with its
first argument bounding the nesting. The branches of a conditional belong to its own level.

A block ends at the first statement whose value is a wrapped return value, and passes it on wrapped;
a call takes the wrapper off. An operand or argument that is an error is the result of the whole
expression, and what stands behind it is not evaluated.
-/

namespace MonkeyLang

inductive Node where
  | block (block : Block)
  | stmt (stmt : Stmt)
  | expr (expr : Expr)

def Node.span : Node → Span
  | .block b => b.span
  | .stmt s => s.span
  | .expr e => e.span

namespace Eval

/-- Goes on with a value unless it is an error, which is then the result. -/
def unlessError (value : EvalM Value) (next : Value → EvalM Value) : EvalM Value := do
  match ← value with
  | .error message => return .error message
  | value => next value

section Rules

variable (recurse : Node → FrameId → EvalM Value) (frame : FrameId)

/-- Evaluates statements in order up to the first that returns; the value is that of the last one
evaluated, or `result` if there is none. -/
def statements (result : Value) : List Stmt → EvalM Value
  | [] => return result
  | s :: ss => do
    match ← recurse (.stmt s) frame with
    | .returned value => return .returned value
    | value => statements value ss

def arguments : List Expr → EvalM (Except String (List Value))
  | [] => return .ok []
  | e :: es => do
    match ← recurse (.expr e) frame with
    | .error message => return .error message
    | value => return (← arguments es).map (value :: ·)

/-- Adds the entries of a hash literal from left to right; a key is checked before its value is
evaluated. -/
def entries (done : List (Key × Value)) : List (Expr × Expr) → EvalM Value
  | [] => return .hash done
  | (k, v) :: pairs =>
    unlessError (recurse (.expr k) frame) fun key =>
      match key.key? with
      | none => return key.unusableKey
      | some key =>
        unlessError (recurse (.expr v) frame) fun value =>
          entries (Table.insert key value done) pairs

def bindParams : List Ident → List Value → EvalM Unit
  | param :: params, argument :: rest => do
    let _ ← Machine.bind frame param.name argument
    bindParams params rest
  | _, _ => return ()

def callBuiltin (op : Builtin) (arguments : List Value) : EvalM Value :=
  if arguments.length = op.arity then do
    Machine.record (.builtin op arguments.length)
    Machine.during ⟨op.name, arguments⟩ (return op.apply arguments)
  else return op.wrongArity arguments.length

/-- A built-in evaluates nothing, so its own call, which is listed while it works, leaves no mark. -/
theorem callBuiltin_eq (op : Builtin) (arguments : List Value) :
    callBuiltin op arguments = (do
      if arguments.length = op.arity then
        Machine.record (.builtin op arguments.length)
      return op.apply arguments) := by
  by_cases harity : arguments.length = op.arity
  · rw [callBuiltin, if_pos harity, if_pos harity]
    rfl
  · rw [callBuiltin, if_neg harity, if_neg harity, Builtin.apply_of_arity_ne harity]

/-- Calls a value. A function's body is evaluated in a new frame inside the function's own scope, not
inside the caller's. -/
def call (callee : Value) (arguments : List Value) (site : Option Span) : EvalM Value :=
  match callee with
  | .function closure => do
    let frame ← Machine.child (some closure.scope)
    bindParams frame closure.params arguments
    Machine.record (.function closure arguments.length)
    let result ← Machine.during ⟨"<fn>", arguments⟩ (recurse (.block closure.body) frame)
    return result.unwrap
  | .builtin op _ => callBuiltin op arguments
  | callee => Machine.notCallable callee site

def callExpr (site : Span) (callee : Expr) (args : List Expr) : EvalM Value := do
  let callee ← recurse (.expr callee) frame
  if callee.isCallable then
    match ← arguments recurse frame args with
    | .error message => return .error message
    | .ok args => call recurse callee args (some site)
  else Machine.notCallable callee (some site)

def expr : Expr → EvalM Value
  | .name ident => do
    let store := (← get).store
    return (store.resolve frame ident.name).getD (.error ("identifier not found: " ++ ident.name))
  | .integer _ value => return .integer value
  | .boolean _ value => return .boolean value
  | .string _ value => return .string value
  | .unary _ operator right =>
    unlessError (recurse (.expr right) frame) fun right => return .unary operator right
  | .binary _ operator left right =>
    unlessError (recurse (.expr left) frame) fun left =>
      unlessError (recurse (.expr right) frame) fun right => return .binary operator left right
  | .function _ params body => Machine.closure params body frame
  | .call site callee args => callExpr recurse frame site callee args
  | .array _ elements => do
    match ← arguments recurse frame elements with
    | .error message => return .error message
    | .ok values => return .array values
  | .index _ left index =>
    unlessError (recurse (.expr left) frame) fun left =>
      unlessError (recurse (.expr index) frame) fun index => return .index left index
  | .hash _ pairs => entries recurse frame [] pairs

def stmt : Stmt → EvalM Value
  | .bind _ name value => unlessError (recurse (.expr value) frame) (Machine.bind frame name.name)
  | .ret _ value => return .returned (← recurse (.expr value) frame)
  | .branch _ condition consequence alternative =>
    unlessError (recurse (.expr condition) frame) fun condition =>
      if condition.isTruthy then statements recurse frame .null consequence.statements
      else
        match alternative with
        | some alternative => statements recurse frame .null alternative.statements
        | none => return .null
  | .expr _ value => recurse (.expr value) frame

end Rules

def node (recurse : Node → FrameId → EvalM Value) (node : Node) (frame : FrameId) : EvalM Value :=
  match node with
  | .block block => statements recurse frame .null block.statements
  | .stmt s => stmt recurse frame s
  | .expr e => expr recurse frame e

end Eval

/-- Evaluates a node in a frame, with the nesting of evaluations bounded by `depth`. -/
def evalWithin : Nat → Node → FrameId → EvalM Value
  | 0 => fun node _ => throw (.tooDeep node.span)
  | depth + 1 => Eval.node (evalWithin depth)

def evaluationLimit : Nat := 30000

def evaluate (program : Block) (frame : FrameId) : EvalM Value := do
  return (← evalWithin evaluationLimit (.block program) frame).unwrap

def callValue (callee : Value) (arguments : List Value) : EvalM Value :=
  Eval.call (evalWithin evaluationLimit) callee arguments none

end MonkeyLang
