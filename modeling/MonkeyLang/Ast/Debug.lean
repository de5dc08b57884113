import MonkeyLang.Ast.Basic
import MonkeyLang.Text.Quoted

namespace MonkeyLang

def Operator.debug (operator : Operator) : String :=
  let name := operator.word.toUpper.map fun c => if c = '-' then '_' else c
  s!"<Operator.{name}: {Text.quoted operator.word}>"

def Ident.debug (ident : Ident) : String :=
  s!"Identifier(name={Text.quoted ident.name})"

namespace Debug

def list (items : List String) : String :=
  "[" ++ ", ".intercalate items ++ "]"

def boolean (value : Bool) : String :=
  if value then "True" else "False"

end Debug

mutual

def Expr.debug : Expr → String
  | .name ident => ident.debug
  | .integer _ value => s!"IntegerLiteral(value={value})"
  | .boolean _ value => s!"BooleanLiteral(value={Debug.boolean value})"
  | .string _ value => s!"StringLiteral(value={Text.quoted value})"
  | .unary _ operator right => s!"PrefixExpression(operator={operator.debug}, right={right.debug})"
  | .binary _ operator left right =>
    s!"InfixExpression(operator={operator.debug}, left={left.debug}, right={right.debug})"
  | .function _ params body =>
    s!"FunctionLiteral(params={Debug.list (params.map Ident.debug)}, body={body.debug})"
  | .call _ callee arguments =>
    s!"CallExpression(function={callee.debug}, arguments={Debug.list (Expr.debugAll arguments)})"
  | .array _ elements => s!"ArrayLiteral(elements={Debug.list (Expr.debugAll elements)})"
  | .index _ left index => s!"IndexExpression(left={left.debug}, index={index.debug})"
  | .hash _ pairs => s!"HashLiteral(pairs={Debug.list (Expr.debugPairs pairs)})"

def Expr.debugAll : List Expr → List String
  | [] => []
  | e :: es => e.debug :: Expr.debugAll es

def Expr.debugPairs : List (Expr × Expr) → List String
  | [] => []
  | (key, value) :: pairs => s!"({key.debug}, {value.debug})" :: Expr.debugPairs pairs

def Stmt.debug : Stmt → String
  | .bind _ name value => s!"LetStatement(name={name.debug}, value={value.debug})"
  | .ret _ value => s!"ReturnStatement(value={value.debug})"
  | .branch _ condition consequence none =>
    s!"IfStatement(condition={condition.debug}, consequence={consequence.debug}, alternative=None)"
  | .branch _ condition consequence (some alternative) =>
    s!"IfStatement(condition={condition.debug}, consequence={consequence.debug}, " ++
      s!"alternative={alternative.debug})"
  | .expr _ value => s!"ExpressionStatement(expression={value.debug})"

def Stmt.debugAll : List Stmt → List String
  | [] => []
  | s :: ss => s.debug :: Stmt.debugAll ss

def Block.debug : Block → String
  | .mk _ statements => s!"Program(statements={Debug.list (Stmt.debugAll statements)})"

end

end MonkeyLang
