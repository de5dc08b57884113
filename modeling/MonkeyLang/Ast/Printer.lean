import MonkeyLang.Ast.Basic
import MonkeyLang.Text.Align
import MonkeyLang.Text.Escape

namespace MonkeyLang

def indentation (width : Nat) (level : Int) : String :=
  Text.spaces (width * level.toNat)

def Ident.printAll (params : List Ident) : String :=
  ", ".intercalate (params.map (·.name))

mutual

def Expr.print (width : Nat) (level : Int) : Expr → String
  | .name ident => ident.name
  | .integer _ value => toString value
  | .boolean _ value => if value then "true" else "false"
  | .string _ value => Text.literal value
  | .unary _ operator right => "(" ++ operator.symbol ++ right.print width level ++ ")"
  | .binary _ operator left right =>
    "(" ++ left.print width level ++ " " ++ operator.symbol ++ " " ++ right.print width level ++ ")"
  | .function _ params body =>
    "fn(" ++ Ident.printAll params ++ ") " ++ body.print width level
  | .call _ callee arguments =>
    callee.print width level ++ "(" ++ ", ".intercalate (Expr.printAll width level arguments) ++ ")"
  | .array _ elements => "[" ++ ", ".intercalate (Expr.printAll width level elements) ++ "]"
  | .index _ left index =>
    "(" ++ left.print width level ++ "[" ++ index.print width level ++ "])"
  | .hash _ pairs => "\x7b" ++ ", ".intercalate (Expr.printPairs width level pairs) ++ "\x7d"

def Expr.printAll (width : Nat) (level : Int) : List Expr → List String
  | [] => []
  | e :: es => e.print width level :: Expr.printAll width level es

def Expr.printPairs (width : Nat) (level : Int) : List (Expr × Expr) → List String
  | [] => []
  | (key, value) :: pairs =>
    (key.print width level ++ ": " ++ value.print width level) :: Expr.printPairs width level pairs

def Stmt.print (width : Nat) (level : Int) : Stmt → String
  | .bind _ name value => "let " ++ name.name ++ " = " ++ value.print width level
  | .ret _ value => "return " ++ value.print width level
  | .branch _ condition consequence none =>
    "if (" ++ condition.print width level ++ ") " ++ consequence.print width level
  | .branch _ condition consequence (some alternative) =>
    "if (" ++ condition.print width level ++ ") " ++ consequence.print width level ++ " else " ++
      alternative.print width level
  | .expr _ value => value.print width level

def Stmt.printLines (width : Nat) (level : Int) : List Stmt → List String
  | [] => []
  | s :: ss =>
    (indentation width level ++ s.print width level ++ ";") :: Stmt.printLines width level ss

def Block.print (width : Nat) (level : Int) : Block → String
  | .mk _ [] => "\x7b\x7d"
  | .mk _ (s :: ss) =>
    "\x7b\n" ++ "\n".intercalate (Stmt.printLines width (level + 1) (s :: ss)) ++ "\n" ++
      indentation width level ++ "\x7d"

end

/-- Writes a program, a statement a line; `level` indents the blocks inside the statements only. -/
def Block.printProgram (width : Nat) (level : Int) (program : Block) : String :=
  "\n".intercalate (program.statements.map fun s => s.print width level ++ ";")

end MonkeyLang
