import MonkeyLang.Token.Basic

namespace MonkeyLang

inductive Operator where
  | not
  | neg
  | add
  | sub
  | mul
  | div
  | less
  | greater
  | lessEqual
  | greaterEqual
  | equal
  | notEqual
deriving DecidableEq, Repr, Inhabited

namespace Operator

def all : List Operator :=
  [.not, .neg, .add, .sub, .mul, .div, .less, .greater, .lessEqual, .greaterEqual, .equal, .notEqual]

theorem mem_all (operator : Operator) : operator ∈ all := by
  cases operator <;> decide

def symbol : Operator → String
  | not => "!"
  | neg => "-"
  | add => "+"
  | sub => "-"
  | mul => "*"
  | div => "/"
  | less => "<"
  | greater => ">"
  | lessEqual => "<="
  | greaterEqual => ">="
  | equal => "=="
  | notEqual => "!="

def word : Operator → String
  | not => "not"
  | neg => "neg"
  | add => "add"
  | sub => "sub"
  | mul => "mul"
  | div => "div"
  | less => "less"
  | greater => "greater"
  | lessEqual => "less-equal"
  | greaterEqual => "greater-equal"
  | equal => "equal"
  | notEqual => "not-equal"

end Operator

structure Ident where
  span : Span
  name : String
deriving DecidableEq, Repr, Inhabited

mutual

inductive Expr where
  | name (ident : Ident)
  | integer (span : Span) (value : Nat)
  | boolean (span : Span) (value : Bool)
  | string (span : Span) (value : String)
  | unary (span : Span) (operator : Operator) (right : Expr)
  | binary (span : Span) (operator : Operator) (left right : Expr)
  | function (span : Span) (params : List Ident) (body : Block)
  | call (span : Span) (callee : Expr) (arguments : List Expr)
  | array (span : Span) (elements : List Expr)
  | index (span : Span) (left index : Expr)
  | hash (span : Span) (pairs : List (Expr × Expr))

inductive Stmt where
  | bind (span : Span) (name : Ident) (value : Expr)
  | ret (span : Span) (value : Expr)
  | branch (span : Span) (condition : Expr) (consequence : Block) (alternative : Option Block)
  | expr (span : Span) (value : Expr)

inductive Block where
  | mk (span : Span) (statements : List Stmt)

end

instance : Inhabited Expr := ⟨.name default⟩
instance : Inhabited Stmt := ⟨.expr default default⟩
instance : Inhabited Block := ⟨.mk default []⟩

namespace Expr

def span : Expr → Span
  | .name ident => ident.span
  | .integer span _ | .boolean span _ | .string span _ | .unary span _ _ | .binary span _ _ _
  | .function span _ _ | .call span _ _ | .array span _ | .index span _ _ | .hash span _ => span

end Expr

namespace Stmt

def span : Stmt → Span
  | .bind span _ _ | .ret span _ | .branch span _ _ _ | .expr span _ => span

end Stmt

namespace Block

def span : Block → Span
  | .mk span _ => span

def statements : Block → List Stmt
  | .mk _ statements => statements

@[simp] theorem statements_mk (span : Span) (statements : List Stmt) :
    (mk span statements).statements = statements := rfl

end Block

def Ident.erase (ident : Ident) : Ident :=
  { ident with span := default }

mutual

def Expr.erase : Expr → Expr
  | .name ident => .name ident.erase
  | .integer _ value => .integer default value
  | .boolean _ value => .boolean default value
  | .string _ value => .string default value
  | .unary _ operator right => .unary default operator right.erase
  | .binary _ operator left right => .binary default operator left.erase right.erase
  | .function _ params body => .function default (params.map Ident.erase) body.erase
  | .call _ callee arguments => .call default callee.erase (Expr.eraseAll arguments)
  | .array _ elements => .array default (Expr.eraseAll elements)
  | .index _ left index => .index default left.erase index.erase
  | .hash _ pairs => .hash default (Expr.erasePairs pairs)

def Expr.eraseAll : List Expr → List Expr
  | [] => []
  | e :: es => e.erase :: Expr.eraseAll es

def Expr.erasePairs : List (Expr × Expr) → List (Expr × Expr)
  | [] => []
  | (key, value) :: pairs => (key.erase, value.erase) :: Expr.erasePairs pairs

def Stmt.erase : Stmt → Stmt
  | .bind _ name value => .bind default name.erase value.erase
  | .ret _ value => .ret default value.erase
  | .branch _ condition consequence none => .branch default condition.erase consequence.erase none
  | .branch _ condition consequence (some alternative) =>
    .branch default condition.erase consequence.erase (some alternative.erase)
  | .expr _ value => .expr default value.erase

def Stmt.eraseAll : List Stmt → List Stmt
  | [] => []
  | s :: ss => s.erase :: Stmt.eraseAll ss

def Block.erase : Block → Block
  | .mk _ statements => .mk default (Stmt.eraseAll statements)

end

theorem Expr.eraseAll_eq_map (es : List Expr) : Expr.eraseAll es = es.map Expr.erase := by
  induction es with
  | nil => rfl
  | cons e es ih => simp [Expr.eraseAll, ih]

theorem Expr.erasePairs_eq_map (pairs : List (Expr × Expr)) :
    Expr.erasePairs pairs = pairs.map fun (key, value) => (key.erase, value.erase) := by
  induction pairs with
  | nil => rfl
  | cons pair pairs ih => simp [Expr.erasePairs, ih]

theorem Stmt.eraseAll_eq_map (ss : List Stmt) : Stmt.eraseAll ss = ss.map Stmt.erase := by
  induction ss with
  | nil => rfl
  | cons s ss ih => simp [Stmt.eraseAll, ih]

end MonkeyLang
