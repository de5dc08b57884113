import MonkeyLang.Integer
import MonkeyLang.Value.Printer

namespace MonkeyLang

def checked (operator : Operator) (left right result : Int) : Value :=
  if inRange result then .integer result
  else .error s!"integer overflow: {left} {operator.symbol} {right}"

def integerOperation (operator : Operator) (left right : Int) : Value :=
  match operator with
  | .add => checked operator left right (left + right)
  | .sub => checked operator left right (left - right)
  | .mul => checked operator left right (left * right)
  | .div =>
    if right = 0 then .error "division by zero" else checked operator left right (left.tdiv right)
  | .less => .boolean (left < right)
  | .greater => .boolean (right < left)
  | .lessEqual => .boolean (left ≤ right)
  | .greaterEqual => .boolean (right ≤ left)
  | .equal => .boolean (left = right)
  | .notEqual => .boolean (left ≠ right)
  | .not | .neg => .error s!"unknown operator: INTEGER {operator.symbol} INTEGER"

namespace Value

def append (operator : Operator) (left : String) (right : Value) (text : String) : Value :=
  if operator = .add then .string (left ++ text)
  else .error s!"unknown operator: STRING {operator.symbol} {right.typeName}"

def binary (operator : Operator) : (left right : Value) → Value
  | .integer left, .integer right => integerOperation operator left right
  | .string left, .string right => append operator left (.string right) right
  | .string left, .integer right => append operator left (.integer right) (toString right)
  | left, right => .error s!"Expected number, got {left.debug} and {right.debug}"

def unary (operator : Operator) (right : Value) : Value :=
  match operator, right with
  | .not, right => .boolean !right.isTruthy
  | .neg, .integer value =>
    if inRange (-value) then .integer (-value) else .error s!"integer overflow: -{value}"
  | operator, right => .error s!"unknown operator: {operator.symbol}{right.typeName}"

def unusableKey (value : Value) : Value :=
  .error s!"unusable as hash key: {value.typeName}"

/-- An element of an array, null outside of it, or the entry of a hash, which must be there. -/
def index : (left index : Value) → Value
  | .array elements, .integer index =>
    if index < 0 then .null else elements.getD index.toNat .null
  | .array _, index => .error s!"Invalid index value: {index.debug}"
  | .hash entries, index =>
    match index.key? with
    | none => unusableKey index
    | some key => (entries.lookup key).getD (.error s!"key not found: {index.debug}")
  | left, _ => .error s!"Can not index object type: {left.typeName}"

end Value

end MonkeyLang
