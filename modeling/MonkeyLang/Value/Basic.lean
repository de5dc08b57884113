import MonkeyLang.Ast.Basic
import MonkeyLang.Table

namespace MonkeyLang

abbrev FrameId := Nat

inductive Builtin where
  | first
  | last
  | len
  | push
  | put
  | rest
deriving DecidableEq, Repr, Inhabited

namespace Builtin

/-- The built-in functions in alphabetical order, which is the order of installation. -/
def all : List Builtin :=
  [.first, .last, .len, .push, .put, .rest]

theorem mem_all (builtin : Builtin) : builtin ∈ all := by
  cases builtin <;> decide

def name : Builtin → String
  | first => "first"
  | last => "last"
  | len => "len"
  | push => "push"
  | put => "put"
  | rest => "rest"

def arity : Builtin → Nat
  | first | last | len | rest => 1
  | push => 2
  | put => 3

end Builtin

structure Closure where
  /-- Told apart from every other evaluation of a literal. -/
  id : Nat
  params : List Ident
  body : Block
  scope : FrameId

inductive Key where
  | integer (value : Int)
  | boolean (value : Bool)
  | string (value : String)
deriving DecidableEq, Repr, Inhabited

inductive Value where
  | null
  | integer (value : Int)
  | boolean (value : Bool)
  | string (value : String)
  | array (elements : List Value)
  | hash (entries : List (Key × Value))
  | function (closure : Closure)
  | builtin (op : Builtin) (owner : FrameId)
  | returned (value : Value)
  | error (message : String)

instance : Inhabited Value := ⟨.null⟩

namespace Key

def toValue : Key → Value
  | integer value => .integer value
  | boolean value => .boolean value
  | string value => .string value

end Key

namespace Value

def typeName : Value → String
  | null => "NULL"
  | integer _ => "INTEGER"
  | boolean _ => "BOOLEAN"
  | string _ => "STRING"
  | array _ => "ARRAY"
  | hash _ => "HASH"
  | function _ => "FUNCTION"
  | builtin _ _ => "BUILTIN"
  | returned _ => "RETURN_VALUE"
  | error _ => "ERROR"

def key? : Value → Option Key
  | integer value => some (.integer value)
  | boolean value => some (.boolean value)
  | string value => some (.string value)
  | _ => none

theorem key?_toValue (key : Key) : key.toValue.key? = some key := by
  cases key <;> rfl

def isTruthy : Value → Bool
  | null => false
  | integer value => value != 0
  | boolean value => value
  | _ => true

def isError : Value → Bool
  | error _ => true
  | _ => false

def isCallable : Value → Bool
  | function _ | builtin _ _ => true
  | _ => false

def unwrap : Value → Value
  | returned value => value
  | value => value

end Value

end MonkeyLang
