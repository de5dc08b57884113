import MonkeyLang.Ast.Printer
import MonkeyLang.Value.Basic

namespace MonkeyLang

def displayIndent : Nat := 2

namespace Key

def display : Key → String
  | integer value => toString value
  | boolean value => if value then "true" else "false"
  | string value => "\"" ++ value ++ "\""

def debug : Key → String
  | integer value => "Int(" ++ toString value ++ ")"
  | boolean value => "Bool(" ++ (if value then "true" else "false") ++ ")"
  | string value => "String(" ++ Text.literal value ++ ")"

end Key

namespace Closure

def print (width : Nat) (level : Int) (closure : Closure) : String :=
  "fn(" ++ Ident.printAll closure.params ++ ") " ++ closure.body.print width level

def display (closure : Closure) : String :=
  closure.print displayIndent 0

def debug (closure : Closure) : String :=
  "Function \x7b params: [" ++ Ident.printAll closure.params ++ "] \x7d"

end Closure

mutual

def Value.display : Value → String
  | .null => "Null"
  | .integer value => toString value
  | .boolean value => if value then "true" else "false"
  | .string value => "\"" ++ value ++ "\""
  | .array [] => "[]"
  | .array (v :: vs) => "[ " ++ ", ".intercalate (v.display :: Value.displayAll vs) ++ " ]"
  | .hash [] => "\x7b\x7d"
  | .hash ((k, v) :: es) =>
    "\x7b " ++ ", ".intercalate ((k.display ++ ": " ++ v.display) :: Value.displayEntries es) ++ " \x7d"
  | .function closure => closure.display
  | .builtin op _ => "builtin " ++ op.name
  | .returned value => value.display
  | .error message => "Error: " ++ message

def Value.displayAll : List Value → List String
  | [] => []
  | v :: vs => v.display :: Value.displayAll vs

def Value.displayEntries : List (Key × Value) → List String
  | [] => []
  | (k, v) :: es => (k.display ++ ": " ++ v.display) :: Value.displayEntries es

end

mutual

def Value.debug : Value → String
  | .null => "Null"
  | .integer value => "Int(" ++ toString value ++ ")"
  | .boolean value => "Bool(" ++ (if value then "true" else "false") ++ ")"
  | .string value => "String(" ++ Text.literal value ++ ")"
  | .array elements => "Array([" ++ ", ".intercalate (Value.debugAll elements) ++ "])"
  | .hash entries => "Hash(\x7b" ++ ", ".intercalate (Value.debugEntries entries) ++ "\x7d)"
  | .function closure => closure.debug
  | .builtin op _ =>
    "BuiltIn \x7b name: \"" ++ op.name ++ "\", arity: " ++ toString op.arity ++ " \x7d"
  | .returned value => "Return(" ++ value.debug ++ ")"
  | .error message => "Error(" ++ Text.literal message ++ ")"

def Value.debugAll : List Value → List String
  | [] => []
  | v :: vs => v.debug :: Value.debugAll vs

def Value.debugEntries : List (Key × Value) → List String
  | [] => []
  | (k, v) :: es => (k.debug ++ ": " ++ v.debug) :: Value.debugEntries es

end

mutual

/-- The debug form of a value in which at most so many arrays, hashes and wrappers stand inside one
another. -/
def Value.debugWithin (levels : Nat) : Value → Option String
  | .array elements =>
    match levels with
    | 0 => none
    | levels + 1 => do
      let items ← Value.debugAllWithin levels elements
      return "Array([" ++ ", ".intercalate items ++ "])"
  | .hash entries =>
    match levels with
    | 0 => none
    | levels + 1 => do
      let items ← Value.debugEntriesWithin levels entries
      return "Hash(\x7b" ++ ", ".intercalate items ++ "\x7d)"
  | .returned value =>
    match levels with
    | 0 => none
    | levels + 1 => return "Return(" ++ (← value.debugWithin levels) ++ ")"
  | value => return value.debug

def Value.debugAllWithin (levels : Nat) : List Value → Option (List String)
  | [] => return []
  | v :: vs => return (← v.debugWithin levels) :: (← Value.debugAllWithin levels vs)

def Value.debugEntriesWithin (levels : Nat) : List (Key × Value) → Option (List String)
  | [] => return []
  | (k, v) :: es =>
    return (k.debug ++ ": " ++ (← v.debugWithin levels)) :: (← Value.debugEntriesWithin levels es)

end

end MonkeyLang
