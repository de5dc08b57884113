import MonkeyLang.Data.Basic
import MonkeyLang.Text.Align
import MonkeyLang.Text.Hex

namespace MonkeyLang.Json

inductive Layout where
  | compact
  | indented
deriving DecidableEq, Repr

def Layout.edge (layout : Layout) (level : Nat) : String :=
  match layout with
  | compact => ""
  | indented => "\n" ++ Text.spaces (2 * level)

def Layout.between (layout : Layout) (level : Nat) : String :=
  match layout with
  | compact => ", "
  | indented => ",\n" ++ Text.spaces (2 * level)

def escapeChar (c : Char) : List Char :=
  match c with
  | '"' => ['\\', '"']
  | '\\' => ['\\', '\\']
  | '\n' => ['\\', 'n']
  | '\r' => ['\\', 'r']
  | '\t' => ['\\', 't']
  | '\x08' => ['\\', 'b']
  | '\x0c' => ['\\', 'f']
  | c => if c.toNat < 0x20 then '\\' :: 'u' :: Text.hexDigits .small 4 c.toNat else [c]

def string (text : String) : String :=
  "\"" ++ String.ofList (text.toList.flatMap escapeChar) ++ "\""

mutual

def write (layout : Layout) (level : Nat) : Data → String
  | .null => "null"
  | .integer value => toString value
  | .boolean value => if value then "true" else "false"
  | .string value => string value
  | .list [] => "[]"
  | .list (d :: ds) =>
    "[" ++ layout.edge (level + 1) ++ write layout (level + 1) d ++ writeItems layout (level + 1) ds ++
      layout.edge level ++ "]"
  | .map [] => "\x7b\x7d"
  | .map ((k, d) :: es) =>
    "\x7b" ++ layout.edge (level + 1) ++ string k ++ ": " ++ write layout (level + 1) d ++
      writeEntries layout (level + 1) es ++ layout.edge level ++ "\x7d"

def writeItems (layout : Layout) (level : Nat) : List Data → String
  | [] => ""
  | d :: ds => layout.between level ++ write layout level d ++ writeItems layout level ds

def writeEntries (layout : Layout) (level : Nat) : List (String × Data) → String
  | [] => ""
  | (k, d) :: es =>
    layout.between level ++ string k ++ ": " ++ write layout level d ++ writeEntries layout level es

end

def render (layout : Layout) (data : Data) : String :=
  write layout 0 data

end MonkeyLang.Json
