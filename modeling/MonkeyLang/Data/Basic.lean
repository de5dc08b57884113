import MonkeyLang.Value.Printer

namespace MonkeyLang

inductive Data where
  | null
  | integer (value : Int)
  | boolean (value : Bool)
  | string (value : String)
  | list (items : List Data)
  | map (entries : List (String × Data))

instance : Inhabited Data := ⟨.null⟩

inductive SerializeError where
  | collision (key : String)
  | unsupportedFormat (name : Option String)
deriving DecidableEq, Repr

namespace SerializeError

def message : SerializeError → String
  | collision key => "hash keys collide after conversion: " ++ Text.quoted key
  | unsupportedFormat name =>
    let name := match name with
      | some name => Text.quoted name
      | none => "None"
    "Unsupported format: " ++ name ++ " (expected one of json, yaml)"

end SerializeError

def Key.text : Key → String
  | .string value => value
  | key => key.display

mutual

def Value.toData : Value → Except SerializeError Data
  | .null => .ok .null
  | .integer value => .ok (.integer value)
  | .boolean value => .ok (.boolean value)
  | .string value => .ok (.string value)
  | .array elements => return .list (← Value.toDataAll elements)
  | .hash entries => return .map (← Value.toDataEntries [] entries)
  | .function closure => .ok (.string closure.display)
  | .builtin op owner => .ok (.string (Value.builtin op owner).display)
  | .returned value => value.toData
  | .error message => .ok (.map [("error", .string message)])

def Value.toDataAll : List Value → Except SerializeError (List Data)
  | [] => .ok []
  | v :: vs => do
    let first ← v.toData
    return first :: (← Value.toDataAll vs)

/-- The entries of a map; the keys in `seen` stand before them. -/
def Value.toDataEntries (seen : List String) :
    List (Key × Value) → Except SerializeError (List (String × Data))
  | [] => .ok []
  | (k, v) :: es =>
    if k.text ∈ seen then .error (.collision k.text)
    else do
      let first ← v.toData
      return (k.text, first) :: (← Value.toDataEntries (k.text :: seen) es)

end

end MonkeyLang
