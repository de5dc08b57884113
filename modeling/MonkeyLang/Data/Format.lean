import MonkeyLang.Data.Json

namespace MonkeyLang

inductive DataFormat where
  | json
  | yaml
deriving DecidableEq, Repr

namespace DataFormat

def ofName? (name : String) : Option DataFormat :=
  match name.toLower with
  | "json" => some json
  | "yaml" => some yaml
  | _ => none

def render (writeYaml : Data → String) (layout : Json.Layout) (data : Data) : DataFormat → String
  | json => Json.render layout data
  | yaml => writeYaml data

end DataFormat

namespace Value

variable (writeYaml : Data → String)

def serialize (format : DataFormat) (layout : Json.Layout) (value : Value) :
    Except SerializeError String := do
  return format.render writeYaml layout (← value.toData)

/-- The value in the format of the given name. The value is converted before the name is looked at. -/
def serializeAs (name : Option String) (layout : Json.Layout) (value : Value) :
    Except SerializeError String := do
  let data ← value.toData
  match DataFormat.ofName? (name.getD "") with
  | some format => return format.render writeYaml layout data
  | none => throw (.unsupportedFormat name)

end Value

end MonkeyLang
