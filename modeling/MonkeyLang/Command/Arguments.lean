import MonkeyLang.Data.Format

namespace MonkeyLang.Command

inductive Format where
  | text
  | debug
  | data (format : DataFormat)
deriving DecidableEq, Repr

namespace Format

def name : Format → String
  | text => "text"
  | debug => "debug"
  | data .json => "json"
  | data .yaml => "yaml"

def all : List Format :=
  [text, debug, data .json, data .yaml]

def ofName? (name : String) : Option Format :=
  all.find? (·.name == name)

end Format

inductive Mode where
  | run
  | tokens
  | tree
deriving DecidableEq, Repr

/-- The choices made so far. No file is named while its name is empty. -/
structure Options where
  file : String
  format : Format
  mode : Mode
deriving DecidableEq, Repr

def Options.initial : Options := ⟨"", .text, .run⟩

inductive Refusal where
  | help
  | noFileAfter (flag : String)
  | noFormat
  | unknownFlag (word : String)
  | secondFile (word : String)
  | noFile
deriving DecidableEq, Repr

namespace Refusal

def message : Refusal → String
  | help => ""
  | noFileAfter flag => s!"monkey: {flag} requires a file argument"
  | noFormat =>
    "monkey: --format expects one of " ++ ", ".intercalate (Format.all.map Format.name)
  | unknownFlag word => s!"monkey: unknown flag '{word}'"
  | secondFile word => s!"monkey: unexpected argument '{word}'"
  | noFile => "monkey: missing file argument"

end Refusal

def readWords (options : Options) : List String → Except Refusal Options
  | [] => .ok options
  | word :: words =>
    if word = "-h" || word = "--help" then .error .help
    else if word = "-i" || word = "--input" then
      match words with
      | [] => .error (.noFileAfter word)
      | file :: words => readWords { options with file } words
    else if word = "--format" then
      match words with
      | [] => .error .noFormat
      | name :: words =>
        match Format.ofName? name with
        | some format => readWords { options with format } words
        | none => .error .noFormat
    else if word = "--tokens" then readWords { options with mode := .tokens } words
    else if word = "--ast" then readWords { options with mode := .tree } words
    else if word.startsWith "-" then .error (.unknownFlag word)
    else if options.file = "" then readWords { options with file := word } words
    else .error (.secondFile word)

def Options.read (words : List String) : Except Refusal Options := do
  let options ← readWords .initial words
  if options.file = "" && options.mode != .run then throw .noFile
  return options

end MonkeyLang.Command
