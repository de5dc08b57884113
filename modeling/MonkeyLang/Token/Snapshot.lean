import MonkeyLang.Text.Align
import MonkeyLang.Text.Rows
import MonkeyLang.Token.Stream

namespace MonkeyLang.Snapshot

def tokenRow (token : Token) : String :=
  let width := max (token.span.stop - token.span.start) 1
  Text.spaces token.span.start ++ String.ofList (List.replicate width '^') ++ " " ++ token.render

def rows (lines : Array String) : (shown : Option Nat) → List Token → List String
  | _, [] => []
  | shown, token :: tokens =>
    let line := token.span.line
    let heading := if shown = some line then [] else lines[line]?.toList
    heading ++ tokenRow token :: rows lines (some line) tokens

def ofSource (source : String) : Except LexError String :=
  (tokenize source).map fun tokens =>
    "\n".intercalate (rows (Text.lines source).toArray none tokens) ++ "\n"

end MonkeyLang.Snapshot
