import MonkeyLang.Text.Align
import MonkeyLang.Text.Escape
import MonkeyLang.Token.Basic

namespace MonkeyLang

def Token.text (token : Token) : String :=
  if token.kind = .string then Text.literal token.literal else token.literal

namespace Layout

def append (token : Token) (line : String) : String :=
  line ++ Text.spaces (token.span.start - line.length) ++ token.text

def place (lines : Array String) (token : Token) : Array String :=
  (lines ++ Array.replicate (token.span.line + 1 - lines.size) "").modify token.span.line
    (append token)

end Layout

/-- The text in which every token up to the end of input stands at its span. -/
def detokenize (tokens : List Token) : String :=
  "\n".intercalate ((tokens.takeWhile (·.kind ≠ .eof)).foldl Layout.place #[""]).toList

end MonkeyLang
