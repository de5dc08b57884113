import MonkeyLang.Token.Lexer

namespace MonkeyLang

/-- The tokens of a source before its end, and the end: its token, or the error met there. -/
structure TokenStream where
  tokens : List Token
  ending : Except LexError Token

namespace TokenStream

def next : TokenStream → Except LexError (Token × TokenStream)
  | ⟨[], ending⟩ => ending.map (·, ⟨[], ending⟩)
  | ⟨token :: tokens, ending⟩ => .ok (token, ⟨tokens, ending⟩)

def cons (token : Token) (stream : TokenStream) : TokenStream :=
  ⟨token :: stream.tokens, stream.ending⟩

def toList (stream : TokenStream) : Except LexError (List Token) :=
  stream.ending.map fun eof => stream.tokens ++ [eof]

def ofCursor (cursor : Cursor) : TokenStream :=
  match h : cursor.next with
  | (.error error, _) => ⟨[], .error error⟩
  | (.ok token, after) =>
    if hk : token.kind = .eof then ⟨[], .ok token⟩
    else
      have : after.rest.length < cursor.rest.length := by
        have shorter := Cursor.length_rest_next_lt (congrArg Prod.fst h) hk
        rwa [h] at shorter
      (ofCursor after).cons token
termination_by cursor.rest.length

def ofSource (source : String) : TokenStream :=
  ofCursor (.ofSource source)

end TokenStream

def tokenize (source : String) : Except LexError (List Token) :=
  (TokenStream.ofSource source).toList

end MonkeyLang
