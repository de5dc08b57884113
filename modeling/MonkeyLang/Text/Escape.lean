namespace MonkeyLang.Text

def escapeLetter? : Char → Option Char
  | '\n' => some 'n'
  | '\t' => some 't'
  | '"' => some '"'
  | '\\' => some '\\'
  | _ => none

def unescape? : Char → Option Char
  | 'n' => some '\n'
  | 't' => some '\t'
  | '"' => some '"'
  | '\\' => some '\\'
  | _ => none

theorem unescape?_of_escapeLetter? {c e : Char} (h : escapeLetter? c = some e) :
    unescape? e = some c := by
  unfold escapeLetter? at h
  split at h <;> simp_all [unescape?] <;> subst h <;> rfl

def escapeChar (c : Char) : List Char :=
  match escapeLetter? c with
  | some e => ['\\', e]
  | none => [c]

def escapeChars (text : List Char) : List Char :=
  text.flatMap escapeChar

def escape (text : String) : String :=
  String.ofList (escapeChars text.toList)

def literal (text : String) : String :=
  "\"" ++ escape text ++ "\""

end MonkeyLang.Text
