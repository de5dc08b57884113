import MonkeyLang.Token.Basic

namespace MonkeyLang

inductive LexError where
  | unsupported (char : Char) (span : Span)
  | invalidEscape (char : Char) (span : Span)
  /-- A token begins on one line and ends on another. -/
  | multiLine (first last : Nat)
deriving DecidableEq, Repr

namespace LexError

def message : LexError → String
  | unsupported char _ => "unsupported token " ++ Text.quoted char.toString
  | invalidEscape char _ => "invalid escape character " ++ Text.quoted char.toString
  | multiLine first last => s!"multi-line tokens are not supported (lines {first}-{last})"

def kind : LexError → String
  | unsupported _ _ => "UnsupportedToken"
  | invalidEscape _ _ => "InvalidEscapeCharacter"
  | multiLine _ _ => "ValueError"

def isInternal : LexError → Bool
  | multiLine _ _ => true
  | unsupported _ _ | invalidEscape _ _ => false

def span? : LexError → Option Span
  | unsupported _ span => some span
  | invalidEscape _ span => some span
  | multiLine _ _ => none

end LexError

def Span.within (start stop first last : Nat) : Except LexError Span :=
  if first = last then .ok ⟨first, start, stop⟩ else .error (.multiLine first last)

end MonkeyLang
