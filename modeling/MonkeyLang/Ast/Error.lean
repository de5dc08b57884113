import MonkeyLang.Integer
import MonkeyLang.Token.Error

namespace MonkeyLang

/-- The most digits that an integer literal may have, leading zeros included. -/
def maxDigits : Nat := 4300

inductive Expectation where
  | token (kind : TokenKind)
  | expression
  | smallInteger
deriving DecidableEq, Repr

namespace Expectation

def describe : Expectation → String
  | token .eof => "eof"
  | token .identifier => "identifier"
  | token .integer => "integer"
  | token .string => "string"
  | token kind => Text.quoted (kind.spelling?.getD "")
  | expression => "expression"
  | smallInteger => "integer literal in 64-bit range"

end Expectation

def Token.describe (token : Token) : String :=
  if token.kind = .eof then "end of input"
  else token.kind.name ++ " " ++ Text.quoted token.literal

inductive ParseError where
  | lexical (error : LexError)
  | unexpected (expected : Expectation) (found : Token)
  | tooManyDigits (digits : Nat)
  | nestingTooDeep (found : Token)
deriving DecidableEq, Repr

namespace ParseError

def message : ParseError → String
  | lexical error => error.message
  | unexpected expected found => s!"expected {expected.describe}, found {found.describe}"
  | tooManyDigits digits =>
    s!"Exceeds the limit ({maxDigits} digits) for integer string conversion: value has " ++
      s!"{digits} digits; use sys.set_int_max_str_digits() to increase the limit"
  | nestingTooDeep _ => "input nested too deeply"

def kind : ParseError → String
  | lexical error => error.kind
  | unexpected _ _ => "UnexpectedToken"
  | tooManyDigits _ => "ValueError"
  | nestingTooDeep _ => "NestingTooDeep"

def isInternal : ParseError → Bool
  | lexical error => error.isInternal
  | tooManyDigits _ => true
  | unexpected _ _ | nestingTooDeep _ => false

def span? : ParseError → Option Span
  | lexical error => error.span?
  | unexpected _ found | nestingTooDeep found => some found.span
  | tooManyDigits _ => none

end ParseError

end MonkeyLang
