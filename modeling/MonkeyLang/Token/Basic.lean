import MonkeyLang.Text.Quoted

namespace MonkeyLang

/-- A half-open range of columns on one line. -/
structure Span where
  line : Nat
  start : Nat
  stop : Nat
deriving DecidableEq, Repr, Inhabited

/-- The one-based line and column that reports name. -/
structure Location where
  line : Nat
  column : Nat
deriving DecidableEq, Repr, Inhabited

namespace Span

def location (span : Span) : Location :=
  ⟨span.line + 1, span.start + 1⟩

def render (span : Span) : String :=
  s!"[L{span.line}-{span.start}:{span.stop}]"

end Span

inductive TokenKind where
  | eof
  | identifier
  | integer
  | string
  | assign
  | plus
  | minus
  | bang
  | asterisk
  | slash
  | lessThan
  | greaterThan
  | equal
  | notEqual
  | lessThanEqual
  | greaterThanEqual
  | comma
  | colon
  | semicolon
  | leftParen
  | rightParen
  | leftBrace
  | rightBrace
  | leftBracket
  | rightBracket
  | fnWord
  | letWord
  | trueWord
  | falseWord
  | ifWord
  | elseWord
  | returnWord
deriving DecidableEq, Repr, Inhabited

namespace TokenKind

def all : List TokenKind :=
  [.eof, .identifier, .integer, .string, .assign, .plus, .minus, .bang, .asterisk, .slash, .lessThan,
    .greaterThan, .equal, .notEqual, .lessThanEqual, .greaterThanEqual, .comma, .colon, .semicolon,
    .leftParen, .rightParen, .leftBrace, .rightBrace, .leftBracket, .rightBracket, .fnWord, .letWord,
    .trueWord, .falseWord, .ifWord, .elseWord, .returnWord]

theorem mem_all (kind : TokenKind) : kind ∈ all := by
  cases kind <;> decide

def name : TokenKind → String
  | eof => "EOF"
  | identifier => "IDENTIFIER"
  | integer => "INTEGER"
  | string => "STRING"
  | assign => "ASSIGN"
  | plus => "PLUS"
  | minus => "MINUS"
  | bang => "BANG"
  | asterisk => "ASTERISK"
  | slash => "SLASH"
  | lessThan => "LESS_THAN"
  | greaterThan => "GREATER_THAN"
  | equal => "EQUAL"
  | notEqual => "NOT_EQUAL"
  | lessThanEqual => "LESS_THAN_EQUAL"
  | greaterThanEqual => "GREATER_THAN_EQUAL"
  | comma => "COMMA"
  | colon => "COLON"
  | semicolon => "SEMICOLON"
  | leftParen => "LEFT_PAREN"
  | rightParen => "RIGHT_PAREN"
  | leftBrace => "LEFT_BRACE"
  | rightBrace => "RIGHT_BRACE"
  | leftBracket => "LEFT_BRACKET"
  | rightBracket => "RIGHT_BRACKET"
  | fnWord => "FUNCTION"
  | letWord => "LET"
  | trueWord => "TRUE"
  | falseWord => "FALSE"
  | ifWord => "IF"
  | elseWord => "ELSE"
  | returnWord => "RETURN"

def spelling? : TokenKind → Option String
  | eof | identifier | integer | string => none
  | assign => some "="
  | plus => some "+"
  | minus => some "-"
  | bang => some "!"
  | asterisk => some "*"
  | slash => some "/"
  | lessThan => some "<"
  | greaterThan => some ">"
  | equal => some "=="
  | notEqual => some "!="
  | lessThanEqual => some "<="
  | greaterThanEqual => some ">="
  | comma => some ","
  | colon => some ":"
  | semicolon => some ";"
  | leftParen => some "("
  | rightParen => some ")"
  | leftBrace => some "\x7b"
  | rightBrace => some "\x7d"
  | leftBracket => some "["
  | rightBracket => some "]"
  | fnWord => some "fn"
  | letWord => some "let"
  | trueWord => some "true"
  | falseWord => some "false"
  | ifWord => some "if"
  | elseWord => some "else"
  | returnWord => some "return"

def ofWord : String → TokenKind
  | "fn" => fnWord
  | "let" => letWord
  | "true" => trueWord
  | "false" => falseWord
  | "if" => ifWord
  | "else" => elseWord
  | "return" => returnWord
  | _ => identifier

def ofMark? : Char → Option TokenKind
  | '+' => some plus
  | '-' => some minus
  | '*' => some asterisk
  | '/' => some slash
  | ';' => some semicolon
  | ':' => some colon
  | ',' => some comma
  | '(' => some leftParen
  | ')' => some rightParen
  | '{' => some leftBrace
  | '}' => some rightBrace
  | '[' => some leftBracket
  | ']' => some rightBracket
  | _ => none

def ofGrowingMark? : Char → Option (TokenKind × TokenKind)
  | '=' => some (assign, equal)
  | '!' => some (bang, notEqual)
  | '<' => some (lessThan, lessThanEqual)
  | '>' => some (greaterThan, greaterThanEqual)
  | _ => none

end TokenKind

/-- A lexical unit. The literal of a string token is its text with the escapes resolved. -/
structure Token where
  kind : TokenKind
  literal : String
  span : Span
deriving DecidableEq, Repr, Inhabited

namespace Token

def render (token : Token) : String :=
  s!"Token({token.kind.name}, {Text.quoted token.literal} {token.span.render})"

end Token

end MonkeyLang
