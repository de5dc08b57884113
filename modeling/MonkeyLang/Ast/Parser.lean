import MonkeyLang.Ast.Basic
import MonkeyLang.Ast.Error
import MonkeyLang.Token.Stream

/-!
# Parser

Reads a program from a token stream by operator precedence, with two tokens in view. While an
expression is read, `current` is its last token, and the next suffix is chosen by `peek`; a
statement's reader ends on the last token of the statement.

Each production takes the readers of the expressions and blocks inside it as arguments.
`expressionWithin` and `programWithin` tie the knot: their argument `depth` bounds the nesting, and
nothing else does. Each round of a loop passes a token, so `rounds`, the number of tokens of the whole
stream, bounds every loop without cutting one short.
-/

namespace MonkeyLang

inductive Precedence where
  | lowest
  | equality
  | comparison
  | sum
  | product
  | unary
  | call
  | index
deriving DecidableEq, Repr, Inhabited

def Precedence.rank : Precedence → Nat
  | lowest => 1
  | equality => 2
  | comparison => 3
  | sum => 4
  | product => 5
  | unary => 6
  | call => 7
  | index => 8

inductive Suffix where
  | operator (operator : Operator) (precedence : Precedence)
  | call
  | index
deriving DecidableEq, Repr

namespace Suffix

def precedence : Suffix → Precedence
  | operator _ precedence => precedence
  | call => .call
  | index => .index

def ofKind? : TokenKind → Option Suffix
  | .equal => some (operator .equal .equality)
  | .notEqual => some (operator .notEqual .equality)
  | .lessThan => some (operator .less .comparison)
  | .greaterThan => some (operator .greater .comparison)
  | .lessThanEqual => some (operator .lessEqual .comparison)
  | .greaterThanEqual => some (operator .greaterEqual .comparison)
  | .plus => some (operator .add .sum)
  | .minus => some (operator .sub .sum)
  | .asterisk => some (operator .mul .product)
  | .slash => some (operator .div .product)
  | .leftParen => some call
  | .leftBracket => some index
  | _ => none

end Suffix

/-- The two tokens in view and the stream behind them. -/
structure Lookahead where
  current : Token
  peek : Token
  rest : TokenStream

abbrev Parser := StateT Lookahead (Except ParseError)

namespace Parser

/-! ## Tokens in view -/

def pull (stream : TokenStream) : Except ParseError (Token × TokenStream) :=
  stream.next.mapError .lexical

def start (stream : TokenStream) : Except ParseError Lookahead := do
  let (current, stream) ← pull stream
  let (peek, rest) ← pull stream
  return ⟨current, peek, rest⟩

def current : Parser Token := do
  return (← get).current

def peek : Parser Token := do
  return (← get).peek

def advance : Parser Unit := do
  let view ← get
  let (token, rest) ← pull view.rest
  set (⟨view.peek, token, rest⟩ : Lookahead)

def unexpected {α : Type} (expected : Expectation) (found : Token) : Parser α :=
  throw (.unexpected expected found)

def nestingTooDeep {α : Type} : Parser α := do
  throw (.nestingTooDeep (← current))

def expect (kind : TokenKind) : Parser Token := do
  let token ← peek
  if token.kind = kind then
    advance
    return token
  else unexpected (.token kind) token

/-! ## Loops -/

def moreItems {α : Type} (item : Parser α) : Nat → Parser (List α)
  | 0 => return []
  | rounds + 1 => do
    if (← peek).kind = .comma then
      advance
      let first ← item
      return first :: (← moreItems item rounds)
    else return []

/-- Reads items between commas up to the closing token, which is left as `current`. Each item's reader
starts on the token before the item. -/
def items {α : Type} (rounds : Nat) (item : Parser α) (close : TokenKind) : Parser (List α) := do
  if (← peek).kind = close then
    advance
    return []
  else
    let first ← item
    let more ← moreItems item rounds
    let _ ← expect close
    return first :: more

def skipSemicolons : Nat → Parser Unit
  | 0 => return ()
  | rounds + 1 => do
    if (← current).kind = .semicolon then
      advance
      skipSemicolons rounds

def endsBlock (token : Token) : Bool :=
  token.kind == .eof || token.kind == .rightBrace

def statements (statement : Parser Stmt) : Nat → Parser (List Stmt)
  | 0 => return []
  | rounds + 1 => do
    if endsBlock (← current) then return []
    else
      let first ← statement
      advance
      skipSemicolons rounds
      return first :: (← statements statement rounds)

/-! ## Productions -/

def block (program : Parser Block) : Parser Block := do
  advance
  let body ← program
  let last ← current
  if last.kind = .rightBrace then return body
  else unexpected (.token .rightBrace) last

def integer (token : Token) : Parser Expr :=
  if maxDigits < token.literal.length then throw (.tooManyDigits token.literal.length)
  else
    let value := Nat.ofDigitChars 10 token.literal.toList 0
    if maxInteger < value then unexpected .smallInteger token
    else return .integer token.span value

def ident : Parser Ident := do
  let token ← expect .identifier
  return ⟨token.span, token.literal⟩

section Productions

variable (rounds : Nat) (expression : Precedence → Parser Expr) (program : Parser Block)

def nextExpression : Parser Expr := do
  advance
  expression .lowest

def pair : Parser (Expr × Expr) := do
  let key ← nextExpression expression
  let _ ← expect .colon
  let value ← nextExpression expression
  return (key, value)

/-- Reads an expression that begins at `current`, up to its first suffix. -/
def operand : Parser Expr := do
  let token ← current
  match token.kind with
  | .identifier => return .name ⟨token.span, token.literal⟩
  | .integer => integer token
  | .trueWord => return .boolean token.span true
  | .falseWord => return .boolean token.span false
  | .string => return .string token.span token.literal
  | .bang =>
    advance
    return .unary token.span .not (← expression .unary)
  | .minus =>
    advance
    return .unary token.span .neg (← expression .unary)
  | .leftParen =>
    let inner ← nextExpression expression
    let _ ← expect .rightParen
    return inner
  | .fnWord =>
    let _ ← expect .leftParen
    let params ← items rounds ident .rightParen
    let _ ← expect .leftBrace
    return .function token.span params (← block program)
  | .leftBracket => return .array token.span (← items rounds (nextExpression expression) .rightBracket)
  | .leftBrace => return .hash token.span (← items rounds (pair expression) .rightBrace)
  | _ => unexpected .expression token

def suffix (left : Expr) : Suffix → Parser Expr
  | .operator operator precedence => do
    let token ← current
    advance
    return .binary token.span operator left (← expression precedence)
  | .call => do
    let token ← current
    return .call token.span left (← items rounds (nextExpression expression) .rightParen)
  | .index => do
    let token ← current
    let inner ← nextExpression expression
    let _ ← expect .rightBracket
    return .index token.span left inner

/-- Extends an expression by the suffixes that bind more tightly than the precedence. -/
def extend (precedence : Precedence) : Nat → Expr → Parser Expr
  | 0, left => return left
  | rest + 1, left => do
    match Suffix.ofKind? (← peek).kind with
    | none => return left
    | some next =>
      if precedence.rank < next.precedence.rank then
        advance
        extend precedence rest (← suffix rounds expression left next)
      else return left

def branch : Parser Stmt := do
  let token ← current
  let _ ← expect .leftParen
  let condition ← nextExpression expression
  let _ ← expect .rightParen
  let _ ← expect .leftBrace
  let consequence ← block program
  if (← peek).kind = .elseWord then
    advance
    let _ ← expect .leftBrace
    return .branch token.span condition consequence (some (← block program))
  else return .branch token.span condition consequence none

def statement : Parser Stmt := do
  let token ← current
  match token.kind with
  | .letWord =>
    let name ← ident
    let _ ← expect .assign
    return .bind token.span name (← nextExpression expression)
  | .returnWord => return .ret token.span (← nextExpression expression)
  | .ifWord => branch expression program
  | _ => return .expr token.span (← expression .lowest)

end Productions

/-! ## Nesting -/

mutual

/-- Reads the longest expression at `current` whose suffixes bind more tightly than the precedence. -/
def expressionWithin (rounds : Nat) : (depth : Nat) → Precedence → Parser Expr
  | 0, _ => nestingTooDeep
  | depth + 1, precedence => do
    let left ← operand rounds (expressionWithin rounds depth) (programWithin rounds depth)
    extend rounds (expressionWithin rounds depth) precedence rounds left

def programWithin (rounds : Nat) : (depth : Nat) → Parser Block
  | 0 => nestingTooDeep
  | depth + 1 => do
    let first ← current
    let body ← statements
      (statement (expressionWithin rounds depth) (programWithin rounds depth)) rounds
    return .mk first.span body

end

def parseStream (depth : Nat) (stream : TokenStream) : Except ParseError Block := do
  let rounds := stream.tokens.length + 1
  let (program, view) ← (programWithin rounds depth).run (← start stream)
  if view.current.kind = .eof then return program
  else throw (.unexpected (.token .eof) view.current)

end Parser

def nestingLimit : Nat := 15000

/-- Reads a source as a program, with the nesting bounded by `depth`. -/
def parseWithin (depth : Nat) (source : String) : Except ParseError Block :=
  Parser.parseStream depth (.ofSource source)

def parse (source : String) : Except ParseError Block :=
  parseWithin nestingLimit source

end MonkeyLang
