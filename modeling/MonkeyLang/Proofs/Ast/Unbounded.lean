import MonkeyLang.Ast.Parser

/-!
# The parser without bounds

The parser as it would run if nothing cut its loops short or bounded its nesting: whether it ends at all
is then a question, and a run that does not end gives nothing. Its state also counts the blocks that are
open, which decides whether a program must reach the end of input.
-/

namespace MonkeyLang
open MonkeyLang.Parser

/-- What is in view, and how many blocks are open. -/
structure Situation where
  view : Lookahead
  blocks : Nat

abbrev Situated := StateT Situation Option

abbrev Unbounded := ExceptT ParseError Situated

namespace Unbounded

/-- What comes of a reader, an error or not, and the state it leaves; nothing if it does not end. -/
def runFrom {α : Type} (s : Situation) (reader : Unbounded α) : Option (Except ParseError α × Situation) :=
  reader.run.run s

/-! ## Tokens in view -/

def current : Unbounded Token := do
  return (← get).view.current

def peek : Unbounded Token := do
  return (← get).view.peek

def advance : Unbounded Unit := do
  let s ← get
  set { s with view.current := s.view.peek }
  match pull s.view.rest with
  | .error error => throw error
  | .ok (token, rest) => set { s with view := ⟨s.view.peek, token, rest⟩ }

def unexpected {α : Type} (expected : Expectation) (found : Token) : Unbounded α :=
  throw (.unexpected expected found)

def expect (kind : TokenKind) : Unbounded Token := do
  let token ← peek
  if token.kind = kind then
    advance
    return token
  else unexpected (.token kind) token

def integer (token : Token) : Unbounded Expr :=
  if maxDigits < token.literal.length then throw (.tooManyDigits token.literal.length)
  else
    let value := Nat.ofDigitChars 10 token.literal.toList 0
    if maxInteger < value then unexpected .smallInteger token
    else return .integer token.span value

def ident : Unbounded Ident := do
  let token ← expect .identifier
  return ⟨token.span, token.literal⟩

/-! ## Productions -/

def finish (program : Block) : Unbounded Block := do
  let last ← current
  if (← get).blocks = 0 ∧ last.kind ≠ .eof then unexpected (.token .eof) last
  else return program

inductive Listing where
  | parameters
  | values
  | entries

def Listing.Item : Listing → Type
  | parameters => Ident
  | values => Expr
  | entries => Expr × Expr

/-- What is read: the productions, and the loops in them. -/
inductive Phrase where
  | semicolons
  | expression (precedence : Precedence)
  | nextExpression
  | pair
  | item (listing : Listing)
  | moreItems (listing : Listing)
  | items (listing : Listing) (close : TokenKind)
  | operand
  | suffix (left : Expr) (next : Suffix)
  | extend (precedence : Precedence) (left : Expr)
  | inside
  | block
  | branch
  | statement
  | statements
  | program

namespace Phrase

@[reducible] def Result : Phrase → Type
  | semicolons => Unit
  | expression _ | nextExpression | operand | suffix _ _ | extend _ _ => Expr
  | pair => Expr × Expr
  | item listing => listing.Item
  | moreItems listing | items listing _ => List listing.Item
  | inside | block | program => Block
  | branch | statement => Stmt
  | statements => List Stmt

/-- Productions read one another, so they are one recursion. Nothing bounds it. -/
def read (phrase : Phrase) : Unbounded phrase.Result :=
  match phrase with
  | semicolons => do
    if (← current).kind = .semicolon then
      advance
      semicolons |>.read
  | expression precedence => do
    let left ← operand |>.read
    extend precedence left |>.read
  | nextExpression => do
    advance
    expression .lowest |>.read
  | pair => do
    let key ← nextExpression |>.read
    let _ ← expect .colon
    let value ← nextExpression |>.read
    return (key, value)
  | item listing =>
    match listing with
    | .parameters => ident
    | .values => nextExpression |>.read
    | .entries => pair |>.read
  | moreItems listing => do
    if (← peek).kind = .comma then
      advance
      let first ← item listing |>.read
      return first :: (← moreItems listing |>.read)
    else return []
  | items listing close => do
    if (← peek).kind = close then
      advance
      return []
    else
      let first ← item listing |>.read
      let more ← moreItems listing |>.read
      let _ ← expect close
      return first :: more
  | operand => do
    let token ← current
    match token.kind with
    | .identifier => return .name ⟨token.span, token.literal⟩
    | .integer => integer token
    | .trueWord => return .boolean token.span true
    | .falseWord => return .boolean token.span false
    | .string => return .string token.span token.literal
    | .bang =>
      advance
      return .unary token.span .not (← expression .unary |>.read)
    | .minus =>
      advance
      return .unary token.span .neg (← expression .unary |>.read)
    | .leftParen =>
      let inner ← nextExpression |>.read
      let _ ← expect .rightParen
      return inner
    | .fnWord =>
      let _ ← expect .leftParen
      let params ← items .parameters .rightParen |>.read
      let _ ← expect .leftBrace
      return .function token.span params (← block |>.read)
    | .leftBracket => return .array token.span (← items .values .rightBracket |>.read)
    | .leftBrace => return .hash token.span (← items .entries .rightBrace |>.read)
    | _ => unexpected .expression token
  | suffix left next => do
    match next with
    | .operator operator precedence =>
      let token ← current
      advance
      return .binary token.span operator left (← expression precedence |>.read)
    | .call =>
      let token ← current
      return .call token.span left (← items .values .rightParen |>.read)
    | .index =>
      let token ← current
      let inner ← nextExpression |>.read
      let _ ← expect .rightBracket
      return .index token.span left inner
  | extend precedence left => do
    match Suffix.ofKind? (← peek).kind with
    | none => return left
    | some next =>
      if precedence.rank < next.precedence.rank then
        advance
        let left ← suffix left next |>.read
        extend precedence left |>.read
      else return left
  | inside =>
    -- The block is closed again even if reading the program in it fails.
    (do
      modify fun s => { s with blocks := s.blocks + 1 }
      let outcome ← program.read.run
      modify fun s => { s with blocks := s.blocks - 1 }
      return outcome : Situated (Except ParseError Block))
  | block => do
    advance
    let body ← inside |>.read
    let last ← current
    if last.kind = .rightBrace then return body
    else unexpected (.token .rightBrace) last
  | branch => do
    let token ← current
    let _ ← expect .leftParen
    let condition ← nextExpression |>.read
    let _ ← expect .rightParen
    let _ ← expect .leftBrace
    let consequence ← block |>.read
    if (← peek).kind = .elseWord then
      advance
      let _ ← expect .leftBrace
      return .branch token.span condition consequence (some (← block |>.read))
    else return .branch token.span condition consequence none
  | statement => do
    let token ← current
    match token.kind with
    | .letWord =>
      let name ← ident
      let _ ← expect .assign
      return .bind token.span name (← nextExpression |>.read)
    | .returnWord => return .ret token.span (← nextExpression |>.read)
    | .ifWord => branch |>.read
    | _ => return .expr token.span (← expression .lowest |>.read)
  | statements => do
    if endsBlock (← current) then return []
    else
      let first ← statement |>.read
      advance
      semicolons |>.read
      return first :: (← statements |>.read)
  | program => do
    let first ← current
    let body ← statements |>.read
    finish (.mk first.span body)
partial_fixpoint

end Phrase

def skipSemicolons : Unbounded Unit :=
  Phrase.semicolons.read

def expression (precedence : Precedence) : Unbounded Expr :=
  (Phrase.expression precedence).read

def nextExpression : Unbounded Expr :=
  Phrase.nextExpression.read

def pair : Unbounded (Expr × Expr) :=
  Phrase.pair.read

def item (listing : Listing) : Unbounded listing.Item :=
  (Phrase.item listing).read

def moreItems (listing : Listing) : Unbounded (List listing.Item) :=
  (Phrase.moreItems listing).read

def items (listing : Listing) (close : TokenKind) : Unbounded (List listing.Item) :=
  (Phrase.items listing close).read

def operand : Unbounded Expr :=
  Phrase.operand.read

def suffix (left : Expr) (next : Suffix) : Unbounded Expr :=
  (Phrase.suffix left next).read

def extend (precedence : Precedence) (left : Expr) : Unbounded Expr :=
  (Phrase.extend precedence left).read

def inside : Unbounded Block :=
  Phrase.inside.read

def block : Unbounded Block :=
  Phrase.block.read

def branch : Unbounded Stmt :=
  Phrase.branch.read

def statement : Unbounded Stmt :=
  Phrase.statement.read

def statements : Unbounded (List Stmt) :=
  Phrase.statements.read

def program : Unbounded Block :=
  Phrase.program.read

def parseStream (stream : TokenStream) : Option (Except ParseError Block × Nat) :=
  match start stream with
  | .error error => some (.error error, 0)
  | .ok view => (program.runFrom ⟨view, 0⟩).map fun (outcome, after) => (outcome, after.blocks)

end Unbounded

def parseUnbounded (source : String) : Option (Except ParseError Block × Nat) :=
  Unbounded.parseStream (.ofSource source)

end MonkeyLang
