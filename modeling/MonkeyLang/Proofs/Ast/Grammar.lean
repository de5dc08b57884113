import MonkeyLang.Ast.Basic
import MonkeyLang.Ast.Error
import MonkeyLang.Proofs.Token.Lexeme

namespace MonkeyLang

namespace Grammar

/-- The kinds of expressions by what stands outermost, the loosest first. -/
inductive Stratum where
  | equality
  | comparison
  | sum
  | product
  | unary
  | suffixed
  | atom
deriving DecidableEq, Repr

namespace Stratum

def inner : Stratum → Stratum
  | equality => comparison
  | comparison => sum
  | sum => product
  | product => unary
  | unary => suffixed
  | suffixed => atom
  | atom => atom

end Stratum

def binary? : TokenKind → Option (Stratum × Operator)
  | .equal => some (.equality, .equal)
  | .notEqual => some (.equality, .notEqual)
  | .lessThan => some (.comparison, .less)
  | .greaterThan => some (.comparison, .greater)
  | .lessThanEqual => some (.comparison, .lessEqual)
  | .greaterThanEqual => some (.comparison, .greaterEqual)
  | .plus => some (.sum, .add)
  | .minus => some (.sum, .sub)
  | .asterisk => some (.product, .mul)
  | .slash => some (.product, .div)
  | _ => none

def unary? : TokenKind → Option Operator
  | .bang => some .not
  | .minus => some .neg
  | _ => none

theorem unary?_eq_some {kind : TokenKind} {operator : Operator} (h : unary? kind = some operator) :
    kind = .bang ∧ operator = .not ∨ kind = .minus ∧ operator = .neg := by
  cases kind <;> simp_all [unary?]

/-- Whether a lexeme of the kind behind an expression belongs to it. -/
def continues (kind : TokenKind) : Bool :=
  (binary? kind).isSome || kind == .leftParen || kind == .leftBracket

def endsInExpression : Stmt → Bool
  | .bind .. | .ret .. | .expr .. => true
  | .branch .. => false

inductive Commas : List (List Lexeme) → List Lexeme → Prop where
  | none : Commas [] []
  | one (item : List Lexeme) : Commas [item] item
  | more {item next : List Lexeme} {items : List (List Lexeme)} {comma : Lexeme} {rest : List Lexeme} :
      comma.kind = .comma → Commas (next :: items) rest →
      Commas (item :: next :: items) (item ++ comma :: rest)

theorem commas_nil {ls : List Lexeme} (h : Commas [] ls) : ls = [] := by
  cases h
  rfl

theorem commas_singleton {item ls : List Lexeme} (h : Commas [item] ls) : ls = item := by
  cases h
  rfl

theorem commas_cons_cons {item next ls : List Lexeme} {items : List (List Lexeme)}
    (h : Commas (item :: next :: items) ls) :
    ∃ comma rest, ls = item ++ comma :: rest ∧ comma.kind = .comma ∧ Commas (next :: items) rest := by
  cases h with
  | more hcomma hrest => exact ⟨_, _, rfl, hcomma, hrest⟩

theorem commas_cons {item ls : List Lexeme} {items : List (List Lexeme)}
    (h : Commas (item :: items) ls) : ∃ rest, ls = item ++ rest := by
  cases h with
  | one => exact ⟨[], by simp⟩
  | more => exact ⟨_, rfl⟩

inductive Phrase where
  | expr (stratum : Stratum) (expr : Expr)
  | pair (pair : Expr × Expr)
  | stmt (stmt : Stmt)
  | body (block : Block)

/-- The lexemes spell the phrase. -/
inductive Derives : Phrase → List Lexeme → Prop where
  | inner {stratum : Stratum} {e : Expr} {ls : List Lexeme} :
      Derives (.expr stratum.inner e) ls → Derives (.expr stratum e) ls
  | binary {stratum : Stratum} {operator : Operator} {left right : Expr} {ls rs : List Lexeme}
      {sign : Lexeme} :
      binary? sign.kind = some (stratum, operator) →
      Derives (.expr stratum left) ls → Derives (.expr stratum.inner right) rs →
      Derives (.expr stratum (.binary default operator left right)) (ls ++ sign :: rs)
  | unary {operator : Operator} {right : Expr} {sign : Lexeme} {rs : List Lexeme} :
      unary? sign.kind = some operator → Derives (.expr .unary right) rs →
      Derives (.expr .unary (.unary default operator right)) (sign :: rs)
  | call {callee : Expr} {arguments : List (Expr × List Lexeme)} {ls as : List Lexeme}
      {opening closing : Lexeme} :
      Derives (.expr .suffixed callee) ls →
      opening.kind = .leftParen → closing.kind = .rightParen →
      (∀ argument ∈ arguments, Derives (.expr .equality argument.1) argument.2) →
      Commas (arguments.map (·.2)) as →
      Derives (.expr .suffixed (.call default callee (arguments.map (·.1))))
        (ls ++ opening :: as ++ [closing])
  | index {left index : Expr} {ls is : List Lexeme} {opening closing : Lexeme} :
      Derives (.expr .suffixed left) ls →
      opening.kind = .leftBracket → closing.kind = .rightBracket →
      Derives (.expr .equality index) is →
      Derives (.expr .suffixed (.index default left index)) (ls ++ opening :: is ++ [closing])
  | name {word : Lexeme} :
      word.kind = .identifier → Derives (.expr .atom (.name ⟨default, word.literal⟩)) [word]
  | integer {digits : Lexeme} {value : Nat} :
      digits.kind = .integer → digits.literal.length ≤ maxDigits →
      value = Nat.ofDigitChars 10 digits.literal.toList 0 → value ≤ maxInteger →
      Derives (.expr .atom (.integer default value)) [digits]
  | trueWord {word : Lexeme} :
      word.kind = .trueWord → Derives (.expr .atom (.boolean default true)) [word]
  | falseWord {word : Lexeme} :
      word.kind = .falseWord → Derives (.expr .atom (.boolean default false)) [word]
  | string {text : Lexeme} :
      text.kind = .string → Derives (.expr .atom (.string default text.literal)) [text]
  | group {e : Expr} {ls : List Lexeme} {opening closing : Lexeme} :
      opening.kind = .leftParen → closing.kind = .rightParen → Derives (.expr .equality e) ls →
      Derives (.expr .atom e) (opening :: ls ++ [closing])
  | function {params : List Lexeme} {body : Block} {ps ls : List Lexeme}
      {word opening closing opened closed : Lexeme} :
      word.kind = .fnWord → opening.kind = .leftParen → closing.kind = .rightParen →
      opened.kind = .leftBrace → closed.kind = .rightBrace →
      (∀ param ∈ params, param.kind = .identifier) → Commas (params.map ([·])) ps →
      Derives (.body body) ls →
      Derives (.expr .atom (.function default (params.map (⟨default, ·.literal⟩)) body))
        (word :: opening :: ps ++ closing :: opened :: ls ++ [closed])
  | array {elements : List (Expr × List Lexeme)} {ls : List Lexeme} {opening closing : Lexeme} :
      opening.kind = .leftBracket → closing.kind = .rightBracket →
      (∀ element ∈ elements, Derives (.expr .equality element.1) element.2) →
      Commas (elements.map (·.2)) ls →
      Derives (.expr .atom (.array default (elements.map (·.1)))) (opening :: ls ++ [closing])
  | hash {pairs : List ((Expr × Expr) × List Lexeme)} {ls : List Lexeme} {opening closing : Lexeme} :
      opening.kind = .leftBrace → closing.kind = .rightBrace →
      (∀ pair ∈ pairs, Derives (.pair pair.1) pair.2) → Commas (pairs.map (·.2)) ls →
      Derives (.expr .atom (.hash default (pairs.map (·.1)))) (opening :: ls ++ [closing])
  | pair {key value : Expr} {ks vs : List Lexeme} {colon : Lexeme} :
      Derives (.expr .equality key) ks → colon.kind = .colon → Derives (.expr .equality value) vs →
      Derives (.pair (key, value)) (ks ++ colon :: vs)
  | bind {word name sign : Lexeme} {value : Expr} {vs : List Lexeme} :
      word.kind = .letWord → name.kind = .identifier → sign.kind = .assign →
      Derives (.expr .equality value) vs →
      Derives (.stmt (.bind default ⟨default, name.literal⟩ value)) (word :: name :: sign :: vs)
  | ret {word : Lexeme} {value : Expr} {vs : List Lexeme} :
      word.kind = .returnWord → Derives (.expr .equality value) vs →
      Derives (.stmt (.ret default value)) (word :: vs)
  | branch {condition : Expr} {consequence : Block} {cs ls : List Lexeme}
      {word opening closing opened closed : Lexeme} :
      word.kind = .ifWord → opening.kind = .leftParen → closing.kind = .rightParen →
      opened.kind = .leftBrace → closed.kind = .rightBrace →
      Derives (.expr .equality condition) cs → Derives (.body consequence) ls →
      Derives (.stmt (.branch default condition consequence none))
        (word :: opening :: cs ++ closing :: opened :: ls ++ [closed])
  | branchElse {condition : Expr} {consequence alternative : Block} {cs ls as : List Lexeme}
      {word opening closing opened closed otherwise reopened reclosed : Lexeme} :
      word.kind = .ifWord → opening.kind = .leftParen → closing.kind = .rightParen →
      opened.kind = .leftBrace → closed.kind = .rightBrace →
      otherwise.kind = .elseWord → reopened.kind = .leftBrace → reclosed.kind = .rightBrace →
      Derives (.expr .equality condition) cs → Derives (.body consequence) ls →
      Derives (.body alternative) as →
      Derives (.stmt (.branch default condition consequence (some alternative)))
        (word :: opening :: cs ++ closing :: opened :: ls ++ closed :: otherwise :: reopened :: as ++
          [reclosed])
  | expr {value : Expr} {vs : List Lexeme} :
      Derives (.expr .equality value) vs → Derives (.stmt (.expr default value)) vs
  | empty : Derives (.body (.mk default [])) []
  | statement {s : Stmt} {ss : List Stmt} {ls semicolons rest : List Lexeme} :
      Derives (.stmt s) ls → (∀ l ∈ semicolons, l.kind = .semicolon) →
      Derives (.body (.mk default ss)) rest →
      (endsInExpression s = true → ∀ l ∈ (semicolons ++ rest).head?, continues l.kind = false) →
      Derives (.body (.mk default (s :: ss))) (ls ++ semicolons ++ rest)

def beginsExpression : TokenKind → Bool
  | .identifier | .integer | .trueWord | .falseWord | .string | .bang | .minus | .leftParen | .fnWord
  | .leftBracket | .leftBrace => true
  | _ => false

def beginsStatement (kind : TokenKind) : Bool :=
  beginsExpression kind || kind == .letWord || kind == .returnWord || kind == .ifWord

def Phrase.Begins : Phrase → List Lexeme → Prop
  | .expr _ _, ls | .pair _, ls => ∃ l rest, ls = l :: rest ∧ beginsExpression l.kind = true
  | .stmt _, ls => ∃ l rest, ls = l :: rest ∧ beginsStatement l.kind = true
  | .body _, ls => ∀ l ∈ ls.head?, beginsStatement l.kind = true

theorem Derives.begins {phrase : Phrase} {ls : List Lexeme} (h : Derives phrase ls) :
    phrase.Begins ls := by
  induction h with
  | inner _ ih => exact ih
  | binary _ _ _ ih _ | call _ _ _ _ _ ih _ | index _ _ _ _ ih _ | pair _ _ _ ih _ =>
    obtain ⟨l, rest, rfl, hl⟩ := ih
    exact ⟨l, _, by simp; rfl, hl⟩
  | unary hsign =>
    rcases unary?_eq_some hsign with ⟨h, -⟩ | ⟨h, -⟩
    · exact ⟨_, _, rfl, by rw [h]; rfl⟩
    · exact ⟨_, _, rfl, by rw [h]; rfl⟩
  | name h | integer h | trueWord h | falseWord h | string h => exact ⟨_, _, rfl, by rw [h]; rfl⟩
  | group h | array h | hash h | function h => exact ⟨_, _, rfl, by rw [h]; rfl⟩
  | bind h | ret h | branch h | branchElse h => exact ⟨_, _, rfl, by rw [h]; rfl⟩
  | expr _ ih =>
    obtain ⟨l, rest, rfl, hl⟩ := ih
    exact ⟨l, rest, rfl, by simp [beginsStatement, hl]⟩
  | empty => rintro _ ⟨⟩
  | statement _ _ _ _ ih _ =>
    obtain ⟨l, rest, rfl, hl⟩ := ih
    rintro _ ⟨⟩
    exact hl

/-- The lexemes of a whole text spell the program: its statements and the end of input. -/
def Program (program : Block) (lexemes : List Lexeme) : Prop :=
  ∃ body eof, lexemes = body ++ [eof] ∧ eof.kind = .eof ∧ Derives (.body program) body

end Grammar

end MonkeyLang
