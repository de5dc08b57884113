namespace MonkeyLang.Text

inductive Pattern where
  | never
  | empty
  | char (p : Char → Bool)
  | choice (left right : Pattern)
  | sequence (left right : Pattern)
  | star (inner : Pattern)

namespace Pattern

def acceptsEmpty : Pattern → Bool
  | never => false
  | empty => true
  | char _ => false
  | choice left right => left.acceptsEmpty || right.acceptsEmpty
  | sequence left right => left.acceptsEmpty && right.acceptsEmpty
  | star _ => true

def or : Pattern → Pattern → Pattern
  | never, right => right
  | left, never => left
  | left, right => choice left right

def append : Pattern → Pattern → Pattern
  | never, _ => never
  | _, never => never
  | empty, right => right
  | left, right => sequence left right

def derivative (c : Char) : Pattern → Pattern
  | never => never
  | empty => never
  | char p => if p c then empty else never
  | choice left right => (left.derivative c).or (right.derivative c)
  | sequence left right =>
    let first := (left.derivative c).append right
    if left.acceptsEmpty then first.or (right.derivative c) else first
  | star inner => (inner.derivative c).append (star inner)

def accepts (pattern : Pattern) (text : List Char) : Bool :=
  (text.foldl (fun pattern c => pattern.derivative c) pattern).acceptsEmpty

def all (patterns : List Pattern) : Pattern :=
  patterns.foldr append empty

def any (patterns : List Pattern) : Pattern :=
  patterns.foldr or never

def oneOf (chars : String) : Pattern :=
  char chars.toList.contains

def range (first last : Char) : Pattern :=
  char fun c => first ≤ c && c ≤ last

def exactly (text : String) : Pattern :=
  all (text.toList.map fun c => char (· == c))

def optional (pattern : Pattern) : Pattern :=
  empty.or pattern

def many (pattern : Pattern) : Pattern :=
  pattern.append (star pattern)

def times (count : Nat) (pattern : Pattern) : Pattern :=
  all (List.replicate count pattern)

end Pattern

end MonkeyLang.Text
