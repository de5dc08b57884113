namespace MonkeyLang.Text

inductive HexLetters where
  | small
  | capital
deriving DecidableEq, Repr

def hexDigit (letters : HexLetters) (n : Nat) : Char :=
  if n < 10 then Char.ofNat ('0'.toNat + n)
  else
    match letters with
    | .small => Char.ofNat ('a'.toNat + (n - 10))
    | .capital => Char.ofNat ('A'.toNat + (n - 10))

def hexDigits (letters : HexLetters) : (width n : Nat) → List Char
  | 0, _ => []
  | width + 1, n => hexDigits letters width (n / 16) ++ [hexDigit letters (n % 16)]

/-- The shortest of the three numbered escapes that holds the code point: two, four or eight digits
behind a backslash and `x`, `u` or `U`. -/
def numberedEscape (letters : HexLetters) (c : Char) : List Char :=
  let n := c.toNat
  if n < 0x100 then '\\' :: 'x' :: hexDigits letters 2 n
  else if n < 0x10000 then '\\' :: 'u' :: hexDigits letters 4 n
  else '\\' :: 'U' :: hexDigits letters 8 n

end MonkeyLang.Text
