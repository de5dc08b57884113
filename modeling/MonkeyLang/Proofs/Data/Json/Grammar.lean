import MonkeyLang.Data.Basic

namespace MonkeyLang.Json

def isSpace (c : Char) : Bool :=
  c == ' ' || c == '\t' || c == '\n' || c == '\r'

def Spaces (cs : List Char) : Prop :=
  ∀ c ∈ cs, isSpace c = true

def Digits (cs : List Char) : Prop :=
  cs ≠ [] ∧ ∀ c ∈ cs, c.isDigit = true

def Whole (cs : List Char) : Prop :=
  Digits cs ∧ (cs.head? = some '0' → cs = ['0'])

inductive Exponent : List Char → Prop where
  | mk {e : Char} {sign digits : List Char} : e = 'e' ∨ e = 'E' → sign = [] ∨ sign = ['+'] ∨ sign = ['-'] →
      Digits digits → Exponent (e :: (sign ++ digits))

inductive Fractional : List Char → Prop where
  | fraction {digits : List Char} : Digits digits → Fractional ('.' :: digits)
  | exponent {cs : List Char} : Exponent cs → Fractional cs
  | both {digits cs : List Char} : Digits digits → Exponent cs → Fractional ('.' :: (digits ++ cs))

def magnitude (digits : List Char) : Nat :=
  Nat.ofDigitChars 10 digits 0

inductive Number (decimal : List Char → Data) : List Char → Data → Prop where
  | natural {cs : List Char} : Whole cs → Number decimal cs (.integer (magnitude cs))
  | negative {cs : List Char} : Whole cs → Number decimal ('-' :: cs) (.integer (-magnitude cs))
  | decimal {sign whole more : List Char} : sign = [] ∨ sign = ['-'] → Whole whole → Fractional more →
      Number decimal (sign ++ whole ++ more) (decimal (sign ++ whole ++ more))

def isPlain (c : Char) : Bool :=
  0x20 ≤ c.toNat && c != '"' && c != '\\'

def shortEscapes : List (Char × Char) :=
  [('"', '"'), ('\\', '\\'), ('/', '/'), ('b', '\x08'), ('f', '\x0c'), ('n', '\n'), ('r', '\r'), ('t', '\t')]

def hexValue? (c : Char) : Option Nat :=
  if '0' ≤ c ∧ c ≤ '9' then some (c.toNat - '0'.toNat)
  else if 'a' ≤ c ∧ c ≤ 'f' then some (c.toNat - 'a'.toNat + 10)
  else if 'A' ≤ c ∧ c ≤ 'F' then some (c.toNat - 'A'.toNat + 10)
  else none

/-- The code unit of four hexadecimal digits. -/
def codeUnit? : List Char → Option Nat
  | [a, b, c, d] => do
    let a ← hexValue? a
    let b ← hexValue? b
    let c ← hexValue? c
    let d ← hexValue? d
    return ((a * 16 + b) * 16 + c) * 16 + d
  | _ => none

def isHigh (n : Nat) : Bool :=
  0xD800 ≤ n && n < 0xDC00

def isLow (n : Nat) : Bool :=
  0xDC00 ≤ n && n < 0xE000

def paired (high low : Nat) : Char :=
  Char.ofNat (0x10000 + (high - 0xD800) * 0x400 + (low - 0xDC00))

/-- The ways to write one character between quotes. -/
inductive Spelled : List Char → Char → Prop where
  | plain {c : Char} : isPlain c = true → Spelled [c] c
  | short {e c : Char} : (e, c) ∈ shortEscapes → Spelled ['\\', e] c
  | unit {digits : List Char} {n : Nat} : codeUnit? digits = some n → isHigh n = false → isLow n = false →
      Spelled ('\\' :: 'u' :: digits) (Char.ofNat n)
  | pair {digits digits' : List Char} {high low : Nat} : codeUnit? digits = some high → isHigh high = true →
      codeUnit? digits' = some low → isLow low = true →
      Spelled ('\\' :: 'u' :: (digits ++ '\\' :: 'u' :: digits')) (paired high low)

inductive Quoted : List Char → List Char → Prop where
  | nil : Quoted [] []
  | cons {spelling body text : List Char} {c : Char} : Spelled spelling c → Quoted body text →
      Quoted (spelling ++ body) (c :: text)

section

variable {α : Type} (P : List Char → α → Prop)

inductive Padded : List Char → α → Prop where
  | mk {before body behind : List Char} {a : α} : Spaces before → P body a → Spaces behind →
      Padded (before ++ (body ++ behind)) a

inductive Listed : List Char → List α → Prop where
  | one {cs : List Char} {a : α} : P cs a → Listed cs [a]
  | more {cs rest : List Char} {a : α} {as : List α} : P cs a → Listed rest as → Listed (cs ++ ',' :: rest) (a :: as)

inductive Member : List Char → String × α → Prop where
  | mk {key text before behind body : List Char} {a : α} : Quoted key text → Spaces before → Spaces behind → P body a →
      Member ('"' :: (key ++ '"' :: (before ++ ':' :: (behind ++ body)))) (String.ofList text, a)

end

/-- The text is a JSON value that stands for the data. -/
inductive Denotes (decimal : List Char → Data) : List Char → Data → Prop where
  | null : Denotes decimal ['n', 'u', 'l', 'l'] .null
  | true : Denotes decimal ['t', 'r', 'u', 'e'] (.boolean .true)
  | false : Denotes decimal ['f', 'a', 'l', 's', 'e'] (.boolean .false)
  | number {cs : List Char} {data : Data} : Number decimal cs data → Denotes decimal cs data
  | string {body text : List Char} : Quoted body text →
      Denotes decimal ('"' :: (body ++ ['"'])) (.string (String.ofList text))
  | noItems {gap : List Char} : Spaces gap → Denotes decimal ('[' :: (gap ++ [']'])) (.list [])
  | items {cs : List Char} {items : List Data} : Listed (Padded (Denotes decimal)) cs items →
      Denotes decimal ('[' :: (cs ++ [']'])) (.list items)
  | noFields {gap : List Char} : Spaces gap → Denotes decimal ('\x7b' :: (gap ++ ['\x7d'])) (.map [])
  | fields {cs : List Char} {fields : List (String × Data)} :
      Listed (Padded (Member (Denotes decimal))) cs fields →
      Denotes decimal ('\x7b' :: (cs ++ ['\x7d'])) (.map fields)

def Document (decimal : List Char → Data) (text : String) (data : Data) : Prop :=
  Padded (Denotes decimal) text.toList data

end MonkeyLang.Json
