import MonkeyLang.Text.Pattern

namespace MonkeyLang.Yaml

open MonkeyLang.Text (Pattern)
open MonkeyLang.Text.Pattern

def digit : Pattern := range '0' '9'

def digits : Pattern := star (char fun c => c.isDigit || c == '_')

def sign : Pattern := optional (oneOf "-+")

def sexagesimal : Pattern :=
  many (all [exactly ":", optional (range '0' '5'), digit])

def truthValue : Pattern :=
  any (["yes", "Yes", "YES", "no", "No", "NO", "true", "True", "TRUE", "false", "False", "FALSE",
    "on", "On", "ON", "off", "Off", "OFF"].map exactly)

def nothing : Pattern :=
  any (["~", "null", "Null", "NULL", ""].map exactly)

def mark : Pattern :=
  any (["<<", "="].map exactly)

def integer : Pattern :=
  sign.append (any [
    (exactly "0b").append (many (oneOf "01_")),
    (exactly "0").append (many (char fun c => ('0' ≤ c && c ≤ '7') || c == '_')),
    exactly "0",
    (range '1' '9').append digits,
    (exactly "0x").append
      (many (char fun c => c.isDigit || ('a' ≤ c && c ≤ 'f') || ('A' ≤ c && c ≤ 'F') || c == '_')),
    all [range '1' '9', digits, sexagesimal]])

def exponent : Pattern :=
  optional (all [oneOf "eE", oneOf "-+", many digit])

def fraction : Pattern :=
  any [
    all [sign, digit, digits, exactly ".", digits, exponent],
    all [exactly ".", digit, digits, exponent],
    all [sign, digit, digits, sexagesimal, exactly ".", digits],
    all [sign, exactly ".", any (["inf", "Inf", "INF"].map exactly)],
    (exactly ".").append (any (["nan", "NaN", "NAN"].map exactly))]

def shortDigits : Pattern := digit.append (optional digit)

def gap : Pattern := oneOf " \t"

def zone : Pattern :=
  (star gap).append (any [exactly "Z",
    all [oneOf "-+", shortDigits, optional ((exactly ":").append (times 2 digit))]])

def timestamp : Pattern :=
  any [
    all [times 4 digit, exactly "-", times 2 digit, exactly "-", times 2 digit],
    all [times 4 digit, exactly "-", shortDigits, exactly "-", shortDigits,
      (oneOf "Tt").or (many gap), shortDigits, exactly ":", times 2 digit, exactly ":", times 2 digit,
      optional ((exactly ".").append (star digit)), optional zone]]

def isImplicit (text : List Char) : Bool :=
  (any [truthValue, nothing, mark, integer, fraction, timestamp]).accepts text

end MonkeyLang.Yaml
