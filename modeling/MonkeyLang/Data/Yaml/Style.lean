import MonkeyLang.Data.Yaml.Implicit

namespace MonkeyLang.Yaml

inductive Style where
  | plain
  | single
  | double
deriving DecidableEq, Repr

def isBreak (c : Char) : Bool :=
  c == '\n' || c == '\x85' || c == '\u2028' || c == '\u2029'

def isGap (c : Char) : Bool :=
  c == '\x00' || c == ' ' || c == '\t' || c == '\r' || isBreak c

def isSpecial (c : Char) : Bool :=
  let n := c.toNat
  let shown := c == '\n' || (0x20 ≤ n && n ≤ 0x7e) || n == 0x85 || (0xa0 ≤ n && n ≤ 0xd7ff) ||
    (0xe000 ≤ n && n ≤ 0xfffd) || (0x10000 ≤ n && n ≤ 0x10fffe)
  !shown || n == 0xfeff

def startsWithGap : List Char → Bool
  | [] => true
  | c :: _ => isGap c

def isLeadingIndicator (c : Char) (rest : List Char) : Bool :=
  "#,[]\x7b\x7d&*!|>'\"%@\x60".toList.contains c ||
    ((c == '?' || c == ':' || c == '-') && startsWithGap rest)

def hasInnerIndicator (gap : Bool) : List Char → Bool
  | [] => false
  | c :: rest =>
    (c == ':' && startsWithGap rest) || (c == '#' && gap) || hasInnerIndicator (isGap c) rest

def hasIndicator : List Char → Bool
  | [] => false
  | c :: rest =>
    "---".toList.isPrefixOf (c :: rest) || "...".toList.isPrefixOf (c :: rest) ||
      isLeadingIndicator c rest || hasInnerIndicator (isGap c) rest

def hasPair (p q : Char → Bool) : List Char → Bool
  | c :: d :: rest => (p c && q d) || hasPair p q (d :: rest)
  | _ => false

def hasBlankEdge (text : List Char) : Bool :=
  let blank (c : Char) : Bool := c == ' ' || isBreak c
  text.head?.any blank || text.getLast?.any blank

def isFragile (text : List Char) : Bool :=
  hasPair isBreak (· == ' ') text || hasPair (· == ' ') isBreak text || text.any isSpecial

def style (text : List Char) : Style :=
  if text.isEmpty then .single
  else if isFragile text then .double
  else if hasBlankEdge text || text.any isBreak || hasIndicator text || isImplicit text then .single
  else .plain

end MonkeyLang.Yaml
