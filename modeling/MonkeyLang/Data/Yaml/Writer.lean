import MonkeyLang.Data.Yaml.Style
import MonkeyLang.Text.Align
import MonkeyLang.Text.Hex

/-!
# Writer

Text on its way out, and what the next mark needs to know of it: the column reached, whether a gap
stands before it, and whether the line holds only indentation and marks that nest. Scalars are folded
at single spaces behind column 80, except in keys.
-/

namespace MonkeyLang.Yaml

structure Writer where
  text : String
  column : Nat
  /-- Whether the last thing written leaves a gap. -/
  gap : Bool
  /-- Whether nothing but indentation and nesting marks stands on the line. -/
  indenting : Bool

namespace Writer

def start : Writer := ⟨"", 0, true, true⟩

def width : Nat := 80

def put (chars : List Char) (w : Writer) : Writer :=
  { w with text := w.text ++ String.ofList chars, column := w.column + chars.length }

def lineBreak (c : Char) (w : Writer) : Writer :=
  ⟨w.text.push c, 0, true, true⟩

def mark (chars : List Char) (needsGap leavesGap nests : Bool) (w : Writer) : Writer :=
  let chars := if w.gap || !needsGap then chars else ' ' :: chars
  { w.put chars with gap := leavesGap, indenting := w.indenting && nests }

/-- Goes to the indentation, on a new line unless the line is still free up to there. -/
def indent (column : Nat) (w : Writer) : Writer :=
  let w :=
    if !w.indenting || column < w.column || (w.column == column && !w.gap) then w.lineBreak '\n' else w
  if w.column < column then
    { w.put (List.replicate (column - w.column) ' ') with gap := true }
  else w

def solid (w : Writer) : Writer :=
  { w with gap := false, indenting := false }

def folds (fold : Bool) (w : Writer) : Bool :=
  fold && width < w.column

/-! ## Scalars without quotes -/

/-- Writes the words and gaps of a text; `spaces` counts the spaces passed since the last word. -/
def plainChars (column : Nat) (fold : Bool) : (spaces : Nat) → List Char → Writer → Writer
  | spaces, [], w => w.put (List.replicate spaces ' ')
  | spaces, c :: rest, w =>
    if c = ' ' then plainChars column fold (spaces + 1) rest w
    else
      let w :=
        if spaces = 1 && w.folds fold then (w.indent column).solid
        else w.put (List.replicate spaces ' ')
      plainChars column fold 0 rest (w.put [c])

def plain (column : Nat) (fold : Bool) (text : List Char) (w : Writer) : Writer :=
  let w := if w.gap then w else w.put [' ']
  plainChars column fold 0 text w.solid

/-! ## Single quotes -/

def breaks (column : Nat) (chars : List Char) (w : Writer) : Writer :=
  match chars with
  | [] => w
  | c :: _ =>
    let w := if c = '\n' then w.lineBreak '\n' else w
    (chars.foldl (fun w c => w.lineBreak c) w).indent column

/-- Writes the characters of a text between single quotes. Of the two runs that have been passed but
not written, at most one is not empty: spaces, and breaks. -/
def singleChars (column : Nat) (fold : Bool) :
    (first : Bool) → (spaces : Nat) → (broken : List Char) → List Char → Writer → Writer
  | _, spaces, broken, [], w => (w.put (List.replicate spaces ' ')).breaks column broken
  | first, spaces, broken, c :: rest, w =>
    if c = ' ' then
      singleChars column fold first (spaces + 1) [] rest (w.breaks column broken)
    else
      let w :=
        if spaces = 1 && !first && w.folds fold then w.indent column
        else w.put (List.replicate spaces ' ')
      if isBreak c then singleChars column fold false 0 (broken ++ [c]) rest w
      else
        let w := w.breaks column broken
        let w := w.put (if c = '\'' then ['\'', '\''] else [c])
        singleChars column fold false 0 [] rest w

def single (column : Nat) (fold : Bool) (text : List Char) (w : Writer) : Writer :=
  let w := w.mark ['\''] true false false
  (singleChars column fold true 0 [] text w).mark ['\''] false false false

/-! ## Double quotes -/

def isShown (c : Char) : Bool :=
  let n := c.toNat
  ((0x20 ≤ n && n ≤ 0x7e) || (0xa0 ≤ n && n ≤ 0xd7ff) || (0xe000 ≤ n && n ≤ 0xfffd)) &&
    c != '"' && c != '\\' && n != 0x2028 && n != 0x2029 && n != 0xfeff

def escape (c : Char) : List Char :=
  match c with
  | '\x00' => ['\\', '0']
  | '\x07' => ['\\', 'a']
  | '\x08' => ['\\', 'b']
  | '\t' => ['\\', 't']
  | '\n' => ['\\', 'n']
  | '\x0b' => ['\\', 'v']
  | '\x0c' => ['\\', 'f']
  | '\r' => ['\\', 'r']
  | '\x1b' => ['\\', 'e']
  | '"' => ['\\', '"']
  | '\\' => ['\\', '\\']
  | '\x85' => ['\\', 'N']
  | '\u2028' => ['\\', 'L']
  | '\u2029' => ['\\', 'P']
  | c => Text.numberedEscape .capital c

/-- Writes the characters of a text between double quotes. `pending` are the characters passed but not
written, the last one first. A line is folded behind a backslash, before a space or behind an escape,
but not next to either end of the text; a space at the start of a line needs one more backslash. -/
def doubleChars (column : Nat) (fold : Bool) :
    (first : Bool) → (pending : List Char) → List Char → Writer → Writer
  | _, pending, [], w => w.put pending.reverse
  | first, pending, c :: rest, w =>
    let escaped := !isShown c
    let w := if escaped then (w.put pending.reverse).put (escape c) else w
    let pending := if escaped then [] else pending
    let reached := if escaped then w.column - 1 else w.column + pending.length
    let folds := fold && !first && !rest.isEmpty && (c == ' ' || escaped || pending.isEmpty) &&
      reached > width
    let w := if folds then ((w.put (pending.reverse ++ ['\\'])).indent column).solid else w
    let next := if escaped then rest.head? else some c
    let w := if folds && next == some ' ' then w.put ['\\'] else w
    let pending := if folds then [] else pending
    doubleChars column fold false (if escaped then pending else c :: pending) rest w

def double (column : Nat) (fold : Bool) (text : List Char) (w : Writer) : Writer :=
  let w := w.mark ['"'] true false false
  (doubleChars column fold true [] text w).mark ['"'] false false false

end Writer

end MonkeyLang.Yaml
