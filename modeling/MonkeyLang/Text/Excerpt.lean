import MonkeyLang.Text.Align
import MonkeyLang.Text.Rows

namespace MonkeyLang.Text

def excerptRow (marked : Bool) (width number : Nat) (content : String) : String :=
  (if marked then ">" else " ") ++ " " ++ alignRight width (toString number) ++ " | " ++ content

def caretRow (width : Nat) (column : Int) : String :=
  "  " ++ spaces width ++ " | " ++ spaces (column - 1).toNat ++ "^"

/-- The rows of `text` that are at most `radius` away from row `line`, counted from one; empty if
there is no such row. -/
def excerpt (text : String) (line : Int) (column : Option Int) (radius : Int) : String :=
  let rows := (rows text).toArray
  if line < 1 || (rows.size : Int) < line then ""
  else
    let first := (max 1 (line - radius)).toNat
    let last := (min (rows.size : Int) (line + radius)).toNat
    let width := (toString last).length
    let numbered (number : Nat) : List String :=
      let marked := (number : Int) == line
      excerptRow marked width number (rows.getD (number - 1) "") ::
        (match column with
          | some column => if marked then [caretRow width column] else []
          | none => [])
    "\n".intercalate ((List.range' first (last + 1 - first)).flatMap numbered)

end MonkeyLang.Text
