/-!
# Lines and rows

A text is cut in two ways. Its lines are what the newline character separates, so a final newline is
followed by one empty line; spans count these. Its rows are what any of the vertical breaks ends, a
carriage return and newline being one break, and a final break starts no further row; excerpts show
these.
-/

namespace MonkeyLang.Text

def lines (text : String) : List String :=
  (text.toList.splitOn '\n').map String.ofList

def isRowBreak (c : Char) : Bool :=
  let n := c.toNat
  (0x0a ≤ n && n ≤ 0x0d) || (0x1c ≤ n && n ≤ 0x1e) || n == 0x85 || n == 0x2028 || n == 0x2029

def consRow (c : Char) : List (List Char) → List (List Char)
  | [] => [[c]]
  | row :: rows => (c :: row) :: rows

/-- Cuts a text after every row break and drops the breaks. -/
def splitRows : List Char → List (List Char)
  | [] => []
  | '\r' :: '\n' :: rest => [] :: splitRows rest
  | c :: rest => if isRowBreak c then [] :: splitRows rest else consRow c (splitRows rest)

def rows (text : String) : List String :=
  (splitRows text.toList).map String.ofList

/-- Turns each carriage return, with the newline after it if there is one, into a newline. -/
def unifyBreaks : List Char → List Char
  | [] => []
  | '\r' :: '\n' :: rest => '\n' :: unifyBreaks rest
  | c :: rest => (if c = '\r' then '\n' else c) :: unifyBreaks rest

end MonkeyLang.Text
