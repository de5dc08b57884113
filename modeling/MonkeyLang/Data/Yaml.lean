import MonkeyLang.Data.Basic
import MonkeyLang.Data.Yaml.Writer

namespace MonkeyLang.Yaml

def inside (outer : Option Nat) : Option Nat :=
  match outer with
  | none => some 0
  | some column => some (column + 2)

def scalarColumn (outer : Option Nat) : Nat :=
  match outer with
  | none => 2
  | some column => column + 2

def isSimpleKey (key : List Char) : Bool :=
  !key.isEmpty && !key.any isBreak && key.length + 5 < 128

def writeText (outer : Option Nat) (fold : Bool) (text : String) (w : Writer) : Writer :=
  let chars := text.toList
  match style chars with
  | .plain => w.plain (scalarColumn outer) fold chars
  | .single => w.single (scalarColumn outer) fold chars
  | .double => w.double (scalarColumn outer) fold chars

def writeWord (outer : Option Nat) (word : String) (w : Writer) : Writer :=
  w.plain (scalarColumn outer) true word.toList

mutual

/-- Writes data inside `outer`; `inMap` tells whether it is the key or value of an entry. -/
def write (outer : Option Nat) (inMap : Bool) : Data → Writer → Writer
  | .null, w => writeWord outer "null" w
  | .integer value, w => writeWord outer (toString value) w
  | .boolean value, w => writeWord outer (if value then "true" else "false") w
  | .string value, w => writeText outer true value w
  | .list [], w => (w.mark ['['] true true false).mark [']'] false false false
  | .list (d :: ds), w =>
    let column :=
      match outer with
      | some column => if inMap && !w.indenting then some column else inside outer
      | none => inside outer
    writeItems column (d :: ds) w
  | .map [], w => (w.mark ['{'] true true false).mark ['}'] false false false
  | .map (e :: es), w => writeEntries (inside outer) (e :: es) w

def writeItems (column : Option Nat) : List Data → Writer → Writer
  | [], w => w
  | d :: ds, w =>
    let w := (w.indent (column.getD 0)).mark ['-'] true false true
    writeItems column ds (write column false d w)

def writeEntries (column : Option Nat) : List (String × Data) → Writer → Writer
  | [], w => w
  | (k, d) :: es, w =>
    let w := w.indent (column.getD 0)
    let w :=
      if isSimpleKey k.toList then (writeText column false k w).mark [':'] false false false
      else
        let w := writeText column true k (w.mark ['?'] true false true)
        (w.indent (column.getD 0)).mark [':'] true false true
    writeEntries column es (write column true d w)

end

def isOpen : Data → Bool
  | .null | .integer _ | .boolean _ => true
  | .string value => style value.toList == .plain
  | .list _ | .map _ => false

def render (data : Data) : String :=
  let w := (write none false data .start).indent 0
  let w := if isOpen data then (w.mark ['.', '.', '.'] true false false).indent 0 else w
  w.text

end MonkeyLang.Yaml
