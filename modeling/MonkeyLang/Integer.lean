namespace MonkeyLang

def maxInteger : Nat := 0x7fffffffffffffff

def inRange (n : Int) : Bool :=
  -(maxInteger : Int) - 1 ≤ n && n ≤ maxInteger

end MonkeyLang
