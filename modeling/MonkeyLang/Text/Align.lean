namespace MonkeyLang.Text

def spaces (n : Nat) : String :=
  String.ofList (List.replicate n ' ')

def alignRight (width : Nat) (text : String) : String :=
  spaces (width - text.length) ++ text

@[simp] theorem toList_spaces (n : Nat) : (spaces n).toList = List.replicate n ' ' := by
  simp [spaces]

@[simp] theorem length_spaces (n : Nat) : (spaces n).length = n := by
  simp [spaces]

end MonkeyLang.Text
