import MonkeyLang.Ast.Error

namespace MonkeyLang.Command

inductive Ending where
  | status (code : Nat)
  | uncaught (error : ParseError)
deriving DecidableEq, Repr

structure Output where
  ending : Ending
  out : String
  err : String
deriving DecidableEq, Repr

namespace Output

def success (text : String) : Output :=
  ⟨.status 0, text, ""⟩

def failure (code : Nat) (message : String) : Output :=
  ⟨.status code, "", message ++ "\n"⟩

end Output

end MonkeyLang.Command
