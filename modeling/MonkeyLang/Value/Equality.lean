import MonkeyLang.Value.Basic

namespace MonkeyLang

mutual

def Value.same : Value → Value → Bool
  | .null, .null => true
  | .integer a, .integer b => a == b
  | .boolean a, .boolean b => a == b
  | .string a, .string b => a == b
  | .array as, .array bs => Value.sameAll as bs
  | .hash as, .hash bs => as.length == bs.length && Value.sameEntries as bs
  | .function a, .function b => a.id == b.id
  | .builtin a owner, .builtin b owner' => a == b && owner == owner'
  | .returned a, .returned b => a.same b
  | .error a, .error b => a == b
  | _, _ => false

def Value.sameAll : List Value → List Value → Bool
  | [], [] => true
  | a :: as, b :: bs => a.same b && Value.sameAll as bs
  | _, _ => false

def Value.sameEntries : List (Key × Value) → List (Key × Value) → Bool
  | [], _ => true
  | (key, a) :: as, bs =>
    (match bs.lookup key with
      | some b => a.same b
      | none => false) && Value.sameEntries as bs

end

end MonkeyLang
