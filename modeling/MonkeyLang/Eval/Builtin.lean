import MonkeyLang.Eval.Operator

namespace MonkeyLang.Builtin

def invalidArgument (builtin : Builtin) (argument : Value) : Value :=
  .error s!"{builtin.name}(): Invalid argument: {argument.debug}"

def wrongArity (builtin : Builtin) (count : Nat) : Value :=
  .error s!"{builtin.name}(): wrong number of arguments - expected {builtin.arity}, got {count}"

def apply : Builtin → List Value → Value
  | first, [.array elements] => elements.headD .null
  | last, [.array elements] => elements.getLastD .null
  -- Half a surrogate pair is no character of a text, so every text has an encoding.
  | len, [.string value] => .integer value.utf8ByteSize
  | len, [.array elements] => .integer elements.length
  | push, [.array elements, value] => .array (elements ++ [value])
  | rest, [.array elements] => .array elements.dropLast
  | put, [.hash entries, key, value] =>
    match key.key? with
    | none => key.unusableKey
    | some key => .hash (Table.insert key value entries)
  | builtin, arguments =>
    match arguments with
    | argument :: _ =>
      if arguments.length = builtin.arity then builtin.invalidArgument argument
      else builtin.wrongArity arguments.length
    | [] => builtin.wrongArity 0

theorem apply_of_arity_ne {op : Builtin} {arguments : List Value} (h : arguments.length ≠ op.arity) :
    op.apply arguments = op.wrongArity arguments.length := by
  unfold apply
  split
  case h_8 =>
    cases arguments with
    | nil => rfl
    | cons => exact if_neg h
  all_goals exact absurd rfl h

end MonkeyLang.Builtin
