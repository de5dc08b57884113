import MonkeyLang.Proofs.Value.Parts

namespace MonkeyLang

namespace Value

def Plain (value : Value) : Prop :=
  ∀ part, Occurs part value → ∀ inner, part ≠ .returned inner

variable {value : Value}

theorem Plain.ne_returned (h : value.Plain) (inner : Value) : value ≠ .returned inner :=
  h value .whole inner

theorem spares_wrapped : Spares fun part => ∀ inner, part ≠ .returned inner :=
  fun _ _ hreturned => hreturned

@[simp] theorem plain_null : Plain .null := every_null spares_wrapped

@[simp] theorem plain_integer (value : Int) : Plain (.integer value) := every_integer spares_wrapped value

@[simp] theorem plain_boolean (value : Bool) : Plain (.boolean value) := every_boolean spares_wrapped value

@[simp] theorem plain_string (value : String) : Plain (.string value) := every_string spares_wrapped value

@[simp] theorem plain_function (closure : Closure) : Plain (.function closure) :=
  every_of_childless rfl (by simp)

@[simp] theorem plain_error (message : String) : Plain (.error message) :=
  every_error spares_wrapped message

@[simp] theorem plain_array {elements : List Value} :
    Plain (.array elements) ↔ ∀ element ∈ elements, element.Plain :=
  every_array spares_wrapped

@[simp] theorem plain_hash {entries : List (Key × Value)} :
    Plain (.hash entries) ↔ ∀ entry ∈ entries, entry.2.Plain :=
  every_hash spares_wrapped

theorem Result.plain {size : Nat} (h : value.Result size) : value.Plain := by
  rcases h with ⟨message, rfl⟩ | h
  · exact plain_error message
  · exact fun part occurs => (h.clean part occurs).2.1

theorem plain_binary (operator : Operator) (left right : Value) : Plain (binary operator left right) :=
  every_binary spares_wrapped operator left right

theorem plain_unary (operator : Operator) (right : Value) : Plain (unary operator right) :=
  every_unary spares_wrapped operator right

theorem plain_unusableKey (value : Value) : value.unusableKey.Plain :=
  every_unusableKey spares_wrapped value

theorem plain_index {left : Value} (h : left.Plain) (index : Value) : Plain (left.index index) :=
  every_index spares_wrapped h index

theorem plain_insert {entries : List (Key × Value)} (h : Plain (.hash entries)) (key : Key)
    (hvalue : value.Plain) : Plain (.hash (Table.insert key value entries)) :=
  every_insert spares_wrapped h key hvalue

end Value

theorem Builtin.plain_apply (op : Builtin) {arguments : List Value}
    (h : ∀ argument ∈ arguments, argument.Plain) : (op.apply arguments).Plain :=
  op.every_apply Value.spares_wrapped h

end MonkeyLang
