import MonkeyLang.Eval.Builtin

namespace MonkeyLang

namespace Value

def children : Value → List Value
  | .array elements => elements
  | .hash entries => entries.map (·.2)
  | .returned value => [value]
  | .null | .integer _ | .boolean _ | .string _ | .function _ | .builtin _ _ | .error _ => []

inductive Occurs (part : Value) : Value → Prop where
  | whole : Occurs part part
  | child {whole child : Value} : child ∈ whole.children → Occurs part child → Occurs part whole

/-- Neither an error nor a wrapped return value stands anywhere in the value, and no hash in it has a
key twice; that keys are integers, booleans or strings is in their type. -/
def Clean (value : Value) : Prop :=
  ∀ part, Occurs part value →
    (∀ message, part ≠ .error message) ∧ (∀ inner, part ≠ .returned inner) ∧
      ∀ entries, part = .hash entries → (entries.map (·.1)).Nodup

def Live (size : Nat) (value : Value) : Prop :=
  ∀ closure, Occurs (.function closure) value → closure.scope < size

structure Storable (size : Nat) (value : Value) : Prop where
  clean : value.Clean
  live : value.Live size

variable {size : Nat} {value : Value}

theorem Live.mono (h : value.Live size) {more : Nat} (hle : size ≤ more) : value.Live more :=
  fun closure occurs => Nat.lt_of_lt_of_le (h closure occurs) hle

theorem Storable.mono (h : value.Storable size) {more : Nat} (hle : size ≤ more) :
    value.Storable more :=
  ⟨h.clean, h.live.mono hle⟩

theorem Storable.child (h : value.Storable size) {child : Value} (mem : child ∈ value.children) :
    child.Storable size where
  clean part occurs := h.clean part (.child mem occurs)
  live closure occurs := h.live closure (.child mem occurs)

theorem Storable.ne_returned (h : value.Storable size) (inner : Value) : value ≠ .returned inner :=
  (h.clean value .whole).2.1 inner

theorem storable_of_children (hchildren : ∀ child ∈ value.children, child.Storable size)
    (herror : ∀ message, value ≠ .error message) (hreturned : ∀ inner, value ≠ .returned inner)
    (hkeys : ∀ entries, value = .hash entries → (entries.map (·.1)).Nodup)
    (hscope : ∀ closure, value = .function closure → closure.scope < size) : value.Storable size where
  clean part occurs := by
    cases occurs with
    | whole => exact ⟨herror, hreturned, hkeys⟩
    | child mem occurs => exact (hchildren _ mem).clean part occurs
  live closure occurs := by
    -- The part is a parameter of `Occurs`, so its cases can be told apart only if it is a variable.
    generalize hpart : Value.function closure = part at occurs
    cases occurs with
    | whole => exact hscope closure hpart.symm
    | child mem occurs => exact (hchildren _ mem).live closure (hpart ▸ occurs)

theorem storable_null : Storable size .null :=
  storable_of_children (by simp [children]) (by simp) (by simp) (by simp) (by simp)

theorem storable_integer (value : Int) : Storable size (.integer value) :=
  storable_of_children (by simp [children]) (by simp) (by simp) (by simp) (by simp)

theorem storable_boolean (value : Bool) : Storable size (.boolean value) :=
  storable_of_children (by simp [children]) (by simp) (by simp) (by simp) (by simp)

theorem storable_string (value : String) : Storable size (.string value) :=
  storable_of_children (by simp [children]) (by simp) (by simp) (by simp) (by simp)

theorem storable_builtin (op : Builtin) (owner : FrameId) : Storable size (.builtin op owner) :=
  storable_of_children (by simp [children]) (by simp) (by simp) (by simp) (by simp)

theorem storable_function {closure : Closure} (h : closure.scope < size) :
    Storable size (.function closure) :=
  storable_of_children (by simp [children]) (by simp) (by simp) (by simp) (by
    rintro _ ⟨⟩
    exact h)

theorem storable_array {elements : List Value} (h : ∀ element ∈ elements, element.Storable size) :
    Storable size (.array elements) :=
  storable_of_children h (by simp) (by simp) (by simp) (by simp)

theorem storable_hash {entries : List (Key × Value)} (hkeys : (entries.map (·.1)).Nodup)
    (h : ∀ entry ∈ entries, entry.2.Storable size) : Storable size (.hash entries) :=
  storable_of_children (List.forall_mem_map.mpr h) (by simp) (by simp) (by
    rintro _ ⟨⟩
    exact hkeys) (by simp)

theorem Storable.keys {entries : List (Key × Value)} (h : Storable size (.hash entries)) :
    (entries.map (·.1)).Nodup :=
  (h.clean _ .whole).2.2 entries rfl

theorem Storable.entry {entries : List (Key × Value)} (h : Storable size (.hash entries)) :
    ∀ entry ∈ entries, entry.2.Storable size :=
  fun _ mem => h.child (List.mem_map_of_mem mem)

def Result (size : Nat) (value : Value) : Prop :=
  (∃ message, value = .error message) ∨ value.Storable size

def Outcome (size : Nat) (value : Value) : Prop :=
  value.Result size ∨ ∃ inner, value = .returned inner ∧ inner.Result size

theorem result_error (message : String) : Result size (.error message) :=
  .inl ⟨message, rfl⟩

theorem Storable.result (h : value.Storable size) : value.Result size :=
  .inr h

theorem Result.mono (h : value.Result size) {more : Nat} (hle : size ≤ more) : value.Result more := by
  rcases h with h | h
  · exact .inl h
  · exact .inr (h.mono hle)

theorem Outcome.mono (h : value.Outcome size) {more : Nat} (hle : size ≤ more) : value.Outcome more := by
  rcases h with h | ⟨inner, rfl, h⟩
  · exact .inl (h.mono hle)
  · exact .inr ⟨inner, rfl, h.mono hle⟩

theorem Result.ne_returned (h : value.Result size) (inner : Value) : value ≠ .returned inner := by
  rcases h with ⟨message, rfl⟩ | h
  · simp
  · exact h.ne_returned inner

theorem Result.storable (h : value.Result size) (hvalue : ∀ message, value ≠ .error message) :
    value.Storable size := by
  rcases h with ⟨message, rfl⟩ | h
  · exact absurd rfl (hvalue message)
  · exact h

theorem Outcome.unwrap (h : value.Outcome size) : value.unwrap.Result size := by
  rcases h with h | ⟨inner, rfl, h⟩
  · cases value with
    | returned inner => exact absurd rfl (h.ne_returned inner)
    | _ => exact h
  · exact h

theorem result_checked (operator : Operator) (left right result : Int) :
    Result size (checked operator left right result) := by
  unfold checked
  split
  · exact (storable_integer result).result
  · exact result_error _

theorem result_integerOperation (operator : Operator) (left right : Int) :
    Result size (integerOperation operator left right) := by
  unfold integerOperation
  split
  case h_4 =>
    split
    · exact result_error _
    · exact result_checked _ _ _ _
  all_goals
    first
    | exact result_checked _ _ _ _
    | exact (storable_boolean _).result
    | exact result_error _

theorem result_append (operator : Operator) (left : String) (right : Value) (text : String) :
    Result size (append operator left right text) := by
  unfold append
  split
  · exact (storable_string _).result
  · exact result_error _

theorem result_binary (operator : Operator) (left right : Value) :
    Result size (binary operator left right) := by
  unfold binary
  split
  · exact result_integerOperation _ _ _
  · exact result_append _ _ _ _
  · exact result_append _ _ _ _
  · exact result_error _

theorem result_unary (operator : Operator) (right : Value) : Result size (unary operator right) := by
  unfold unary
  split
  · exact (storable_boolean _).result
  · split
    · exact (storable_integer _).result
    · exact result_error _
  · exact result_error _

theorem result_getD {elements : List Value} (h : ∀ element ∈ elements, element.Storable size) (i : Nat) :
    Result size (elements.getD i .null) := by
  rw [List.getD_eq_getElem?_getD]
  cases hi : elements[i]? with
  | none => exact storable_null.result
  | some element => exact (h element (List.mem_of_getElem? hi)).result

theorem mem_of_lookup {α : Type} [DecidableEq α] {key : α} {entries : List (α × Value)}
    (h : entries.lookup key = some value) : (key, value) ∈ entries := by
  obtain ⟨before, after, rfl, -⟩ := List.lookup_eq_some_iff.mp h
  simp

theorem result_index {left : Value} (h : left.Storable size) (index : Value) :
    Result size (left.index index) := by
  unfold Value.index
  split
  · split
    · exact storable_null.result
    · exact result_getD (fun _ mem => h.child mem) _
  · exact result_error _
  next entries =>
    split
    · exact result_error _
    next key _ =>
      cases hlookup : entries.lookup key with
      | none => exact result_error _
      | some value => exact (h.entry (key, value) (mem_of_lookup hlookup)).result
  · exact result_error _

end Value

theorem Table.mem_insert {α β : Type} [DecidableEq α] {key : α} {value : β} {entries : List (α × β)}
    {entry : α × β} (h : entry ∈ Table.insert key value entries) :
    entry = (key, value) ∨ entry ∈ entries := by
  induction entries with
  | nil => exact .inl (List.mem_singleton.mp h)
  | cons first entries ih =>
    obtain ⟨other, old⟩ := first
    rw [Table.insert] at h
    split at h
    next heq =>
      subst heq
      rcases List.mem_cons.mp h with rfl | mem
      · exact .inl rfl
      · exact .inr (List.mem_cons_of_mem _ mem)
    next =>
      rcases List.mem_cons.mp h with rfl | mem
      · exact .inr (List.mem_cons_self ..)
      · rcases ih mem with rfl | mem
        · exact .inl rfl
        · exact .inr (List.mem_cons_of_mem _ mem)

theorem Table.nodup_insert {α β : Type} [DecidableEq α] {entries : List (α × β)}
    (h : (entries.map (·.1)).Nodup) (key : α) (value : β) :
    ((Table.insert key value entries).map (·.1)).Nodup := by
  rw [Table.keys_insert]
  split
  · exact h
  next hkey =>
    refine List.nodup_append.mpr ⟨h, by simp, ?_⟩
    rintro other mem _ hother rfl
    obtain rfl := List.mem_singleton.mp hother
    exact hkey mem

theorem Value.storable_insert {size : Nat} {entries : List (Key × Value)}
    (h : Storable size (.hash entries)) (key : Key) {value : Value} (hvalue : value.Storable size) :
    Storable size (.hash (Table.insert key value entries)) := by
  refine storable_hash (Table.nodup_insert h.keys key value) fun entry mem => ?_
  rcases Table.mem_insert mem with rfl | mem
  · exact hvalue
  · exact h.entry entry mem

theorem Builtin.result_apply {size : Nat} (op : Builtin) {arguments : List Value}
    (h : ∀ argument ∈ arguments, argument.Storable size) : (op.apply arguments).Result size := by
  unfold Builtin.apply
  split
  case h_1 elements =>
    have helements : ∀ element ∈ elements, element.Storable size := fun _ mem =>
      (h (.array elements) (by simp)).child mem
    cases elements with
    | nil => exact Value.storable_null.result
    | cons first elements => exact (helements first (by simp)).result
  case h_2 elements =>
    have helements : ∀ element ∈ elements, element.Storable size := fun _ mem =>
      (h (.array elements) (by simp)).child mem
    rw [List.getLastD_eq_getLast?]
    cases hlast : elements.getLast? with
    | none => exact Value.storable_null.result
    | some last => exact (helements last (List.mem_of_getLast? hlast)).result
  case h_3 => exact (Value.storable_integer _).result
  case h_4 => exact (Value.storable_integer _).result
  case h_5 elements value =>
    refine (Value.storable_array fun element mem => ?_).result
    rcases List.mem_append.mp mem with mem | mem
    · exact (h (.array elements) (by simp)).child mem
    · exact h element (by simp [List.mem_singleton.mp mem])
  case h_6 elements =>
    refine (Value.storable_array fun element mem => ?_).result
    exact (h (.array elements) (by simp)).child ((List.dropLast_sublist elements).subset mem)
  case h_7 entries key value =>
    split
    · exact Value.result_error _
    · exact (Value.storable_insert (h (.hash entries) (by simp)) _ (h value (by simp))).result
  case h_8 =>
    split
    · split
      · exact Value.result_error _
      · exact Value.result_error _
    · exact Value.result_error _

end MonkeyLang
