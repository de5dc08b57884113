import MonkeyLang.Eval.Machine
import MonkeyLang.Proofs.Value.Storable

namespace MonkeyLang

namespace Value

/-- The value and all that stands in it are as the condition says. -/
def Every (P : Value → Prop) (value : Value) : Prop :=
  ∀ part, Occurs part value → P part

/-- Every value that is neither a function nor wrapped is as the condition says. -/
def Spares (P : Value → Prop) : Prop :=
  ∀ value, (∀ closure, value ≠ .function closure) → (∀ inner, value ≠ .returned inner) → P value

variable {P : Value → Prop} {value : Value}

theorem Every.whole (h : value.Every P) : P value :=
  h value .whole

theorem every_iff : value.Every P ↔ P value ∧ ∀ child ∈ value.children, child.Every P := by
  refine ⟨fun h => ⟨h.whole, fun child mem part occurs => h part (.child mem occurs)⟩, ?_⟩
  rintro ⟨hwhole, hchildren⟩ part occurs
  cases occurs with
  | whole => exact hwhole
  | child mem occurs => exact hchildren _ mem part occurs

theorem every_of_childless (hchildren : value.children = []) (hwhole : P value) : value.Every P := by
  rw [every_iff, hchildren]
  exact ⟨hwhole, by simp⟩

section Spared

variable (hP : Spares P)
include hP

theorem every_null : Every P .null := every_of_childless rfl (hP _ (by simp) (by simp))

theorem every_integer (value : Int) : Every P (.integer value) :=
  every_of_childless rfl (hP _ (by simp) (by simp))

theorem every_boolean (value : Bool) : Every P (.boolean value) :=
  every_of_childless rfl (hP _ (by simp) (by simp))

theorem every_string (value : String) : Every P (.string value) :=
  every_of_childless rfl (hP _ (by simp) (by simp))

theorem every_builtin (op : Builtin) (owner : FrameId) : Every P (.builtin op owner) :=
  every_of_childless rfl (hP _ (by simp) (by simp))

theorem every_error (message : String) : Every P (.error message) :=
  every_of_childless rfl (hP _ (by simp) (by simp))

theorem every_array {elements : List Value} :
    Every P (.array elements) ↔ ∀ element ∈ elements, element.Every P := by
  rw [every_iff]
  exact and_iff_right (hP _ (by simp) (by simp))

theorem every_hash {entries : List (Key × Value)} :
    Every P (.hash entries) ↔ ∀ entry ∈ entries, entry.2.Every P := by
  rw [every_iff, children, List.forall_mem_map]
  exact and_iff_right (hP _ (by simp) (by simp))

theorem Result.every (h : value.Result 0) : value.Every P := by
  rcases h with ⟨message, rfl⟩ | h
  · exact every_error hP message
  · intro part occurs
    refine hP part ?_ (h.clean part occurs).2.1
    rintro closure rfl
    exact absurd (h.live closure occurs) (Nat.not_lt_zero _)

theorem every_binary (operator : Operator) (left right : Value) : Every P (binary operator left right) :=
  Result.every hP (result_binary operator left right)

theorem every_unary (operator : Operator) (right : Value) : Every P (unary operator right) :=
  Result.every hP (result_unary operator right)

theorem every_unusableKey (value : Value) : value.unusableKey.Every P :=
  every_error hP _

theorem every_index {left : Value} (h : left.Every P) (index : Value) : Every P (left.index index) := by
  unfold Value.index
  split
  next elements i =>
    split
    · exact every_null hP
    · rw [List.getD_eq_getElem?_getD]
      cases helement : elements[i.toNat]? with
      | none => exact every_null hP
      | some element => exact (every_array hP).mp h element (List.mem_of_getElem? helement)
  · exact every_error hP _
  next entries =>
    split
    · exact every_unusableKey hP _
    next key _ =>
      cases hlookup : entries.lookup key with
      | none => exact every_error hP _
      | some value => exact (every_hash hP).mp h (key, value) (mem_of_lookup hlookup)
  · exact every_error hP _

theorem every_insert {entries : List (Key × Value)} (h : Every P (.hash entries)) (key : Key)
    (hvalue : value.Every P) : Every P (.hash (Table.insert key value entries)) := by
  refine (every_hash hP).mpr fun entry mem => ?_
  rcases Table.mem_insert mem with rfl | mem
  · exact hvalue
  · exact (every_hash hP).mp h entry mem

end Spared

end Value

theorem Builtin.every_apply {P : Value → Prop} (hP : Value.Spares P) (op : Builtin) {arguments : List Value}
    (h : ∀ argument ∈ arguments, argument.Every P) : (op.apply arguments).Every P := by
  unfold Builtin.apply
  split
  case h_1 elements =>
    have helements := (Value.every_array hP).mp (h (.array elements) (by simp))
    cases elements with
    | nil => exact Value.every_null hP
    | cons first elements => exact helements first (by simp)
  case h_2 elements =>
    have helements := (Value.every_array hP).mp (h (.array elements) (by simp))
    rw [List.getLastD_eq_getLast?]
    cases hlast : elements.getLast? with
    | none => exact Value.every_null hP
    | some last => exact helements last (List.mem_of_getLast? hlast)
  case h_3 => exact Value.every_integer hP _
  case h_4 => exact Value.every_integer hP _
  case h_5 elements value =>
    refine (Value.every_array hP).mpr fun element mem => ?_
    rcases List.mem_append.mp mem with mem | mem
    · exact (Value.every_array hP).mp (h (.array elements) (by simp)) element mem
    · exact h element (by simp [List.mem_singleton.mp mem])
  case h_6 elements =>
    refine (Value.every_array hP).mpr fun element mem => ?_
    exact (Value.every_array hP).mp (h (.array elements) (by simp)) element
      ((List.dropLast_sublist elements).subset mem)
  case h_7 entries key value =>
    split
    · exact Value.every_unusableKey hP _
    · exact Value.every_insert hP (h (.hash entries) (by simp)) _ (h value (by simp))
  case h_8 =>
    split
    · split
      · exact Value.every_error hP _
      · exact Value.every_error hP _
    · exact Value.every_error hP _

def Machine.Every (P : Value → Prop) (m : Machine) : Prop :=
  ∀ (i : FrameId) (frame : Frame), m.store.frames[i]? = some frame →
    ∀ binding ∈ frame.bindings, binding.2.Every P

namespace Machine

variable {P : Value → Prop} {m : Machine}

theorem Every.child (h : m.Every P) (parent : Option FrameId) :
    Every P { m with store := (m.store.child parent).2 } := by
  intro i frame hi binding mem
  rw [Store.child, Array.getElem?_push] at hi
  split at hi
  · cases hi
    cases mem
  · exact h i frame hi binding mem

theorem Every.bind (h : m.Every P) (frame : FrameId) (name : String) {value : Value}
    (hvalue : value.Every P) : Every P { m with store := m.store.bind frame name value } := by
  intro i new hi binding mem
  rw [Store.bind, Array.getElem?_modify] at hi
  split at hi
  · obtain ⟨old, hold, rfl⟩ := Option.map_eq_some_iff.mp hi
    rcases Table.mem_insert mem with rfl | mem
    · exact hvalue
    · exact h i old hold binding mem
  · exact h i new hi binding mem

theorem Every.resolve (h : m.Every P) {frame : FrameId} {name : String} {value : Value}
    (hvalue : m.store.resolve frame name = some value) : value.Every P := by
  rw [Store.resolve, Option.bind_eq_some_iff] at hvalue
  obtain ⟨owner, -, hlookup⟩ := hvalue
  rw [Store.bindings] at hlookup
  split at hlookup
  next frame hframe => exact h owner frame hframe _ (Value.mem_of_lookup hlookup)
  next => cases hlookup

end Machine

end MonkeyLang
