import MonkeyLang.Proofs.Value.Storable
import MonkeyLang.Value.Equality

namespace MonkeyLang

theorem Table.lookup_of_mem {α β : Type} [DecidableEq α] {key : α} {value : β} {entries : List (α × β)}
    (hkeys : (entries.map (·.1)).Nodup) (h : (key, value) ∈ entries) :
    entries.lookup key = some value := by
  induction entries with
  | nil => cases h
  | cons entry entries ih =>
    obtain ⟨other, first⟩ := entry
    obtain ⟨hfirst, hrest⟩ := List.nodup_cons.mp hkeys
    rcases List.mem_cons.mp h with heq | mem
    · obtain ⟨rfl, rfl⟩ := Prod.mk.inj heq
      exact List.lookup_cons_self
    · have hne : (key == other) = false := by
        refine beq_eq_false_iff_ne.mpr ?_
        rintro rfl
        exact hfirst (List.mem_map.mpr ⟨_, mem, rfl⟩)
      rw [List.lookup_cons, hne]
      exact ih hrest mem

namespace Value

def Keyed (value : Value) : Prop :=
  ∀ part, Occurs part value → ∀ entries, part = .hash entries → (entries.map (·.1)).Nodup

theorem Keyed.child {value child : Value} (h : value.Keyed) (mem : child ∈ value.children) : child.Keyed :=
  fun part occurs => h part (.child mem occurs)

theorem Result.keyed {size : Nat} {value : Value} (h : value.Result size) : value.Keyed := by
  rcases h with ⟨message, rfl⟩ | h
  · intro part occurs entries hpart
    cases occurs with
    | whole => cases hpart
    | child mem _ => cases mem
  · exact fun part occurs => (h.clean part occurs).2.2

mutual

theorem same_self (a : Value) (h : a.Keyed) : a.same a = true := by
  match a with
  | .null => rfl
  | .integer _ | .boolean _ | .string _ | .function _ | .builtin _ _ | .error _ => simp [Value.same]
  | .array elements =>
    rw [Value.same]
    exact sameAll_self elements fun a mem => h.child mem
  | .hash entries =>
    have hlookup : ∀ entry ∈ entries, entries.lookup entry.1 = some entry.2 := fun entry mem =>
      Table.lookup_of_mem (h _ .whole entries rfl) mem
    rw [Value.same, sameEntries_self entries hlookup fun entry mem => h.child (List.mem_map_of_mem mem)]
    simp
  | .returned a =>
    rw [Value.same]
    exact same_self a (h.child (List.mem_singleton_self a))

theorem sameAll_self (as : List Value) (h : ∀ a ∈ as, a.Keyed) : sameAll as as = true := by
  match as with
  | [] => rfl
  | a :: as =>
    obtain ⟨ha, hrest⟩ := List.forall_mem_cons.mp h
    rw [sameAll, same_self a ha, sameAll_self as hrest]
    rfl

theorem sameEntries_self {entries : List (Key × Value)} (as : List (Key × Value))
    (hlookup : ∀ entry ∈ as, entries.lookup entry.1 = some entry.2) (h : ∀ entry ∈ as, entry.2.Keyed) :
    sameEntries as entries = true := by
  match as with
  | [] => rfl
  | (key, a) :: as =>
    obtain ⟨ha, hrest⟩ := List.forall_mem_cons.mp h
    obtain ⟨hfirst, hlookup⟩ := List.forall_mem_cons.mp hlookup
    rw [sameEntries, hfirst, sameEntries_self as hlookup hrest]
    simp only [same_self a ha, Bool.and_self]

end

end Value

end MonkeyLang
