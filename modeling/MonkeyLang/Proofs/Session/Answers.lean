import MonkeyLang.Proofs.Session.Failures

namespace MonkeyLang

/-- The computation gives the value if the condition holds, and else nothing. -/
def Yields {α : Type} (p : Prop) (a : α) (x : Option α) : Prop :=
  ∀ b, x = some b ↔ p ∧ a = b

namespace Yields

variable {α β : Type} {p q : Prop} {a : α} {x : Option α}

theorem pure (h : p) (a : α) : Yields p a (some a) := by
  simp [Yields, h]

theorem none (h : ¬ p) (a : α) : Yields p a .none := by
  simp [Yields, h]

theorem bind {f : α → Option β} {b : β} (h : Yields p a x) (hf : Yields q b (f a)) :
    Yields (p ∧ q) b (x >>= f) := by
  intro c
  simp only [Option.bind_eq_bind, Option.bind_eq_some_iff, h _]
  constructor
  · rintro ⟨_, ⟨hp, rfl⟩, hc⟩
    obtain ⟨hq, rfl⟩ := (hf c).mp hc
    exact ⟨⟨hp, hq⟩, rfl⟩
  · rintro ⟨⟨hp, hq⟩, rfl⟩
    exact ⟨a, ⟨hp, rfl⟩, (hf b).mpr ⟨hq, rfl⟩⟩

theorem map (h : Yields p a x) (f : α → β) : Yields p (f a) (x >>= fun a => some (f a)) := by
  have hbind : Yields (p ∧ True) (f a) (x >>= fun a => some (f a)) := h.bind (.pure trivial (f a))
  rwa [and_true] at hbind

theorem congr (h : Yields p a x) (hpq : p ↔ q) : Yields q a x :=
  propext hpq ▸ h

theorem mapM {f : α → Option β} {g : α → β} {P : α → Prop} (h : ∀ a, Yields (P a) (g a) (f a)) (as : List α) :
    Yields (∀ a ∈ as, P a) (as.map g) (as.mapM f) := by
  induction as with
  | nil => exact .pure (List.forall_mem_nil _) []
  | cons a as ih =>
    rw [List.mapM_cons]
    exact ((h a).bind (ih.map (g a :: ·))).congr List.forall_mem_cons.symm

end Yields

mutual

/-- How many arrays, hashes and wrappers stand inside one another in the value. -/
def Value.levels : Value → Nat
  | .array elements => Value.levelsAll elements + 1
  | .hash entries => Value.levelsEntries entries + 1
  | .returned value => value.levels + 1
  | _ => 0

def Value.levelsAll : List Value → Nat
  | [] => 0
  | v :: vs => max v.levels (Value.levelsAll vs)

def Value.levelsEntries : List (Key × Value) → Nat
  | [] => 0
  | (_, v) :: es => max v.levels (Value.levelsEntries es)

end

namespace Value

mutual

theorem yields_debugWithin (levels : Nat) (value : Value) :
    Yields (value.levels ≤ levels) value.debug (value.debugWithin levels) := by
  cases value with
  | array elements => cases levels with
    | zero => exact .none (Nat.not_succ_le_zero _) _
    | succ levels =>
      exact ((yields_debugAllWithin levels elements).map fun items =>
        "Array([" ++ ", ".intercalate items ++ "])").congr Nat.succ_le_succ_iff.symm
  | hash entries => cases levels with
    | zero => exact .none (Nat.not_succ_le_zero _) _
    | succ levels =>
      exact ((yields_debugEntriesWithin levels entries).map fun items =>
        "Hash(\x7b" ++ ", ".intercalate items ++ "\x7d)").congr Nat.succ_le_succ_iff.symm
  | returned value => cases levels with
    | zero => exact .none (Nat.not_succ_le_zero _) _
    | succ levels =>
      exact ((yields_debugWithin levels value).map ("Return(" ++ · ++ ")")).congr Nat.succ_le_succ_iff.symm
  | _ => exact .pure (Nat.zero_le levels) _

theorem yields_debugAllWithin (levels : Nat) (values : List Value) :
    Yields (levelsAll values ≤ levels) (debugAll values) (debugAllWithin levels values) := by
  cases values with
  | nil => exact .pure (Nat.zero_le levels) []
  | cons v vs =>
    exact ((yields_debugWithin levels v).bind ((yields_debugAllWithin levels vs).map (v.debug :: ·))).congr
      Nat.max_le.symm

theorem yields_debugEntriesWithin (levels : Nat) (entries : List (Key × Value)) :
    Yields (levelsEntries entries ≤ levels) (debugEntries entries) (debugEntriesWithin levels entries) := by
  cases entries with
  | nil => exact .pure (Nat.zero_le levels) []
  | cons entry es =>
    obtain ⟨k, v⟩ := entry
    exact ((yields_debugWithin levels v).bind ((yields_debugEntriesWithin levels es).map
      ((k.debug ++ ": " ++ v.debug) :: ·))).congr Nat.max_le.symm

end

end Value

namespace Session

variable {session : Session} {source : String}

end Session

def Value.nested : Nat → Value
  | 0 => .integer 0
  | n + 1 => .array [nested n]

namespace Session

end Session

end MonkeyLang
