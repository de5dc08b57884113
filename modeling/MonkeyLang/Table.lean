namespace MonkeyLang.Table

variable {α β : Type} [DecidableEq α]

def insert (key : α) (value : β) : List (α × β) → List (α × β)
  | [] => [(key, value)]
  | (k, v) :: entries =>
    if k = key then (k, value) :: entries else (k, v) :: insert key value entries

def contains (entries : List (α × β)) (key : α) : Bool :=
  entries.any fun entry => entry.1 = key

theorem lookup_insert_self (key : α) (value : β) (entries : List (α × β)) :
    (insert key value entries).lookup key = some value := by
  induction entries with
  | nil => simp [insert]
  | cons entry entries ih =>
    obtain ⟨k, v⟩ := entry
    by_cases h : k = key
    · simp [insert, h]
    · have : (key == k) = false := by simpa using fun e => h e.symm
      simp [insert, h, List.lookup_cons, this, ih]

theorem lookup_insert_of_ne {key other : α} (h : other ≠ key) (value : β) (entries : List (α × β)) :
    (insert key value entries).lookup other = entries.lookup other := by
  have hb : (other == key) = false := by simpa using h
  induction entries with
  | nil => simp [insert, List.lookup_cons, hb]
  | cons entry entries ih =>
    obtain ⟨k, v⟩ := entry
    by_cases hk : k = key
    · subst hk
      simp [insert, List.lookup_cons, hb]
    · simp only [insert, hk, if_false, List.lookup_cons, ih]

theorem keys_insert (key : α) (value : β) (entries : List (α × β)) :
    (insert key value entries).map (·.1) =
      if key ∈ entries.map (·.1) then entries.map (·.1) else entries.map (·.1) ++ [key] := by
  induction entries with
  | nil => simp [insert]
  | cons entry entries ih =>
    obtain ⟨k, v⟩ := entry
    by_cases hk : k = key
    · simp [insert, hk]
    · have hk' : key ≠ k := fun e => hk e.symm
      simp only [insert, hk, if_false, List.map_cons, ih, List.mem_cons, hk', false_or]
      split <;> rfl

end MonkeyLang.Table
