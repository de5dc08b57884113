import Mathlib.Data.List.Perm.Subperm
import MonkeyLang.Proofs.Eval.Hashes

namespace MonkeyLang

namespace Value

abbrev Same (a b : Value) : Prop := a.same b = true

theorem sizeOf_child {value child : Value} (mem : child ∈ value.children) : sizeOf child < sizeOf value := by
  cases value with
  | array elements =>
    have hlt : sizeOf child < sizeOf elements := List.sizeOf_lt_of_mem mem
    simp only [array.sizeOf_spec]
    omega
  | hash entries =>
    obtain ⟨entry, hentry, rfl⟩ := List.mem_map.mp mem
    have hlt := List.sizeOf_lt_of_mem hentry
    cases entry
    simp only [hash.sizeOf_spec, Prod.mk.sizeOf_spec] at hlt ⊢
    omega
  | returned value =>
    obtain rfl := List.mem_singleton.mp mem
    simp
  | _ => cases mem

@[elab_as_elim]
theorem induction_children {motive : Value → Prop}
    (step : ∀ value, (∀ child ∈ value.children, motive child) → motive value) (value : Value) :
    motive value :=
  step value fun child mem =>
    have := sizeOf_child mem
    induction_children step child
termination_by sizeOf value

theorem child_of_lookup {entries : List (Key × Value)} {key : Key} {value : Value}
    (h : value ∈ entries.lookup key) : value ∈ (hash entries).children :=
  List.mem_map_of_mem (mem_of_lookup h)

theorem child_of_getElem? {elements : List Value} {i : Nat} {value : Value} (h : value ∈ elements[i]?) :
    value ∈ (array elements).children :=
  List.mem_of_getElem? h

theorem same_array_iff {as bs : List Value} :
    (array as).Same (.array bs) ↔ ∀ i : Nat, Option.Rel Same as[i]? bs[i]? := by
  rw [Same, Value.same]
  induction as generalizing bs with
  | nil =>
    cases bs with
    | nil => simp [sameAll]
    | cons b bs =>
      refine iff_of_false (by simp [sameAll]) fun h => ?_
      cases h 0
  | cons a as ih =>
    cases bs with
    | nil =>
      refine iff_of_false (by simp [sameAll]) fun h => ?_
      cases h 0
    | cons b bs =>
      have hsplit : (∀ i : Nat, Option.Rel Same (a :: as)[i]? (b :: bs)[i]?) ↔
          Option.Rel Same (some a) (some b) ∧ ∀ i : Nat, Option.Rel Same as[i]? bs[i]? :=
        Nat.and_forall_add_one.symm
      rw [sameAll, Bool.and_eq_true, ih, hsplit, Option.rel_some_some]

theorem sameEntries_iff {as bs : List (Key × Value)} :
    sameEntries as bs = true ↔ ∀ entry ∈ as, ∃ b, bs.lookup entry.1 = some b ∧ entry.2.Same b := by
  induction as with
  | nil => simp [sameEntries]
  | cons entry as ih =>
    obtain ⟨key, a⟩ := entry
    rw [sameEntries, Bool.and_eq_true, ih, List.forall_mem_cons]
    cases bs.lookup key <;> simp

theorem isSome_of_rel {R : Value → Value → Prop} {x y : Option Value} (h : Option.Rel R x y) :
    x.isSome = y.isSome := by
  cases h <;> rfl

theorem same_hash_iff {as bs : List (Key × Value)} (has : (hash as).Keyed) (hbs : (hash bs).Keyed) :
    (hash as).Same (.hash bs) ↔ ∀ key, Option.Rel Same (as.lookup key) (bs.lookup key) := by
  have hkeys : (as.map (·.1)).Nodup := has _ .whole as rfl
  have hkeys' : (bs.map (·.1)).Nodup := hbs _ .whole bs rfl
  rw [Same, Value.same, Bool.and_eq_true, beq_iff_eq, sameEntries_iff]
  constructor
  · rintro ⟨hlength, hentries⟩ key
    cases ha : as.lookup key with
    | some a =>
      obtain ⟨b, hb, hsame⟩ := hentries (key, a) (mem_of_lookup ha)
      rw [hb]
      exact .some hsame
    | none =>
      have hsub : as.map (·.1) ⊆ bs.map (·.1) := by
        intro other mem
        obtain ⟨entry, hentry, rfl⟩ := List.mem_map.mp mem
        obtain ⟨b, hb, -⟩ := hentries entry hentry
        rw [Table.mem_keys_iff, hb, Option.isSome_some]
      have hperm : (as.map (·.1)).Perm (bs.map (·.1)) :=
        (List.subperm_of_subset hkeys hsub).perm_of_length_le (by simp [hlength])
      have hb : bs.lookup key = none := by
        rw [← Option.not_isSome_iff_eq_none, ← Table.mem_keys_iff, ← hperm.mem_iff, Table.mem_keys_iff, ha]
        simp
      rw [hb]
      exact .none
  · intro h
    constructor
    · apply Table.length_eq_of_keys hkeys hkeys'
      intro key
      have hkey := h key
      rw [Table.mem_keys_iff, Table.mem_keys_iff, isSome_of_rel hkey]
    · intro entry mem
      have hkey := h entry.1
      rw [Table.lookup_of_mem hkeys mem] at hkey
      generalize bs.lookup entry.1 = found at hkey ⊢
      cases hkey with
      | some hsame => exact ⟨_, rfl, hsame⟩

theorem same_builtin_iff {op : Builtin} {owner : FrameId} {value : Value} :
    (builtin op owner).Same value ↔ value = .builtin op owner := by
  constructor
  · intro h
    cases value with
    | builtin op' owner' =>
      rw [Same, Value.same, Bool.and_eq_true, beq_iff_eq, beq_iff_eq] at h
      rw [h.1, h.2]
    | _ => cases h
  · rintro rfl
    simp [Same, Value.same]

/-- The values are of one type and have equal parts. Functions and built-ins have no parts and are told apart
by identity. -/
inductive Congruent : Value → Value → Prop where
  | null : Congruent .null .null
  | integer (value : Int) : Congruent (.integer value) (.integer value)
  | boolean (value : Bool) : Congruent (.boolean value) (.boolean value)
  | string (value : String) : Congruent (.string value) (.string value)
  | array {as bs : List Value} : (∀ i : Nat, Option.Rel Same as[i]? bs[i]?) → Congruent (.array as) (.array bs)
  | hash {as bs : List (Key × Value)} : (∀ key, Option.Rel Same (as.lookup key) (bs.lookup key)) →
      Congruent (.hash as) (.hash bs)
  | function {a b : Closure} : a.id = b.id → Congruent (.function a) (.function b)
  | builtin (op : Builtin) (owner : FrameId) : Congruent (.builtin op owner) (.builtin op owner)
  | returned {a b : Value} : a.Same b → Congruent (.returned a) (.returned b)
  | error (message : String) : Congruent (.error message) (.error message)

theorem Same.congruent {a b : Value} (ha : a.Keyed) (hb : b.Keyed) (h : a.Same b) : Congruent a b := by
  cases a with
  | null => cases b with
    | null => exact .null
    | _ => cases h
  | integer value => cases b with
    | integer other =>
      obtain rfl : value = other := eq_of_beq h
      exact .integer value
    | _ => cases h
  | boolean value => cases b with
    | boolean other =>
      obtain rfl : value = other := eq_of_beq h
      exact .boolean value
    | _ => cases h
  | string value => cases b with
    | string other =>
      obtain rfl : value = other := eq_of_beq h
      exact .string value
    | _ => cases h
  | array as => cases b with
    | array bs => exact .array (same_array_iff.mp h)
    | _ => cases h
  | hash as => cases b with
    | hash bs => exact .hash ((same_hash_iff ha hb).mp h)
    | _ => cases h
  | function a => cases b with
    | function b => exact .function (eq_of_beq h)
    | _ => cases h
  | builtin op owner =>
    obtain rfl := same_builtin_iff.mp h
    exact .builtin op owner
  | returned a => cases b with
    | returned b => exact .returned h
    | _ => cases h
  | error message => cases b with
    | error other =>
      obtain rfl : message = other := eq_of_beq h
      exact .error message
    | _ => cases h

theorem Congruent.same {a b : Value} (ha : a.Keyed) (hb : b.Keyed) (h : Congruent a b) : a.Same b := by
  cases h with
  | array h => exact same_array_iff.mpr h
  | hash h => exact (same_hash_iff ha hb).mpr h
  | function h => exact beq_iff_eq.mpr h
  | returned h => exact h
  | _ => simp [Same, Value.same]

theorem same_iff_congruent {a b : Value} (ha : a.Keyed) (hb : b.Keyed) : a.Same b ↔ Congruent a b :=
  ⟨Same.congruent ha hb, Congruent.same ha hb⟩

theorem rel_symm {x y : Option Value} (h : Option.Rel Same x y)
    (hsymm : ∀ a ∈ x, ∀ b ∈ y, a.Same b → b.Same a) : Option.Rel Same y x := by
  cases h with
  | none => exact .none
  | some hsame => exact .some (hsymm _ rfl _ rfl hsame)

theorem rel_trans {x y z : Option Value} (h : Option.Rel Same x y) (h' : Option.Rel Same y z)
    (htrans : ∀ a ∈ x, ∀ b ∈ y, ∀ c ∈ z, a.Same b → b.Same c → a.Same c) : Option.Rel Same x z := by
  cases h with
  | none =>
    cases h' with
    | none => exact .none
  | some hsame =>
    cases h' with
    | some hsame' => exact .some (htrans _ rfl _ rfl _ rfl hsame hsame')

theorem Same.symm {a b : Value} (ha : a.Keyed) (hb : b.Keyed) (h : a.Same b) : b.Same a := by
  induction a using induction_children generalizing b with | step a ih
  rw [same_iff_congruent hb ha]
  cases h.congruent ha hb with
  | array hab =>
    refine .array fun i => rel_symm (hab i) fun a mem b mem' => ?_
    have hchild := child_of_getElem? mem
    exact ih a hchild (ha.child hchild) (hb.child (child_of_getElem? mem'))
  | hash hab =>
    refine .hash fun key => rel_symm (hab key) fun a mem b mem' => ?_
    have hchild := child_of_lookup mem
    exact ih a hchild (ha.child hchild) (hb.child (child_of_lookup mem'))
  | function hab => exact .function hab.symm
  | @returned a b hab =>
    have hchild : a ∈ (returned a).children := List.mem_singleton_self a
    exact .returned (ih a hchild (ha.child hchild) (hb.child (List.mem_singleton_self b)) hab)
  | _ => constructor

theorem Same.trans {a b c : Value} (ha : a.Keyed) (hb : b.Keyed) (hc : c.Keyed) (h : a.Same b)
    (h' : b.Same c) : a.Same c := by
  induction a using induction_children generalizing b c with | step a ih
  rw [same_iff_congruent ha hc]
  have hbehind := h'.congruent hb hc
  cases h.congruent ha hb with
  | array hab =>
    cases hbehind with
    | array hbc =>
      refine .array fun i => rel_trans (hab i) (hbc i) fun a mem b mem' c mem'' => ?_
      have hchild := child_of_getElem? mem
      exact ih a hchild (ha.child hchild) (hb.child (child_of_getElem? mem')) (hc.child (child_of_getElem? mem''))
  | hash hab =>
    cases hbehind with
    | hash hbc =>
      refine .hash fun key => rel_trans (hab key) (hbc key) fun a mem b mem' c mem'' => ?_
      have hchild := child_of_lookup mem
      exact ih a hchild (ha.child hchild) (hb.child (child_of_lookup mem')) (hc.child (child_of_lookup mem''))
  | function hab =>
    cases hbehind with
    | function hbc => exact .function (hab.trans hbc)
  | @returned a b hab =>
    cases hbehind with
    | @returned _ c hbc =>
      have hchild : a ∈ (returned a).children := List.mem_singleton_self a
      exact .returned (ih a hchild (ha.child hchild) (hb.child (List.mem_singleton_self b))
        (hc.child (List.mem_singleton_self c)) hab hbc)
  | _ => exact hbehind

theorem Same.typeName_eq {a b : Value} (h : a.Same b) : a.typeName = b.typeName := by
  cases a <;> cases b <;> first | rfl | cases h

theorem same_error (message : String) : (error message).Same (.error message) := by
  simp [Same, Value.same]

theorem same_getD {x y : Option Value} (h : Option.Rel Same x y) {missing : Value}
    (hmissing : missing.Same missing) : (x.getD missing).Same (y.getD missing) := by
  cases h with
  | none => exact hmissing
  | some hsame => exact hsame

theorem Same.index {left right : Value} (hleft : left.Keyed) (hright : right.Keyed) (h : left.Same right)
    (index : Value) : (left.index index).Same (right.index index) := by
  cases h.congruent hleft hright with
  | array hparts =>
    cases index with
    | integer i =>
      simp only [Value.index, List.getD_eq_getElem?_getD]
      split
      · rfl
      · exact same_getD (hparts i.toNat) rfl
    | _ => exact same_error _
  | hash hparts =>
    simp only [Value.index]
    cases index.key? with
    | none => exact same_error _
    | some key => exact same_getD (hparts key) (same_error _)
  | _ => exact same_error _

theorem rel_iff {x y : Option Value} : Option.Rel Same x y ↔
    (x.isSome = true ↔ y.isSome = true) ∧ ∀ a b, x = some a → y = some b → a.Same b := by
  cases x <;> cases y <;> simp

theorem same_hash_iff_keys {as bs : List (Key × Value)} (has : (hash as).Keyed) (hbs : (hash bs).Keyed) :
    (hash as).Same (.hash bs) ↔ (∀ key, key ∈ as.map (·.1) ↔ key ∈ bs.map (·.1)) ∧
      ∀ key a b, as.lookup key = some a → bs.lookup key = some b → a.Same b := by
  simp only [same_hash_iff has hbs, rel_iff, Table.mem_keys_iff, forall_and]

end Value

/-- On values whose hashes are keyed, equality is reflexive, symmetric and transitive. Values of two types are
not equal. Hashes are equal when they have the same keys and equal values for each, and arrays when they have
equal elements, or none, at each index. What is read from equal values at an index or a key is equal. A function
and a built-in are equal to nothing but what has their identity. -/
theorem same_equivalence :
    (Equivalence fun a b : { value : Value // value.Keyed } => a.1.same b.1 = true) ∧
    (∀ a b : Value, a.typeName ≠ b.typeName → a.same b = false) ∧
    (∀ as bs : List (Key × Value), (Value.hash as).Keyed → (Value.hash bs).Keyed →
      ((Value.hash as).same (.hash bs) = true ↔
        (∀ key, key ∈ as.map (·.1) ↔ key ∈ bs.map (·.1)) ∧
          ∀ key a b, as.lookup key = some a → bs.lookup key = some b → a.same b = true)) ∧
    (∀ as bs : List Value, (Value.array as).same (.array bs) = true ↔
      ∀ i : Nat, Option.Rel (fun a b => a.same b = true) as[i]? bs[i]?) ∧
    (∀ left right : Value, left.Keyed → right.Keyed → left.same right = true →
      ∀ index, (left.index index).same (right.index index) = true) ∧
    (∀ (closure : Closure) (value : Value), (Value.function closure).same value = true ↔
      ∃ other, value = .function other ∧ closure.id = other.id) ∧
    ∀ (op : Builtin) (owner : FrameId) (value : Value), (Value.builtin op owner).same value = true ↔
      value = .builtin op owner := by
  refine ⟨⟨?_, ?_, ?_⟩, ?_, ?_, ?_, ?_, ?_, ?_⟩
  · rintro ⟨a, ha⟩
    exact Value.same_self a ha
  · rintro ⟨a, ha⟩ ⟨b, hb⟩ h
    exact Value.Same.symm ha hb h
  · rintro ⟨a, ha⟩ ⟨b, hb⟩ ⟨c, hc⟩ h h'
    exact Value.Same.trans ha hb hc h h'
  · intro a b hne
    apply Bool.eq_false_iff.mpr
    exact fun h => hne (Value.Same.typeName_eq h)
  · intro as bs has hbs
    exact Value.same_hash_iff_keys has hbs
  · intro as bs
    exact Value.same_array_iff
  · intro left right hleft hright h
    exact Value.Same.index hleft hright h
  · intro closure value
    cases value <;> simp [Value.same]
  · intro op owner value
    exact Value.same_builtin_iff

theorem same_equivalence_reordered :
    let entries : List (Key × Value) := [(.integer 1, .string "a"), (.boolean true, .array [.null, .integer 2])]
    (∀ key, key ∈ entries.map (·.1) ↔ key ∈ entries.reverse.map (·.1)) ∧
      (Value.hash entries.reverse).same (.hash entries) = true ∧
      ((Value.hash entries).index (.boolean true)).same ((Value.hash entries.reverse).index (.boolean true)) =
        true ∧
      (Value.integer 1).same (.boolean true) = false := by
  intro entries
  have hparts : ∀ entry ∈ entries, entry.2.Storable 0 := by
    simp [entries, Value.storable_string, Value.storable_array, Value.storable_null, Value.storable_integer]
  have hleft : (Value.hash entries).Keyed := (Value.storable_hash (by decide) hparts).result.keyed
  have hright : (Value.hash entries.reverse).Keyed :=
    (Value.storable_hash (by decide) fun entry mem => hparts entry (List.mem_reverse.mp mem)).result.keyed
  obtain ⟨hequivalence, htypes, hhashes, -, hindex, -⟩ := same_equivalence
  have hsame : (Value.hash entries).same (.hash entries.reverse) = true := by cbv
  exact ⟨((hhashes _ _ hleft hright).mp hsame).1, @hequivalence.symm ⟨_, hleft⟩ ⟨_, hright⟩ hsame,
    hindex _ _ hleft hright hsame _, htypes _ _ (by decide)⟩

end MonkeyLang
