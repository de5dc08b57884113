import Mathlib.Data.List.Induction
import MonkeyLang.Proofs.Eval.Strict
import MonkeyLang.Proofs.Value.Same

namespace MonkeyLang

namespace Table

variable {α β : Type} [DecidableEq α]

def writeAll (entries pairs : List (α × β)) : List (α × β) :=
  pairs.foldl (fun entries pair => insert pair.1 pair.2 entries) entries

theorem writeAll_append_singleton (entries pairs : List (α × β)) (pair : α × β) :
    writeAll entries (pairs ++ [pair]) = insert pair.1 pair.2 (writeAll entries pairs) := by
  rw [writeAll, List.foldl_append]
  rfl

theorem keys_writeAll (pairs : List (α × β)) :
    (writeAll [] pairs).map (·.1) = (pairs.map (·.1)).eraseDups := by
  induction pairs using List.reverseRecOn with
  | nil => rfl
  | append_singleton pairs pair ih =>
    rw [writeAll_append_singleton, keys_insert, ih, List.map_append, List.eraseDups_append,
      List.map_singleton]
    by_cases h : pair.1 ∈ (pairs.map (·.1)).eraseDups
    · have hmem : pair.1 ∈ pairs.map (·.1) := List.mem_eraseDups.mp h
      rw [if_pos h, List.removeAll, List.filter_cons_of_neg (by simpa using hmem)]
      simp
    · have hmem : pair.1 ∉ pairs.map (·.1) := fun mem => h (List.mem_eraseDups.mpr mem)
      rw [if_neg h, List.removeAll, List.filter_cons_of_pos (by simpa using hmem)]
      rfl

theorem lookup_writeAll (pairs : List (α × β)) (key : α) :
    (writeAll [] pairs).lookup key = pairs.reverse.lookup key := by
  induction pairs using List.reverseRecOn with
  | nil => rfl
  | append_singleton pairs pair ih =>
    obtain ⟨other, value⟩ := pair
    rw [writeAll_append_singleton, List.reverse_append, List.reverse_singleton, List.singleton_append,
      List.lookup_cons]
    by_cases h : key = other
    · subst h
      rw [lookup_insert_self, beq_self_eq_true]
    · rw [lookup_insert_of_ne h, ih, beq_eq_false_iff_ne.mpr h]

theorem lookup_insert_comm {key key' : α} (h : key ≠ key') (value value' : β) (entries : List (α × β))
    (other : α) :
    (insert key value (insert key' value' entries)).lookup other =
      (insert key' value' (insert key value entries)).lookup other := by
  by_cases hkey : other = key
  · subst hkey
    rw [lookup_insert_self, lookup_insert_of_ne h, lookup_insert_self]
  · by_cases hkey' : other = key'
    · subst hkey'
      rw [lookup_insert_of_ne hkey, lookup_insert_self, lookup_insert_self]
    · rw [lookup_insert_of_ne hkey, lookup_insert_of_ne hkey', lookup_insert_of_ne hkey',
        lookup_insert_of_ne hkey]

theorem mem_keys_iff {entries : List (α × β)} {key : α} :
    key ∈ entries.map (·.1) ↔ (entries.lookup key).isSome = true := by
  rw [List.lookup_isSome_iff, List.mem_map]
  exact exists_congr fun entry => and_congr_right fun _ => by rw [beq_iff_eq, eq_comm]

omit [DecidableEq α] in
theorem length_eq_of_keys {as bs : List (α × β)} (has : (as.map (·.1)).Nodup) (hbs : (bs.map (·.1)).Nodup)
    (h : ∀ key, key ∈ as.map (·.1) ↔ key ∈ bs.map (·.1)) : as.length = bs.length := by
  have hperm := (List.perm_ext_iff_of_nodup has hbs).mpr h
  simpa using hperm.length_eq

end Table

namespace Value

theorem key?_eq_some {value : Value} {key : Key} : value.key? = some key ↔ value = key.toValue := by
  cases value <;> cases key <;> simp [Value.key?, Key.toValue]

theorem exists_key {value : Value} (h : value.key?.isSome = true) : ∃ key : Key, value = key.toValue := by
  obtain ⟨key, hkey⟩ := Option.isSome_iff_exists.mp h
  exact ⟨key, key?_eq_some.mp hkey⟩

theorem same_keys_iff {a b : Key} : a.toValue.same b.toValue = true ↔ a = b := by
  cases a <;> cases b <;> simp [Key.toValue, Value.same]

theorem same_keys_eq_false_iff {a b : Key} : a.toValue.same b.toValue = false ↔ a ≠ b :=
  Bool.eq_false_iff.trans (not_congr same_keys_iff)

theorem same_hash_of_lookup {as bs : List (Key × Value)} (has : (hash as).Keyed) (hbs : (hash bs).Keyed)
    (h : ∀ key, as.lookup key = bs.lookup key) : (hash as).same (.hash bs) = true := by
  have hkeys : (as.map (·.1)).Nodup := has _ .whole as rfl
  have hlength : as.length = bs.length := Table.length_eq_of_keys hkeys (hbs _ .whole bs rfl) fun key => by
    rw [Table.mem_keys_iff, Table.mem_keys_iff, h]
  have hentries : sameEntries as bs = true :=
    sameEntries_self as (fun entry mem => (h entry.1).symm.trans (Table.lookup_of_mem hkeys mem))
      fun entry mem => has.child (List.mem_map_of_mem mem)
  rw [Value.same, hlength, hentries, beq_self_eq_true]
  rfl

theorem keyed_insert {entries : List (Key × Value)} (h : (hash entries).Keyed) (key : Key) {value : Value}
    (hvalue : value.Keyed) : (hash (Table.insert key value entries)).Keyed := by
  intro part occurs inner hpart
  cases occurs with
  | whole =>
    cases hpart
    exact Table.nodup_insert (h _ .whole entries rfl) key value
  | child mem occurs =>
    obtain ⟨entry, hentry, rfl⟩ := List.mem_map.mp mem
    rcases Table.mem_insert hentry with rfl | hentry
    · exact hvalue part occurs inner hpart
    · exact h part (.child (List.mem_map_of_mem hentry) occurs) inner hpart

end Value

namespace Builtin

def putAll (hash : Value) : List (Value × Value) → Value
  | [] => hash
  | (key, value) :: pairs =>
    match put.apply [hash, key, value] with
    | .error message => .error message
    | hash => putAll hash pairs

theorem put_key (entries : List (Key × Value)) (key : Key) (value : Value) :
    put.apply [.hash entries, key.toValue, value] = .hash (Table.insert key value entries) := by
  simp only [apply, Value.key?_toValue]

theorem put_unusable (entries : List (Key × Value)) {key : Value} (h : key.key? = none) (value : Value) :
    put.apply [.hash entries, key, value] = key.unusableKey := by
  simp only [apply, h]

def pair (entry : Key × Value) : Value × Value :=
  (entry.1.toValue, entry.2)

theorem putAll_pairs (entries written : List (Key × Value)) (behind : List (Value × Value)) :
    putAll (.hash entries) (written.map pair ++ behind) =
      putAll (.hash (Table.writeAll entries written)) behind := by
  induction written generalizing entries with
  | nil => rfl
  | cons entry written ih =>
    obtain ⟨key, value⟩ := entry
    rw [List.map_cons, List.cons_append, pair, putAll, put_key]
    exact ih (Table.insert key value entries)

theorem putAll_unusable (entries : List (Key × Value)) {key : Value} (h : key.key? = none) (value : Value)
    (behind : List (Value × Value)) :
    putAll (.hash entries) ((key, value) :: behind) = key.unusableKey := by
  rw [putAll, put_unusable entries h]
  rfl

end Builtin

namespace Eval

section Rules

variable (recurse : Node → FrameId → EvalM Value) (frame : FrameId)

/-- The keys and values of a literal give the listed ones, in order, and leave the last machine. Behind a key
that is unusable nothing is evaluated, so whatever its value and the pairs there would give may be listed. -/
inductive PairsGive : List (Expr × Expr) → List (Value × Value) → Machine → Machine → Prop where
  | nil (m : Machine) : PairsGive [] [] m m
  | entry {k v : Expr} {pairs : List (Expr × Expr)} {key : Key} {value : Value}
      {values : List (Value × Value)} {m ready between last : Machine} :
      recurse (.expr k) frame m = .ok key.toValue ready → recurse (.expr v) frame ready = .ok value between →
      PairsGive pairs values between last → PairsGive ((k, v) :: pairs) ((key.toValue, value) :: values) m last
  | unusable {k : Expr} {key : Value} {m last : Machine} (v : Expr) (pairs : List (Expr × Expr)) (value : Value)
      (values : List (Value × Value)) :
      recurse (.expr k) frame m = .ok key last → key.key? = none →
      PairsGive ((k, v) :: pairs) ((key, value) :: values) m last

variable {recurse frame} {m last : Machine}

theorem entries_eq_putAll {pairs : List (Expr × Expr)} {values : List (Value × Value)}
    (h : PairsGive recurse frame pairs values m last)
    (hvalues : ∀ pair ∈ values, pair.1.isError = false ∧ pair.2.isError = false)
    (done : List (Key × Value)) :
    entries recurse frame done pairs m = .ok (Builtin.putAll (.hash done) values) last := by
  induction h generalizing done with
  | nil => rfl
  | @entry k v pairs key value values m ready between last hk hv _ ih =>
    obtain ⟨⟨hkey, hvalue⟩, hvalues⟩ := List.forall_mem_cons.mp hvalues
    rw [entries, unlessError_of_ok hk hkey]
    simp only [Value.key?_toValue]
    rw [unlessError_of_ok hv hvalue, ih hvalues, Builtin.putAll, Builtin.put_key]
  | @unusable k key m last v pairs value values hk hkey =>
    obtain ⟨⟨herror, -⟩, -⟩ := List.forall_mem_cons.mp hvalues
    rw [entries, unlessError_of_ok hk herror, Builtin.putAll_unusable done hkey]
    simp only [hkey]
    rfl

end Rules

end Eval

namespace Value

theorem index_key (entries : List (Key × Value)) (key : Key) :
    (hash entries).index key.toValue =
      (entries.lookup key).getD (.error s!"key not found: {key.toValue.debug}") := by
  simp only [index, key?_toValue]

theorem index_put_self (entries : List (Key × Value)) (key : Key) (value : Value) :
    (Builtin.put.apply [.hash entries, key.toValue, value]).index key.toValue = value := by
  rw [Builtin.put_key, index_key, Table.lookup_insert_self]
  rfl

theorem index_put_of_ne (entries : List (Key × Value)) {key other : Key} (h : other ≠ key) (value : Value) :
    (Builtin.put.apply [.hash entries, key.toValue, value]).index other.toValue =
      (hash entries).index other.toValue := by
  rw [Builtin.put_key, index_key, index_key, Table.lookup_insert_of_ne h]

theorem same_put_put {entries : List (Key × Value)} (h : (hash entries).Keyed) {key other : Key}
    (hne : key ≠ other) {value value' : Value} (hvalue : value.Keyed) (hvalue' : value'.Keyed) :
    (Builtin.put.apply [Builtin.put.apply [.hash entries, key.toValue, value], other.toValue, value']).same
      (Builtin.put.apply [Builtin.put.apply [.hash entries, other.toValue, value'], key.toValue, value]) =
        true := by
  simp only [Builtin.put_key]
  exact same_hash_of_lookup (keyed_insert (keyed_insert h key hvalue) other hvalue')
    (keyed_insert (keyed_insert h other hvalue') key hvalue)
    (Table.lookup_insert_comm hne.symm value' value entries)

end Value

/-- A literal gives the hash that `put` makes of the empty one and the pairs its keys and values give, from
left to right, or the error of the first key that is unusable. The keys are in the order in which they come
first, and each has the value that comes last. What is put to a key is read from it, another key is read as
before, and two keys may be put in either order. Keys of different types are different keys. -/
theorem hash_puts :
    (∀ (depth : Nat) (frame : FrameId) (span : Span) (pairs : List (Expr × Expr)) (values : List (Value × Value))
      (m last : Machine), Eval.PairsGive (evalWithin depth) frame pairs values m last →
        (∀ pair ∈ values, pair.1.isError = false ∧ pair.2.isError = false) →
        evalWithin (depth + 1) (.expr (.hash span pairs)) frame m =
          .ok (Builtin.putAll (.hash []) values) last) ∧
    (∀ written : List (Key × Value), ∃ entries,
      Builtin.putAll (.hash []) (written.map Builtin.pair) = .hash entries ∧
        entries.map (·.1) = (written.map (·.1)).eraseDups ∧
        ∀ key, entries.lookup key = written.reverse.lookup key) ∧
    (∀ (written : List (Key × Value)) (key value : Value) (behind : List (Value × Value)), key.key? = none →
      Builtin.putAll (.hash []) (written.map Builtin.pair ++ (key, value) :: behind) =
        .error ("unusable as hash key: " ++ key.typeName)) ∧
    (∀ (entries : List (Key × Value)) (key other value : Value), key.key?.isSome = true →
      other.key?.isSome = true →
      (Builtin.put.apply [.hash entries, key, value]).index key = value ∧
      (other.same key = false →
        (Builtin.put.apply [.hash entries, key, value]).index other = (Value.hash entries).index other)) ∧
    (∀ (entries : List (Key × Value)) (key other value value' : Value), (Value.hash entries).Keyed →
      value.Keyed → value'.Keyed → key.key?.isSome = true → other.key?.isSome = true →
      key.same other = false →
      (Builtin.put.apply [Builtin.put.apply [.hash entries, key, value], other, value']).same
        (Builtin.put.apply [Builtin.put.apply [.hash entries, other, value'], key, value]) = true) ∧
    ∀ key other : Value, key.key?.isSome = true → other.key?.isSome = true → key.typeName ≠ other.typeName →
      key.same other = false ∧ key.key? ≠ other.key? := by
  refine ⟨?_, ?_, ?_, ?_, ?_, ?_⟩
  · intro depth frame span pairs values m last hpairs hvalues
    exact Eval.entries_eq_putAll hpairs hvalues []
  · intro written
    have hput := Builtin.putAll_pairs [] written []
    rw [List.append_nil] at hput
    exact ⟨_, hput, Table.keys_writeAll written, Table.lookup_writeAll written⟩
  · intro written key value behind hkey
    rw [Builtin.putAll_pairs, Builtin.putAll_unusable _ hkey]
    rfl
  · intro entries key other value hkey hother
    obtain ⟨key, rfl⟩ := Value.exists_key hkey
    obtain ⟨other, rfl⟩ := Value.exists_key hother
    exact ⟨Value.index_put_self entries key value, fun hne =>
      Value.index_put_of_ne entries (Value.same_keys_eq_false_iff.mp hne) value⟩
  · intro entries key other value value' hentries hvalue hvalue' hkey hother hne
    obtain ⟨key, rfl⟩ := Value.exists_key hkey
    obtain ⟨other, rfl⟩ := Value.exists_key hother
    exact Value.same_put_put hentries (Value.same_keys_eq_false_iff.mp hne) hvalue hvalue'
  · intro key other hkey hother htype
    obtain ⟨key, rfl⟩ := Value.exists_key hkey
    obtain ⟨other, rfl⟩ := Value.exists_key hother
    have hne : key ≠ other := fun heq => htype (congrArg (fun key => key.toValue.typeName) heq)
    rw [Value.key?_toValue, Value.key?_toValue]
    exact ⟨Value.same_keys_eq_false_iff.mpr hne, fun heq => hne (Option.some.inj heq)⟩

theorem hash_puts_repeated :
    let pairs : List (Expr × Expr) := [(.integer default 1, .string default "a"),
      (.boolean default true, .string default "b"), (.integer default 1, .string default "c")]
    let bad : Expr × Expr := (.array default [.integer default 2], .integer default 3)
    evalWithin 3 (.expr (.hash default pairs)) 0 .empty =
        .ok (.hash [(.integer 1, .string "c"), (.boolean true, .string "b")]) .empty ∧
      evalWithin 3 (.expr (.hash default (pairs ++ [bad]))) 0 .empty =
        .ok (.error "unusable as hash key: ARRAY") .empty ∧
      (Builtin.put.apply [.hash [(.boolean true, .null)], .integer 1, .string "c"]).index (.boolean true) =
        .null ∧
      (Value.hash [(.boolean true, .null), (.integer 1, .string "c"), (.string "k", .string "d")]).same
        (.hash [(.boolean true, .null), (.string "k", .string "d"), (.integer 1, .string "c")]) = true ∧
      (Value.integer 1).same (.boolean true) = false := by
  intro pairs bad
  have hbad : Eval.PairsGive (evalWithin 2) 0 [bad] [(.array [.integer 2], .null)] .empty .empty :=
    .unusable _ _ _ _ rfl rfl
  have hgives : ∀ behind values, Eval.PairsGive (evalWithin 2) 0 behind values .empty .empty →
      Eval.PairsGive (evalWithin 2) 0 (pairs ++ behind) ([(.integer 1, .string "a"),
        (.boolean true, .string "b"), (.integer 1, .string "c")] ++ values) .empty .empty :=
    fun behind values h => @Eval.PairsGive.entry _ _ _ _ _ (.integer 1) _ _ _ _ _ _ rfl rfl
      (@Eval.PairsGive.entry _ _ _ _ _ (.boolean true) _ _ _ _ _ _ rfl rfl
        (@Eval.PairsGive.entry _ _ _ _ _ (.integer 1) _ _ _ _ _ _ rfl rfl h))
  have hhash : (Value.hash [(.boolean true, .null)]).Storable 0 :=
    Value.storable_hash (by decide) (by simp [Value.storable_null])
  have htext (text : String) : (Value.string text).Storable 0 := Value.storable_string text
  obtain ⟨hliteral, -, -, hindex, horder, htypes⟩ := hash_puts
  have hwhole := hliteral 2 0 default _ _ _ _ (hgives [] [] (.nil _)) (by decide)
  have hbroken := hliteral 2 0 default _ _ _ _ (hgives [bad] _ hbad) (by decide)
  have hread := (hindex [(.boolean true, .null)] (.integer 1) (.boolean true) (.string "c") rfl rfl).2 rfl
  have hsame := horder [(.boolean true, .null)] (.integer 1) (.string "k") (.string "c") (.string "d")
    hhash.result.keyed (htext "c").result.keyed (htext "d").result.keyed rfl rfl rfl
  exact ⟨hwhole, hbroken, hread, hsame, (htypes (.integer 1) (.boolean true) rfl rfl (by decide)).1⟩

end MonkeyLang
