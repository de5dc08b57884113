import Mathlib
import MonkeyLang.Data.Basic
import MonkeyLang.Proofs.Text.Numerals
import MonkeyLang.Proofs.Value.Same

namespace MonkeyLang

namespace Key

/-- The text of a key that is no string. -/
inductive Renders : Key → String → Prop where
  | integer (value : Int) : Renders (.integer value) (toString value)
  | true : Renders (.boolean .true) "true"
  | false : Renders (.boolean .false) "false"

theorem Renders.text {key : Key} {text : String} (h : key.Renders text) : key.text = text := by
  cases h <;> rfl

theorem string_or_renders (key : Key) : (∃ text, key = .string text) ∨ key.Renders key.text := by
  match key with
  | .integer value => exact .inr (.integer value)
  | .boolean .true => exact .inr .true
  | .boolean .false => exact .inr .false
  | .string value => exact .inl ⟨value, rfl⟩

theorem toString_ne_word (value : Int) {word : String} (h : 'e' ∈ word.toList) : toString value ≠ word := by
  rintro rfl
  exact Text.notMem_toString_int (by decide) (by decide) value h

theorem Renders.unique {key key' : Key} {text : String} (h : key.Renders text) (h' : key'.Renders text) :
    key = key' := by
  cases h with
  | integer value =>
    generalize htext : toString value = text at h'
    cases h' with
    | integer other => exact congrArg Key.integer (Int.repr_injective htext)
    | true => exact absurd htext (toString_ne_word value (by decide))
    | false => exact absurd htext (toString_ne_word value (by decide))
  | true =>
    generalize htext : "true" = text at h'
    cases h' with
    | integer other => exact absurd htext.symm (toString_ne_word other (by decide))
    | true => rfl
    | false => exact absurd htext (by decide)
  | false =>
    generalize htext : "false" = text at h'
    cases h' with
    | integer other => exact absurd htext.symm (toString_ne_word other (by decide))
    | true => exact absurd htext (by decide)
    | false => rfl

theorem text_eq_iff {key key' : Key} (hne : key ≠ key') :
    key.text = key'.text ↔
      (∃ text, key = .string text ∧ key'.Renders text) ∨ ∃ text, key' = .string text ∧ key.Renders text := by
  constructor
  · intro h
    rcases key.string_or_renders with ⟨text, rfl⟩ | hkey
    · rcases key'.string_or_renders with ⟨text', rfl⟩ | hkey'
      · exact absurd (congrArg Key.string h) hne
      · rw [← h] at hkey'
        exact .inl ⟨text, rfl, hkey'⟩
    · rw [h] at hkey
      rcases key'.string_or_renders with ⟨text', rfl⟩ | hkey'
      · exact .inr ⟨text', rfl, hkey⟩
      · exact absurd (hkey.unique hkey') hne
  · rintro (⟨text, rfl, h⟩ | ⟨text, rfl, h⟩)
    · exact h.text.symm
    · exact h.text

def Share (keys : List Key) (text : String) : Prop :=
  ∃ key ∈ keys, ∃ key' ∈ keys, key ≠ key' ∧ key.text = text ∧ key'.text = text

theorem Share.mono {keys more : List Key} {text : String} (h : Share keys text) (hsub : keys ⊆ more) :
    Share more text := by
  obtain ⟨key, mem, key', mem', h⟩ := h
  exact ⟨key, hsub mem, key', hsub mem', h⟩

end Key

namespace SerializeError

variable {α β : Type} {x : Except SerializeError α} {f : α → Except SerializeError β}

theorem bind_eq_ok {b : β} (h : (x >>= f) = .ok b) : ∃ a, x = .ok a ∧ f a = .ok b := by
  cases x with
  | error => cases h
  | ok a => exact ⟨a, rfl, h⟩

theorem bind_eq_error {error : SerializeError} (h : (x >>= f) = .error error) :
    x = .error error ∨ ∃ a, x = .ok a ∧ f a = .error error := by
  cases x with
  | error =>
    cases h
    exact .inl rfl
  | ok a => exact .inr ⟨a, rfl, h⟩

end SerializeError

namespace Value

open SerializeError

/-- A hash that stands in the value has two keys of the text. -/
def Collides (text : String) (value : Value) : Prop :=
  ∃ entries, Occurs (.hash entries) value ∧ Key.Share (entries.map (·.1)) text

theorem Collides.child {text : String} {value child : Value} (h : child.Collides text)
    (mem : child ∈ value.children) : value.Collides text := by
  obtain ⟨entries, occurs, h⟩ := h
  exact ⟨entries, .child mem occurs, h⟩

mutual

theorem collides_of_toData (value : Value) (hkeyed : value.Keyed) {error : SerializeError}
    (h : value.toData = .error error) : ∃ text, error = .collision text ∧ value.Collides text := by
  match value with
  | .null | .integer _ | .boolean _ | .string _ | .function _ | .builtin _ _ | .error _ =>
    rw [toData] at h
    cases h
  | .array elements =>
    rw [toData] at h
    rcases bind_eq_error h with h | ⟨items, -, h⟩
    · obtain ⟨text, rfl, element, mem, hcollides⟩ :=
        collides_of_toDataAll elements (fun element mem => hkeyed.child mem) h
      exact ⟨text, rfl, hcollides.child mem⟩
    · cases h
  | .hash entries =>
    rw [toData] at h
    rcases bind_eq_error h with h | ⟨fields, -, h⟩
    · obtain ⟨text, rfl, ⟨hseen, -⟩ | hshare | ⟨entry, mem, hcollides⟩⟩ :=
        collides_of_toDataEntries entries (hkeyed _ .whole entries rfl)
          (fun entry mem => hkeyed.child (List.mem_map_of_mem mem)) h
      · cases hseen
      · exact ⟨text, rfl, entries, .whole, hshare⟩
      · exact ⟨text, rfl, hcollides.child (List.mem_map_of_mem mem)⟩
    · cases h
  | .returned value =>
    rw [toData] at h
    have mem := List.mem_singleton_self value
    obtain ⟨text, rfl, hcollides⟩ := collides_of_toData value (hkeyed.child mem) h
    exact ⟨text, rfl, hcollides.child mem⟩

theorem collides_of_toDataAll (elements : List Value) (hkeyed : ∀ element ∈ elements, element.Keyed)
    {error : SerializeError} (h : toDataAll elements = .error error) :
    ∃ text, error = .collision text ∧ ∃ element ∈ elements, element.Collides text := by
  match elements with
  | [] => cases h
  | element :: elements =>
    obtain ⟨hfirst, hrest⟩ := List.forall_mem_cons.mp hkeyed
    rw [toDataAll] at h
    rcases bind_eq_error h with h | ⟨first, -, h⟩
    · obtain ⟨text, rfl, hcollides⟩ := collides_of_toData element hfirst h
      exact ⟨text, rfl, element, List.mem_cons_self, hcollides⟩
    · rcases bind_eq_error h with h | ⟨rest, -, h⟩
      · obtain ⟨text, rfl, other, mem, hcollides⟩ := collides_of_toDataAll elements hrest h
        exact ⟨text, rfl, other, List.mem_cons_of_mem _ mem, hcollides⟩
      · cases h

theorem collides_of_toDataEntries (entries : List (Key × Value)) (hkeys : (entries.map (·.1)).Nodup)
    (hkeyed : ∀ entry ∈ entries, entry.2.Keyed) {seen : List String} {error : SerializeError}
    (h : toDataEntries seen entries = .error error) :
    ∃ text, error = .collision text ∧
      ((text ∈ seen ∧ ∃ key ∈ entries.map (·.1), key.text = text) ∨
        Key.Share (entries.map (·.1)) text ∨ ∃ entry ∈ entries, entry.2.Collides text) := by
  match entries with
  | [] => cases h
  | (key, value) :: entries =>
    obtain ⟨hfresh, hkeys⟩ := List.nodup_cons.mp hkeys
    obtain ⟨hfirst, hrest⟩ := List.forall_mem_cons.mp hkeyed
    rw [toDataEntries] at h
    split at h
    next hseen =>
      cases h
      exact ⟨key.text, rfl, .inl ⟨hseen, key, List.mem_cons_self, rfl⟩⟩
    next =>
      rcases bind_eq_error h with h | ⟨data, -, h⟩
      · obtain ⟨text, rfl, hcollides⟩ := collides_of_toData value hfirst h
        exact ⟨text, rfl, .inr (.inr ⟨_, List.mem_cons_self, hcollides⟩)⟩
      · rcases bind_eq_error h with h | ⟨fields, -, h⟩
        · obtain ⟨text, rfl, ⟨hseen, key', mem, htext⟩ | hshare | ⟨entry, mem, hcollides⟩⟩ :=
            collides_of_toDataEntries entries hkeys hrest h
          · rcases List.mem_cons.mp hseen with rfl | hseen
            · refine ⟨_, rfl, .inr (.inl ⟨key, List.mem_cons_self, key', List.mem_cons_of_mem _ mem, ?_,
                rfl, htext⟩)⟩
              rintro rfl
              exact hfresh mem
            · exact ⟨text, rfl, .inl ⟨hseen, key', List.mem_cons_of_mem _ mem, htext⟩⟩
          · exact ⟨text, rfl, .inr (.inl (hshare.mono (List.subset_cons_self _ _)))⟩
          · exact ⟨text, rfl, .inr (.inr ⟨entry, List.mem_cons_of_mem _ mem, hcollides⟩)⟩
        · cases h

end

end Value

inductive Table.EntryShaped (shaped : Value → Data → Prop) : Key × Value → String × Data → Prop where
  | mk (key : Key) {value : Value} {data : Data} : shaped value data →
      EntryShaped shaped (key, value) (key.text, data)

namespace Value

open SerializeError

/-- The data is built as the value is, element by element and entry by entry. A function is left as its
source, an error as a map of its message, and of a wrapper nothing is left. -/
inductive Shaped : Value → Data → Prop where
  | null : Shaped .null .null
  | integer (value : Int) : Shaped (.integer value) (.integer value)
  | boolean (value : Bool) : Shaped (.boolean value) (.boolean value)
  | string (value : String) : Shaped (.string value) (.string value)
  | array {elements : List Value} {items : List Data} : List.Forall₂ Shaped elements items →
      Shaped (.array elements) (.list items)
  | hash {entries : List (Key × Value)} {fields : List (String × Data)} :
      List.Forall₂ (Table.EntryShaped Shaped) entries fields → (fields.map (·.1)).Nodup →
      Shaped (.hash entries) (.map fields)
  | function (closure : Closure) : Shaped (.function closure) (.string closure.display)
  | builtin (op : Builtin) (owner : FrameId) :
      Shaped (.builtin op owner) (.string (Value.builtin op owner).display)
  | returned {value : Value} {data : Data} : Shaped value data → Shaped (.returned value) data
  | error (message : String) : Shaped (.error message) (.map [("error", .string message)])

mutual

theorem shaped_of_toData (value : Value) {data : Data} (h : value.toData = .ok data) : Shaped value data := by
  match value with
  | .null | .integer _ | .boolean _ | .string _ | .function _ | .builtin _ _ | .error _ =>
    rw [toData] at h
    cases h
    constructor
  | .array elements =>
    rw [toData] at h
    obtain ⟨items, hitems, hdata⟩ := bind_eq_ok h
    cases hdata
    exact .array (shaped_of_toDataAll elements hitems)
  | .hash entries =>
    rw [toData] at h
    obtain ⟨fields, hfields, hdata⟩ := bind_eq_ok h
    cases hdata
    obtain ⟨hshaped, hkeys, -⟩ := shaped_of_toDataEntries entries hfields
    exact .hash hshaped hkeys
  | .returned value =>
    rw [toData] at h
    exact .returned (shaped_of_toData value h)

theorem shaped_of_toDataAll (elements : List Value) {items : List Data} (h : toDataAll elements = .ok items) :
    List.Forall₂ Shaped elements items := by
  match elements with
  | [] =>
    cases h
    exact .nil
  | element :: elements =>
    rw [toDataAll] at h
    obtain ⟨first, hfirst, h⟩ := bind_eq_ok h
    obtain ⟨rest, hrest, h⟩ := bind_eq_ok h
    cases h
    exact .cons (shaped_of_toData element hfirst) (shaped_of_toDataAll elements hrest)

theorem shaped_of_toDataEntries (entries : List (Key × Value)) {seen : List String}
    {fields : List (String × Data)} (h : toDataEntries seen entries = .ok fields) :
    List.Forall₂ (Table.EntryShaped Shaped) entries fields ∧ (fields.map (·.1)).Nodup ∧
      ∀ text ∈ seen, text ∉ fields.map (·.1) := by
  match entries with
  | [] =>
    cases h
    exact ⟨.nil, List.nodup_nil, fun _ _ => List.not_mem_nil⟩
  | (key, value) :: entries =>
    rw [toDataEntries] at h
    split at h
    · cases h
    next hseen =>
      obtain ⟨data, hdata, h⟩ := bind_eq_ok h
      obtain ⟨rest, hrest, h⟩ := bind_eq_ok h
      cases h
      obtain ⟨hshaped, hkeys, hfresh⟩ := shaped_of_toDataEntries entries hrest
      refine ⟨.cons (.mk key (shaped_of_toData value hdata)) hshaped,
        List.nodup_cons.mpr ⟨hfresh _ List.mem_cons_self, hkeys⟩, fun text mem htext => ?_⟩
      rcases List.mem_cons.mp htext with rfl | htext
      · exact hseen mem
      · exact hfresh text (List.mem_cons_of_mem _ mem) htext

end

theorem shaped_keys {entries : List (Key × Value)} {fields : List (String × Data)}
    (h : List.Forall₂ (Table.EntryShaped Shaped) entries fields) :
    (entries.map (·.1)).map Key.text = fields.map (·.1) := by
  induction h with
  | nil => rfl
  | cons hentry _ ih =>
    obtain ⟨key, -⟩ := hentry
    rw [List.map_cons, List.map_cons, List.map_cons, ih]

theorem exists_of_forall₂ {α β : Type} {R : α → β → Prop} {as : List α} {bs : List β}
    (h : List.Forall₂ R as bs) {a : α} (mem : a ∈ as) : ∃ b, R a b := by
  induction h with
  | nil => cases mem
  | cons hfirst _ ih =>
    rcases List.mem_cons.mp mem with rfl | mem
    · exact ⟨_, hfirst⟩
    · exact ih mem

theorem Shaped.child {value child : Value} {data : Data} (h : Shaped value data)
    (mem : child ∈ value.children) : ∃ data, Shaped child data := by
  cases h with
  | array h => exact exists_of_forall₂ h mem
  | hash h _ =>
    obtain ⟨entry, hentry, rfl⟩ := List.mem_map.mp mem
    obtain ⟨_, ⟨key, hvalue⟩⟩ := exists_of_forall₂ h hentry
    exact ⟨_, hvalue⟩
  | returned h =>
    obtain rfl := List.mem_singleton.mp mem
    exact ⟨_, h⟩
  | _ => cases mem

theorem Shaped.part {part value : Value} (occurs : Occurs part value) {data : Data} (h : Shaped value data) :
    ∃ data, Shaped part data := by
  induction occurs generalizing data with
  | whole => exact ⟨data, h⟩
  | child mem _ ih =>
    obtain ⟨data, h⟩ := h.child mem
    exact ih h

theorem Shaped.not_collides {value : Value} {data : Data} (h : Shaped value data) (text : String) :
    ¬ value.Collides text := by
  rintro ⟨entries, occurs, key, mem, key', mem', hne, htext, htext'⟩
  obtain ⟨data, h⟩ := h.part occurs
  cases h with
  | hash hentries hkeys =>
    rw [← shaped_keys hentries] at hkeys
    exact hne (List.inj_on_of_nodup_map hkeys mem mem' (htext.trans htext'.symm))

theorem toData_eq_collision_iff {value : Value} (hkeyed : value.Keyed) :
    (∃ text, value.toData = .error (.collision text)) ↔ ∃ text, value.Collides text := by
  constructor
  · rintro ⟨text, h⟩
    obtain ⟨other, -, hcollides⟩ := collides_of_toData value hkeyed h
    exact ⟨other, hcollides⟩
  · rintro ⟨text, hcollides⟩
    cases h : value.toData with
    | ok data => exact absurd hcollides ((shaped_of_toData value h).not_collides text)
    | error error =>
      obtain ⟨other, rfl, -⟩ := collides_of_toData value hkeyed h
      exact ⟨other, rfl⟩

theorem exists_shaped {value : Value} (hkeyed : value.Keyed) (h : ¬ ∃ text, value.Collides text) :
    ∃ data, value.toData = .ok data ∧ Shaped value data := by
  cases hdata : value.toData with
  | ok data => exact ⟨data, rfl, shaped_of_toData value hdata⟩
  | error error =>
    obtain ⟨text, -, hcollides⟩ := collides_of_toData value hkeyed hdata
    exact absurd ⟨text, hcollides⟩ h

end Value

namespace Data

mutual

/-- Equality of data, whatever the order of the entries of maps. -/
def same : Data → Data → Bool
  | .null, .null => true
  | .integer a, .integer b => a == b
  | .boolean a, .boolean b => a == b
  | .string a, .string b => a == b
  | .list as, .list bs => sameAll as bs
  | .map as, .map bs => as.length == bs.length && sameFields as bs
  | _, _ => false

def sameAll : List Data → List Data → Bool
  | [], [] => true
  | a :: as, b :: bs => a.same b && sameAll as bs
  | _, _ => false

def sameFields : List (String × Data) → List (String × Data) → Bool
  | [], _ => true
  | (text, a) :: as, bs =>
    (match bs.lookup text with
      | some b => a.same b
      | none => false) && sameFields as bs

end

mutual

def toValue : Data → Value
  | .null => .null
  | .integer value => .integer value
  | .boolean value => .boolean value
  | .string value => .string value
  | .list items => .array (toValues items)
  | .map fields => .hash (toEntries fields)

def toValues : List Data → List Value
  | [] => []
  | item :: items => item.toValue :: toValues items

def toEntries : List (String × Data) → List (Key × Value)
  | [] => []
  | (text, data) :: fields => (.string text, data.toValue) :: toEntries fields

end

theorem length_toEntries (fields : List (String × Data)) : (toEntries fields).length = fields.length := by
  induction fields with
  | nil => rfl
  | cons field fields ih => rw [toEntries, List.length_cons, ih, List.length_cons]

theorem lookup_toEntries (fields : List (String × Data)) (text : String) :
    (toEntries fields).lookup (.string text) = (fields.lookup text).map toValue := by
  induction fields with
  | nil => rfl
  | cons field fields ih =>
    obtain ⟨other, data⟩ := field
    rw [toEntries, List.lookup_cons, List.lookup_cons]
    by_cases h : text = other
    · subst h
      rw [beq_self_eq_true, beq_self_eq_true]
      rfl
    · rw [beq_eq_false_iff_ne.mpr h, beq_eq_false_iff_ne.mpr fun hkey => h (Key.string.inj hkey)]
      exact ih

mutual

theorem same_toValue (a b : Data) : a.toValue.same b.toValue = a.same b := by
  match a with
  | .null | .integer _ | .boolean _ | .string _ => cases b <;> rfl
  | .list as => cases b with
    | list bs => exact same_toValues as bs
    | _ => rfl
  | .map as => cases b with
    | map bs => rw [toValue, toValue, Value.same, same, length_toEntries, length_toEntries, same_toEntries]
    | _ => rfl

theorem same_toValues (as bs : List Data) : Value.sameAll (toValues as) (toValues bs) = sameAll as bs := by
  match as, bs with
  | [], [] | [], _ :: _ | _ :: _, [] => rfl
  | a :: as, b :: bs => rw [toValues, toValues, Value.sameAll, sameAll, same_toValue a b, same_toValues as bs]

theorem same_toEntries (as bs : List (String × Data)) :
    Value.sameEntries (toEntries as) (toEntries bs) = sameFields as bs := by
  match as with
  | [] => rfl
  | (text, a) :: as =>
    rw [toEntries, Value.sameEntries, sameFields, lookup_toEntries, same_toEntries as bs]
    cases bs.lookup text with
    | none => rfl
    | some b => exact congrArg (· && sameFields as bs) (same_toValue a b)

end

end Data

namespace Value

/-- Nothing stands in the value but null, integers, booleans, strings, arrays, and hashes whose keys are
strings. -/
inductive Textual : Value → Prop where
  | null : Textual .null
  | integer (value : Int) : Textual (.integer value)
  | boolean (value : Bool) : Textual (.boolean value)
  | string (value : String) : Textual (.string value)
  | array {elements : List Value} : (∀ element ∈ elements, Textual element) → Textual (.array elements)
  | hash {entries : List (Key × Value)} : (∀ entry ∈ entries, ∃ text, entry.1 = .string text) →
      (∀ entry ∈ entries, Textual entry.2) → Textual (.hash entries)

theorem Textual.child {value child : Value} (h : value.Textual) (mem : child ∈ value.children) :
    child.Textual := by
  cases h with
  | array h => exact h child mem
  | hash _ h =>
    obtain ⟨entry, hentry, rfl⟩ := List.mem_map.mp mem
    exact h entry hentry
  | _ => cases mem

theorem Textual.part {part value : Value} (occurs : Occurs part value) (h : value.Textual) : part.Textual := by
  induction occurs with
  | whole => exact h
  | child mem _ ih => exact ih (h.child mem)

theorem Textual.not_collides {value : Value} (h : value.Textual) (text : String) : ¬ value.Collides text := by
  rintro ⟨entries, occurs, key, mem, key', mem', hne, htext, htext'⟩
  cases h.part occurs with
  | hash hkeys _ =>
    obtain ⟨entry, hentry, rfl⟩ := List.mem_map.mp mem
    obtain ⟨entry', hentry', rfl⟩ := List.mem_map.mp mem'
    obtain ⟨first, hfirst⟩ := hkeys entry hentry
    obtain ⟨second, hsecond⟩ := hkeys entry' hentry'
    rw [hfirst] at htext hne
    rw [hsecond] at htext' hne
    exact hne (congrArg Key.string (htext.trans htext'.symm))

mutual

theorem Shaped.toValue_eq {value : Value} {data : Data} (h : Shaped value data) (htextual : value.Textual) :
    data.toValue = value := by
  match h with
  | .null | .integer _ | .boolean _ | .string _ => rfl
  | .array h => rw [Data.toValue, toValues_eq h fun element mem => htextual.child mem]
  | .hash h _ =>
    cases htextual with
    | hash hkeys hvalues => rw [Data.toValue, toEntries_eq h hkeys hvalues]
  | .function _ | .builtin _ _ | .returned _ | .error _ => cases htextual

theorem toValues_eq {elements : List Value} {items : List Data} (h : List.Forall₂ Shaped elements items)
    (htextual : ∀ element ∈ elements, element.Textual) : Data.toValues items = elements := by
  match h with
  | .nil => rfl
  | .cons hfirst hrest =>
    obtain ⟨hone, hothers⟩ := List.forall_mem_cons.mp htextual
    rw [Data.toValues, Shaped.toValue_eq hfirst hone, toValues_eq hrest hothers]

theorem toEntries_eq {entries : List (Key × Value)} {fields : List (String × Data)}
    (h : List.Forall₂ (Table.EntryShaped Shaped) entries fields)
    (hkeys : ∀ entry ∈ entries, ∃ text, entry.1 = .string text)
    (hvalues : ∀ entry ∈ entries, entry.2.Textual) : Data.toEntries fields = entries := by
  match h with
  | .nil => rfl
  | .cons (.mk key hfirst) hrest =>
    obtain ⟨⟨text, rfl⟩, hothers⟩ := List.forall_mem_cons.mp hkeys
    obtain ⟨hone, hvalues⟩ := List.forall_mem_cons.mp hvalues
    rw [Data.toEntries, Shaped.toValue_eq hfirst hone, toEntries_eq hrest hothers hvalues]
    rfl

end

end Value

/-- A value with keyed hashes has no data just when a hash in it has two keys of one text: a string, and an
integer or boolean that is rendered as it reads. Any other has data of its shape, and from the data of
values in which there are only data and strings for keys these values are told apart, whether the order of
entries counts or not. -/
theorem toData_keeps_entries :
    (∀ value : Value, value.Keyed →
      ((∃ text, value.toData = .error (.collision text)) ↔ ∃ text, value.Collides text) ∧
      (∀ error, value.toData = .error error → ∃ text, error = .collision text ∧ value.Collides text) ∧
      ((¬ ∃ text, value.Collides text) → ∃ data, value.toData = .ok data ∧ value.Shaped data)) ∧
    (∀ key key' : Key, key ≠ key' →
      (key.text = key'.text ↔
        (∃ text, key = .string text ∧ key'.Renders text) ∨ ∃ text, key' = .string text ∧ key.Renders text)) ∧
    ∀ a b : Value, a.Keyed → b.Keyed → a.Textual → b.Textual →
      ∃ data data', a.toData = .ok data ∧ b.toData = .ok data' ∧ (data = data' → a = b) ∧
        data.same data' = a.same b := by
  refine ⟨fun value hkeyed => ⟨Value.toData_eq_collision_iff hkeyed, fun error h =>
    Value.collides_of_toData value hkeyed h, Value.exists_shaped hkeyed⟩, fun key key' => Key.text_eq_iff, ?_⟩
  intro a b ha hb htextual htextual'
  have hnone : ¬ ∃ text, a.Collides text := fun ⟨text, hcollides⟩ => htextual.not_collides text hcollides
  have hnone' : ¬ ∃ text, b.Collides text := fun ⟨text, hcollides⟩ => htextual'.not_collides text hcollides
  obtain ⟨data, hdata, hshaped⟩ := Value.exists_shaped ha hnone
  obtain ⟨data', hdata', hshaped'⟩ := Value.exists_shaped hb hnone'
  have hvalue := hshaped.toValue_eq htextual
  have hvalue' := hshaped'.toValue_eq htextual'
  refine ⟨data, data', hdata, hdata', fun h => ?_, ?_⟩
  · rw [← hvalue, ← hvalue', h]
  · rw [← hvalue, ← hvalue', Data.same_toValue]

theorem toData_keeps_entries_nested :
    let colliding : Value := .array [.null, .hash [(.integer 1, .boolean true), (.string "1", .null)]]
    let entries : List (Key × Value) := [(.string "1", .integer 1), (.string "true", .boolean true)]
    (∃ text, colliding.toData = .error (.collision text)) ∧
      Key.text (.integer 1) = Key.text (.string "1") ∧
      ∃ data data', (Value.hash entries).toData = .ok data ∧ (Value.hash entries.reverse).toData = .ok data' ∧
        data.same data' = true := by
  intro colliding entries
  obtain ⟨hcollision, hkeys, htold⟩ := toData_keeps_entries
  have hcolliding : colliding.Keyed := by
    have hhash : Value.Storable 0 (.hash [(.integer 1, .boolean true), (.string "1", .null)]) :=
      Value.storable_hash (by decide) (by simp [Value.storable_boolean, Value.storable_null])
    have harray : colliding.Storable 0 := Value.storable_array (by simp [Value.storable_null, hhash])
    exact harray.result.keyed
  have hcollides : colliding.Collides "1" :=
    ⟨_, .child (List.mem_cons_of_mem _ List.mem_cons_self) .whole, .integer 1, by decide, .string "1",
      by decide, by decide, by decide, by decide⟩
  have hone : ∀ entry ∈ entries, entry.2.Storable 0 := by
    simp [entries, Value.storable_integer, Value.storable_boolean]
  have htextual : ∀ entry ∈ entries, entry.2.Textual := by
    simp [entries, Value.Textual.integer, Value.Textual.boolean]
  have hreverse : ∀ entry ∈ entries.reverse, entry ∈ entries := fun _ => List.mem_reverse.mp
  obtain ⟨data, data', hdata, hdata', -, hsame⟩ := htold (.hash entries) (.hash entries.reverse)
    (Value.storable_hash (by decide) hone).result.keyed
    (Value.storable_hash (by decide) fun entry mem => hone entry (hreverse entry mem)).result.keyed
    (.hash (by simp [entries]) htextual)
    (.hash (by simp [entries]) fun entry mem => htextual entry (hreverse entry mem))
  exact ⟨(hcollision colliding hcolliding).1.mpr ⟨_, hcollides⟩,
    (hkeys (.integer 1) (.string "1") (by decide)).mpr (.inr ⟨_, rfl, .integer 1⟩),
    data, data', hdata, hdata', hsame.trans (by cbv)⟩

end MonkeyLang
