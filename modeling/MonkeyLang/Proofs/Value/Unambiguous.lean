import Mathlib
import MonkeyLang.Proofs.Text.Numerals
import MonkeyLang.Proofs.Token.Spelling
import MonkeyLang.Proofs.Value.Equivalence
import MonkeyLang.Value.Printer

/-!
# Debug renderings are unambiguous

The debug rendering of a value that holds no functions determines the value, and where it ends in a longer
text. The first letter tells the type; an integer ends at the first parenthesis and a string at the first
quote that is not escaped; behind an element stands a comma or the bracket that closes the whole.
-/

namespace MonkeyLang

/-! ## Texts that determine what they render -/

theorem append_cons_inj {α : Type} {stop : α} {xs ys rest rest' : List α} (hxs : stop ∉ xs) (hys : stop ∉ ys)
    (h : xs ++ stop :: rest = ys ++ stop :: rest') : xs = ys ∧ rest = rest' := by
  induction xs generalizing ys with
  | nil =>
    cases ys with
    | nil => exact ⟨rfl, (List.cons.inj h).2⟩
    | cons y ys =>
      obtain ⟨rfl, -⟩ := List.cons.inj h
      exact absurd List.mem_cons_self hys
  | cons x xs ih =>
    cases ys with
    | nil =>
      obtain ⟨rfl, -⟩ := List.cons.inj h
      exact absurd List.mem_cons_self hxs
    | cons y ys =>
      obtain ⟨rfl, htail⟩ := List.cons.inj h
      obtain ⟨rfl, hrest⟩ := ih (fun mem => hxs (List.mem_cons_of_mem _ mem))
        (fun mem => hys (List.mem_cons_of_mem _ mem)) htail
      exact ⟨rfl, hrest⟩

theorem escapeChars_append_inj {text text' rest rest' : List Char}
    (h : Text.escapeChars text ++ '"' :: rest = Text.escapeChars text' ++ '"' :: rest') :
    text = text' ∧ rest = rest' := by
  have hread : ∀ text rest, (Cursor.readText (Text.escapeChars text ++ '"' :: rest) ⟨0, 0, 0⟩).1 = .ok text := by
    intro text rest
    have hliteral := Cursor.readText_literal (.closed rest (decodes_escapeChars text)) ⟨0, 0, 0⟩
    rw [List.append_assoc, List.singleton_append] at hliteral
    rw [hliteral]
  have htext : text = text' := by
    have hok := hread text rest
    rw [h, hread text' rest'] at hok
    exact (Except.ok.inj hok).symm
  subst htext
  exact ⟨rfl, by simpa using h⟩

def itemsBehind {α : Type} (text : α → List Char) (close : Char) (rest : List Char) : List α → List Char
  | [] => close :: rest
  | a :: as => ',' :: ' ' :: (text a ++ itemsBehind text close rest as)

theorem intercalate_items {α : Type} (text : α → List Char) (close : Char) (rest : List Char) (a : α)
    (as : List α) : [',', ' '].intercalate ((a :: as).map text) ++ close :: rest =
      text a ++ itemsBehind text close rest as := by
  induction as generalizing a with
  | nil => simp [itemsBehind]
  | cons b as ih =>
    have hrest := ih b
    rw [List.map_cons] at hrest
    rw [List.map_cons, List.map_cons, List.intercalate_cons_cons, List.append_assoc, List.append_assoc, hrest]
    rfl

section Items

variable {α : Type} {text : α → List Char} {close : Char} {as bs : List α} {rest rest' : List Char}

theorem itemsBehind_inj (hclose : close ≠ ',')
    (hitem : ∀ a ∈ as, ∀ b ∈ bs, ∀ rest rest', text a ++ rest = text b ++ rest' → a = b ∧ rest = rest')
    (h : itemsBehind text close rest as = itemsBehind text close rest' bs) : as = bs ∧ rest = rest' := by
  induction as generalizing bs with
  | nil =>
    cases bs with
    | nil => exact ⟨rfl, (List.cons.inj h).2⟩
    | cons b bs => exact absurd (List.cons.inj h).1 hclose
  | cons a as ih =>
    cases bs with
    | nil => exact absurd (List.cons.inj h).1.symm hclose
    | cons b bs =>
      have htext := (List.cons.inj (List.cons.inj h).2).2
      obtain ⟨rfl, hbehind⟩ := hitem a List.mem_cons_self b List.mem_cons_self _ _ htext
      obtain ⟨rfl, hrest⟩ := ih (fun a ha b hb => hitem a (List.mem_cons_of_mem _ ha) b
        (List.mem_cons_of_mem _ hb)) hbehind
      exact ⟨rfl, hrest⟩

theorem items_append_inj (hclose : close ≠ ',')
    (hitem : ∀ a ∈ as, ∀ b ∈ bs, ∀ rest rest', text a ++ rest = text b ++ rest' → a = b ∧ rest = rest')
    (hbegins : ∀ a, a ∈ as ∨ a ∈ bs → ∀ tail rest, text a ++ tail ≠ close :: rest)
    (h : [',', ' '].intercalate (as.map text) ++ close :: rest =
      [',', ' '].intercalate (bs.map text) ++ close :: rest') : as = bs ∧ rest = rest' := by
  cases as with
  | nil =>
    cases bs with
    | nil => exact ⟨rfl, (List.cons.inj h).2⟩
    | cons b bs =>
      rw [intercalate_items] at h
      exact absurd h.symm (hbegins b (.inr List.mem_cons_self) _ _)
  | cons a as =>
    cases bs with
    | nil =>
      rw [intercalate_items] at h
      exact absurd h (hbegins a (.inl List.mem_cons_self) _ _)
    | cons b bs =>
      rw [intercalate_items, intercalate_items] at h
      obtain ⟨rfl, hbehind⟩ := hitem a List.mem_cons_self b List.mem_cons_self _ _ h
      obtain ⟨rfl, hrest⟩ := itemsBehind_inj hclose (fun a ha b hb => hitem a (List.mem_cons_of_mem _ ha) b
        (List.mem_cons_of_mem _ hb)) hbehind
      exact ⟨rfl, hrest⟩

end Items

/-! ## Renderings -/

theorem literal_append_inj {text text' : String} {rest rest' : List Char}
    (h : (Text.literal text).toList ++ rest = (Text.literal text').toList ++ rest') :
    text = text' ∧ rest = rest' := by
  rw [toList_literal, toList_literal] at h
  simp only [List.cons_append, List.append_assoc, List.cons.injEq, true_and] at h
  obtain ⟨htext, hrest⟩ := escapeChars_append_inj h
  exact ⟨String.toList_inj.mp htext, hrest⟩

namespace Key

theorem debug_append_inj {key key' : Key} {rest rest' : List Char}
    (h : key.debug.toList ++ rest = key'.debug.toList ++ rest') : key = key' ∧ rest = rest' := by
  cases key with
  | integer n =>
    cases key' with
    | integer n' =>
      simp only [debug, String.toList_append, List.append_assoc, List.append_cancel_left_eq] at h
      have hnot (n : Int) : ')' ∉ (toString n).toList :=
        Text.notMem_toString_int (by decide) (by decide) n
      obtain ⟨hn, hrest⟩ := append_cons_inj (hnot n) (hnot n') h
      exact ⟨congrArg integer (Int.repr_injective (String.toList_inj.mp hn)), hrest⟩
    | _ => simp [debug] at h
  | boolean b =>
    cases key' with
    | boolean b' => cases b <;> cases b' <;> simp [debug] at h ⊢ <;> exact h
    | _ => simp [debug] at h
  | string text =>
    cases key' with
    | string text' =>
      simp only [debug, String.toList_append, List.append_assoc, List.append_cancel_left_eq] at h
      obtain ⟨rfl, hrest⟩ := literal_append_inj h
      exact ⟨rfl, (List.cons.inj hrest).2⟩
    | _ => simp [debug] at h

end Key

namespace Value

def Inert (value : Value) : Prop :=
  ∀ part, Occurs part value → part.isCallable = false

theorem Inert.child {value child : Value} (h : value.Inert) (mem : child ∈ value.children) : child.Inert :=
  fun part occurs => h part (.child mem occurs)

theorem debug_key (key : Key) : key.toValue.debug = key.debug := by
  cases key <;> rfl

theorem toList_debugAll (as : List Value) :
    (debugAll as).map String.toList = as.map fun a => a.debug.toList := by
  induction as with
  | nil => rfl
  | cons a as ih => exact congrArg (a.debug.toList :: ·) ih

def entryText (entry : Key × Value) : List Char :=
  entry.1.debug.toList ++ (':' :: ' ' :: entry.2.debug.toList)

theorem toList_debugEntries (entries : List (Key × Value)) :
    (debugEntries entries).map String.toList = entries.map entryText := by
  induction entries with
  | nil => rfl
  | cons entry entries ih =>
    obtain ⟨key, value⟩ := entry
    rw [debugEntries, List.map_cons, ih, List.map_cons, entryText]
    simp

theorem toList_debug_array (elements : List Value) : (array elements).debug.toList = "Array([".toList ++
    ([',', ' '].intercalate (elements.map fun a => a.debug.toList) ++ [']', ')']) := by
  rw [← toList_debugAll]
  show ("Array([" ++ ", ".intercalate (debugAll elements) ++ "])").toList = _
  simp [String.toList_intercalate]

theorem toList_debug_hash (entries : List (Key × Value)) : (hash entries).debug.toList = "Hash(\x7b".toList ++
    ([',', ' '].intercalate (entries.map entryText) ++ ['\x7d', ')']) := by
  rw [← toList_debugEntries]
  show ("Hash(\x7b" ++ ", ".intercalate (debugEntries entries) ++ "\x7d)").toList = _
  simp [String.toList_intercalate]

theorem toList_debug_returned (value : Value) :
    (returned value).debug.toList = "Return(".toList ++ (value.debug.toList ++ [')']) := by
  show ("Return(" ++ value.debug ++ ")").toList = _
  simp

theorem toList_debug_error (message : String) :
    (error message).debug.toList = "Error(".toList ++ ((Text.literal message).toList ++ [')']) := by
  show ("Error(" ++ Text.literal message ++ ")").toList = _
  simp

theorem head?_debug {value : Value} (h : value.isCallable = false) :
    value.debug.toList.head? = value.typeName.toList.head? := by
  have hkey (key : Key) : key.toValue.debug.toList.head? = key.toValue.typeName.toList.head? := by
    rw [debug_key]
    cases key <;> simp [Key.debug, Key.toValue, typeName]
  cases value with
  | null =>
    show "Null".toList.head? = "NULL".toList.head?
    simp
  | integer n => exact hkey (.integer n)
  | boolean b => exact hkey (.boolean b)
  | string text => exact hkey (.string text)
  | array elements => simp [toList_debug_array, typeName]
  | hash entries => simp [toList_debug_hash, typeName]
  | returned value => simp [toList_debug_returned, typeName]
  | error message => simp [toList_debug_error, typeName]
  | function | builtin => cases h

theorem exists_debug_cons {value : Value} (h : value.isCallable = false) :
    ∃ c tail, value.debug.toList = c :: tail ∧ value.typeName.toList.head? = some c := by
  have hhead := head?_debug h
  cases hdebug : value.debug.toList with
  | nil =>
    rw [hdebug] at hhead
    cases value <;> simp [typeName] at hhead
  | cons c tail =>
    rw [hdebug] at hhead
    exact ⟨c, tail, rfl, hhead.symm⟩

theorem debug_ne_bracket {value : Value} (h : value.isCallable = false) (tail rest : List Char) :
    value.debug.toList ++ tail ≠ ']' :: rest := by
  obtain ⟨c, more, hdebug, hhead⟩ := exists_debug_cons h
  rw [hdebug]
  intro heq
  obtain ⟨rfl, -⟩ := List.cons.inj heq
  cases value <;> simp [typeName] at hhead

theorem entryText_ne_brace (entry : Key × Value) (tail rest : List Char) :
    entryText entry ++ tail ≠ '\x7d' :: rest := by
  obtain ⟨key, value⟩ := entry
  cases key <;> simp [entryText, Key.debug]

theorem entryText_append_inj {entry entry' : Key × Value} {rest rest' : List Char}
    (hvalue : ∀ rest rest', entry.2.debug.toList ++ rest = entry'.2.debug.toList ++ rest' →
      entry.2 = entry'.2 ∧ rest = rest')
    (h : entryText entry ++ rest = entryText entry' ++ rest') : entry = entry' ∧ rest = rest' := by
  rw [entryText, entryText, List.append_assoc, List.append_assoc] at h
  obtain ⟨hkey, hbehind⟩ := Key.debug_append_inj h
  simp only [List.cons_append, List.cons.injEq, true_and] at hbehind
  obtain ⟨hvalue, hrest⟩ := hvalue _ _ hbehind
  exact ⟨Prod.ext hkey hvalue, hrest⟩

/-- The rendering of a value with nothing to call in it determines the value and where it ends. -/
theorem debug_append_inj {a b : Value} (ha : a.Inert) (hb : b.Inert) {rest rest' : List Char}
    (h : a.debug.toList ++ rest = b.debug.toList ++ rest') : a = b ∧ rest = rest' := by
  induction a using induction_children generalizing b rest rest' with | step a ih
  have hletter : a.typeName.toList.head? = b.typeName.toList.head? := by
    obtain ⟨c, tail, hdebug, hhead⟩ := exists_debug_cons (ha _ .whole)
    obtain ⟨c', tail', hdebug', hhead'⟩ := exists_debug_cons (hb _ .whole)
    rw [hdebug, hdebug'] at h
    obtain ⟨rfl, -⟩ := List.cons.inj h
    rw [hhead, hhead']
  have hkey {key key' : Key} (h : key.toValue.debug.toList ++ rest = key'.toValue.debug.toList ++ rest') :
      key.toValue = key'.toValue ∧ rest = rest' := by
    rw [debug_key, debug_key] at h
    obtain ⟨rfl, hrest⟩ := Key.debug_append_inj h
    exact ⟨rfl, hrest⟩
  -- The letter leaves one type, but for the built-in functions.
  cases a with
  | null => cases b with
    | null => exact ⟨rfl, List.append_cancel_left h⟩
    | _ => simp [typeName] at hletter
  | integer n => cases b with
    | integer n' => exact @hkey (.integer n) (.integer n') h
    | _ => simp [typeName] at hletter
  | boolean value => cases b with
    | boolean value' => exact @hkey (.boolean value) (.boolean value') h
    | builtin => exact absurd (hb _ .whole) (by simp [isCallable])
    | _ => simp [typeName] at hletter
  | string text => cases b with
    | string text' => exact @hkey (.string text) (.string text') h
    | _ => simp [typeName] at hletter
  | array as => cases b with
    | array bs =>
      simp only [toList_debug_array, List.append_assoc, List.cons_append, List.nil_append,
        List.append_cancel_left_eq] at h
      obtain ⟨rfl, hrest⟩ := items_append_inj (by decide)
        (fun a mem b mem' rest rest' h => ih a mem (ha.child mem) (hb.child mem') h)
        (fun a mem => debug_ne_bracket (mem.elim (fun mem => ha.child mem _ .whole)
          fun mem => hb.child mem _ .whole)) h
      exact ⟨rfl, (List.cons.inj hrest).2⟩
    | _ => simp [typeName] at hletter
  | hash as => cases b with
    | hash bs =>
      simp only [toList_debug_hash, List.append_assoc, List.cons_append, List.nil_append,
        List.append_cancel_left_eq] at h
      obtain ⟨rfl, hrest⟩ := items_append_inj (by decide)
        (fun entry mem entry' mem' rest rest' h => entryText_append_inj (fun rest rest' h =>
          ih _ (List.mem_map_of_mem mem) (ha.child (List.mem_map_of_mem mem))
            (hb.child (List.mem_map_of_mem mem')) h) h)
        (fun entry _ => entryText_ne_brace entry) h
      exact ⟨rfl, (List.cons.inj hrest).2⟩
    | _ => simp [typeName] at hletter
  | returned a => cases b with
    | returned b =>
      simp only [toList_debug_returned, List.append_assoc, List.append_cancel_left_eq] at h
      have mem : a ∈ (returned a).children := List.mem_singleton_self a
      obtain ⟨rfl, hrest⟩ := ih a mem (ha.child mem) (hb.child (List.mem_singleton_self b)) h
      exact ⟨rfl, (List.cons.inj hrest).2⟩
    | _ => simp [typeName] at hletter
  | error message => cases b with
    | error message' =>
      simp only [toList_debug_error, List.append_assoc, List.append_cancel_left_eq] at h
      obtain ⟨rfl, hrest⟩ := literal_append_inj h
      exact ⟨rfl, (List.cons.inj hrest).2⟩
    | _ => simp [typeName] at hletter
  | function | builtin => exact absurd (ha _ .whole) (by simp [isCallable])

end Value

/-- Values in which nothing can be called are equal when their debug renderings are, with the entries of hashes
in one order. -/
theorem eq_of_debug {a b : Value} (ha : a.Inert) (hb : b.Inert) (h : a.debug = b.debug) :
    a = b ∧ (a.Keyed → a.same b = true) := by
  have heq : a = b := by
    apply And.left
    apply Value.debug_append_inj ha hb
    exact congrArg (·.toList ++ []) h
  subst heq
  exact ⟨rfl, Value.same_self a⟩

theorem eq_of_debug_quoted :
    let quoted := Value.hash [(.string "Int(1): ", .error "\"), ")]
    Builtin.put.apply [.hash [], .string "Int(1): ", .error "\"), "] = quoted ∧
      (Builtin.put.apply [.hash [], .string "Int(1): ", .error "\"), "]).same quoted = true := by
  have hparts {part : Value} (occurs : part.Occurs (.hash [(.string "Int(1): ", .error "\"), ")])) :
      part = .hash [(.string "Int(1): ", .error "\"), ")] ∨ part = .error "\"), " := by
    cases occurs with
    | whole => exact .inl rfl
    | child mem occurs =>
      obtain rfl := List.mem_singleton.mp mem
      cases occurs with
      | whole => exact .inr rfl
      | child mem _ => cases mem
  have hinert : Value.Inert (.hash [(.string "Int(1): ", .error "\"), ")]) := by
    intro part occurs
    obtain rfl | rfl := hparts occurs <;> rfl
  have hkeyed : Value.Keyed (.hash [(.string "Int(1): ", .error "\"), ")]) := by
    intro part occurs entries hpart
    obtain rfl | rfl := hparts occurs
    · cases hpart
      decide
    · cases hpart
  obtain ⟨heq, hsame⟩ := eq_of_debug (a := Builtin.put.apply [.hash [], .string "Int(1): ", .error "\"), "])
    hinert hinert (congrArg Value.debug rfl)
  exact ⟨heq, hsame hkeyed⟩

end MonkeyLang
