import MonkeyLang.Data.Format
import MonkeyLang.Proofs.Data.Conversion
import MonkeyLang.Proofs.Data.Json.Reader
import MonkeyLang.Proofs.Text.Numerals

namespace MonkeyLang

/-- No map in the data has a key twice. -/
inductive Data.Distinct : Data → Prop where
  | null : Distinct .null
  | integer (value : Int) : Distinct (.integer value)
  | boolean (value : Bool) : Distinct (.boolean value)
  | string (value : String) : Distinct (.string value)
  | list {items : List Data} : (∀ item ∈ items, Distinct item) → Distinct (.list items)
  | map {fields : List (String × Data)} : (fields.map (·.1)).Nodup → (∀ field ∈ fields, Distinct field.2) →
      Distinct (.map fields)

namespace Value

mutual

theorem Shaped.distinct {value : Value} {data : Data} (h : Shaped value data) : data.Distinct := by
  match h with
  | .null => exact .null
  | .integer value => exact .integer value
  | .boolean value => exact .boolean value
  | .string value => exact .string value
  | .array h => exact .list (distinct_items h)
  | .hash h hkeys => exact .map hkeys (distinct_fields h)
  | .function closure => exact .string _
  | .builtin op owner => exact .string _
  | .returned h => exact h.distinct
  | .error message => exact .map (List.nodup_singleton _) (by simp [Data.Distinct.string])

theorem distinct_items {elements : List Value} {items : List Data} (h : List.Forall₂ Shaped elements items) :
    ∀ item ∈ items, item.Distinct := by
  match h with
  | .nil => exact fun _ mem => nomatch mem
  | .cons hfirst hrest => exact List.forall_mem_cons.mpr ⟨hfirst.distinct, distinct_items hrest⟩

theorem distinct_fields {entries : List (Key × Value)} {fields : List (String × Data)}
    (h : List.Forall₂ (Table.EntryShaped Shaped) entries fields) : ∀ field ∈ fields, field.2.Distinct := by
  match h with
  | .nil => exact fun _ mem => nomatch mem
  | .cons (.mk _ hfirst) hrest => exact List.forall_mem_cons.mpr ⟨hfirst.distinct, distinct_fields hrest⟩

end

end Value

namespace Json

variable {decimal : List Char → Data}

theorem codeUnit?_hexDigits : ∀ n < 0x20, codeUnit? (Text.hexDigits .small 4 n) = some n := by
  decide

theorem spelled_escapeChar (c : Char) : Spelled (escapeChar c) c := by
  unfold escapeChar
  split
  iterate 7 exact .short (by decide)
  next hquote hslash _ _ _ _ _ =>
    split
    next hcontrol =>
      have hunit := Spelled.unit (codeUnit?_hexDigits c.toNat hcontrol) (by simp [isHigh]; omega) (by simp [isLow]; omega)
      rwa [Char.ofNat_toNat] at hunit
    next hcontrol =>
      apply Spelled.plain
      simp only [isPlain, Bool.and_eq_true, decide_eq_true_eq, bne_iff_ne]
      exact ⟨⟨Nat.le_of_not_lt hcontrol, hquote⟩, hslash⟩

theorem quoted_escape (text : List Char) : Quoted (text.flatMap escapeChar) text := by
  induction text with
  | nil => exact .nil
  | cons c text ih => exact .cons (spelled_escapeChar c) ih

theorem toList_string (text : String) : (string text).toList = '"' :: (text.toList.flatMap escapeChar ++ ['"']) := by
  simp [string]

theorem whole_toDigits (n : Nat) : Whole (Nat.toDigits 10 n) :=
  ⟨⟨Nat.toDigits_ne_nil, fun _ mem => Nat.isDigit_of_mem_toDigits (by decide) (by decide) mem⟩,
    Text.toDigits_of_head_zero⟩

theorem number_toString (n : Int) : Number decimal (toString n).toList (.integer n) := by
  have hmagnitude (n : Nat) : magnitude (Nat.toDigits 10 n) = n := Nat.ofDigitChars_ten_toDigits
  have hdigits (n : Nat) : (toString n).toList = Nat.toDigits 10 n := by
    rw [Nat.toString_eq_repr, Nat.toList_repr]
  cases n with
  | ofNat n =>
    have hnatural := @Number.natural decimal _ (whole_toDigits n)
    rw [hmagnitude, ← hdigits] at hnatural
    exact hnatural
  | negSucc n =>
    have hnegative := @Number.negative decimal _ (whole_toDigits (n + 1))
    rw [hmagnitude, ← hdigits, ← Text.toList_toString_negSucc] at hnegative
    exact hnegative

theorem spaces_nil : Spaces [] :=
  nofun

theorem listed_separated {α : Type} {P : List Char → α → Prop} (text : α → List Char) {gap behind : List Char}
    (hgap : Spaces gap) (hbehind : Spaces behind) {before : List Char} (hbefore : Spaces before) (a : α) (as : List α)
    (h : ∀ b ∈ a :: as, P (text b) b) :
    Listed (Padded P) (before ++ (text a ++ (as.flatMap (fun b => ',' :: (gap ++ text b)) ++ behind))) (a :: as) := by
  induction as generalizing a before with
  | nil => exact .one (.mk hbefore (h a List.mem_cons_self) hbehind)
  | cons b as ih =>
    obtain ⟨hfirst, hrest⟩ := List.forall_mem_cons.mp h
    have hpadded : Padded P (before ++ (text a ++ [])) a := .mk hbefore hfirst spaces_nil
    have hmore := Listed.more hpadded (ih hgap b hrest)
    simpa using hmore

def Layout.gap (layout : Layout) (level : Nat) : List Char :=
  match layout with
  | compact => [' ']
  | indented => '\n' :: List.replicate (2 * level) ' '

theorem toList_between (layout : Layout) (level : Nat) : (layout.between level).toList = ',' :: layout.gap level := by
  cases layout <;> simp [Layout.between, Layout.gap]

theorem spaces_gap (layout : Layout) (level : Nat) : Spaces (layout.gap level) := by
  intro c mem
  cases layout with
  | compact =>
    obtain rfl := List.mem_singleton.mp mem
    rfl
  | indented =>
    rcases List.mem_cons.mp mem with rfl | mem
    · rfl
    · obtain rfl := List.eq_of_mem_replicate mem
      rfl

theorem spaces_edge (layout : Layout) (level : Nat) : Spaces (layout.edge level).toList := by
  intro c mem
  cases layout with
  | compact => cases mem
  | indented =>
    apply spaces_gap .indented level c
    simpa [Layout.edge, Layout.gap] using mem

theorem toList_writeItems (layout : Layout) (level : Nat) (items : List Data) :
    (writeItems layout level items).toList =
      items.flatMap fun item => ',' :: (layout.gap level ++ (write layout level item).toList) := by
  induction items with
  | nil => rfl
  | cons item items ih => simp [writeItems, toList_between, ih]

def entryText (layout : Layout) (level : Nat) (entry : String × Data) : List Char :=
  (string entry.1).toList ++ (':' :: ' ' :: (write layout level entry.2).toList)

theorem toList_writeEntries (layout : Layout) (level : Nat) (entries : List (String × Data)) :
    (writeEntries layout level entries).toList =
      entries.flatMap fun entry => ',' :: (layout.gap level ++ entryText layout level entry) := by
  induction entries with
  | nil => rfl
  | cons entry entries ih =>
    obtain ⟨key, data⟩ := entry
    simp [writeEntries, toList_between, entryText, ih]

theorem member_entryText {layout : Layout} {level : Nat} {entry : String × Data}
    (h : Denotes decimal (write layout level entry.2).toList entry.2) :
    Member (Denotes decimal) (entryText layout level entry) entry := by
  have hspace : Spaces [' '] := spaces_gap .compact level
  have hmember := @Member.mk _ (Denotes decimal) _ _ [] _ _ _ (quoted_escape entry.1.toList) spaces_nil hspace h
  simpa [entryText, toList_string] using hmember

mutual

theorem denotes_write (layout : Layout) (level : Nat) (data : Data) :
    Denotes decimal (write layout level data).toList data := by
  match data with
  | .null => simpa [write] using @Denotes.null decimal
  | .integer value => exact .number (number_toString value)
  | .boolean .true => simpa [write] using @Denotes.true decimal
  | .boolean .false => simpa [write] using @Denotes.false decimal
  | .string value =>
    have hstring := @Denotes.string decimal _ _ (quoted_escape value.toList)
    rw [write, toList_string]
    simpa using hstring
  | .list [] => simpa [write] using @Denotes.noItems decimal [] spaces_nil
  | .list (item :: items) =>
    have hlisted := listed_separated (fun item => (write layout (level + 1) item).toList)
      (spaces_gap layout (level + 1)) (spaces_edge layout level) (spaces_edge layout (level + 1)) item items
      (denotes_items layout (level + 1) (item :: items))
    rw [← toList_writeItems] at hlisted
    have hitems := Denotes.items hlisted
    simpa [write] using hitems
  | .map [] => simpa [write] using @Denotes.noFields decimal [] spaces_nil
  | .map ((key, data) :: entries) =>
    have hlisted := listed_separated (entryText layout (level + 1)) (spaces_gap layout (level + 1))
      (spaces_edge layout level) (spaces_edge layout (level + 1)) (key, data) entries
      (fun entry mem => member_entryText (denotes_entries layout (level + 1) ((key, data) :: entries) entry mem))
    rw [← toList_writeEntries] at hlisted
    have hfields := Denotes.fields hlisted
    simpa [write, entryText] using hfields

theorem denotes_items (layout : Layout) (level : Nat) (items : List Data) :
    ∀ item ∈ items, Denotes decimal (write layout level item).toList item := by
  match items with
  | [] => exact fun _ mem => nomatch mem
  | item :: items =>
    exact List.forall_mem_cons.mpr ⟨denotes_write layout level item, denotes_items layout level items⟩

theorem denotes_entries (layout : Layout) (level : Nat) (entries : List (String × Data)) :
    ∀ entry ∈ entries, Denotes decimal (write layout level entry.2).toList entry.2 := by
  match entries with
  | [] => exact fun _ mem => nomatch mem
  | (key, data) :: entries =>
    exact List.forall_mem_cons.mpr ⟨denotes_write layout level data, denotes_entries layout level entries⟩

end

theorem document_render (layout : Layout) (data : Data) : Document decimal (render layout data) data := by
  have hpadded : Padded (Denotes decimal) ([] ++ ((write layout 0 data).toList ++ [])) data :=
    .mk spaces_nil (denotes_write layout 0 data) spaces_nil
  rw [List.nil_append, List.append_nil] at hpadded
  exact hpadded

end Json

/-- A value that has data has a text in both layouts. It is a JSON text in which no object has a key twice, and it
stands for the data, the order of entries included, and for nothing else. -/
theorem serialize_json_reads (writeYaml : Data → String) {value : Value} {data : Data}
    (h : value.toData = .ok data) (layout : Json.Layout) (decimal : List Char → Data) :
    ∃ text, value.serializeAs writeYaml (some "json") layout = .ok text ∧ Json.Document decimal text data ∧
      data.Distinct ∧ Json.read decimal text = some data ∧
      ∀ other, Json.Document decimal text other → other = data := by
  have hformat : DataFormat.ofName? "json" = some .json := by cbv
  have hdocument : Json.Document decimal (Json.render layout data) data := Json.document_render layout data
  refine ⟨Json.render layout data, ?_, hdocument, (Value.shaped_of_toData value h).distinct,
    Json.read_of_document hdocument, fun other hother => hother.unique hdocument⟩
  simp only [Value.serializeAs, Option.getD_some, h, hformat]
  rfl

theorem serialize_json_reads_nested :
    let decimal (cs : List Char) : Data := .string (String.ofList cs)
    let value : Value := .array [.hash [(.integer 1, .string "\"\n\x01"), (.string "k", .array [])], .error "e", .null,
      .hash []]
    let data : Data := .list [.map [("1", .string "\"\n\x01"), ("k", .list [])], .map [("error", .string "e")], .null,
      .map []]
    value.toData = .ok data ∧ ∀ writeYaml layout, ∃ text,
      value.serializeAs writeYaml (some "json") layout = .ok text ∧ Json.read decimal text = some data := by
  intro decimal value data
  have hdata : value.toData = .ok data := by cbv
  refine ⟨hdata, fun writeYaml layout => ?_⟩
  obtain ⟨text, hserialize, -, -, hread, -⟩ := serialize_json_reads writeYaml hdata layout decimal
  exact ⟨text, hserialize, hread⟩

end MonkeyLang
