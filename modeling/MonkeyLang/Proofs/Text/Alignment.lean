import Mathlib.Data.List.Forall2
import MonkeyLang.Proofs.Text.Excerpts

namespace MonkeyLang.Text

def cells (row : String) (start count : Nat) : List Char :=
  (row.toList.drop start).take count

/-- A row has its mark, a field of `width` columns and a bar, and its content begins in column `width + 5`. -/
structure Columns (width : Nat) (mark : Char) (field content : List Char) (row : String) : Prop where
  mark : cells row 0 2 = [mark, ' ']
  field : cells row 2 width = field
  bar : cells row (2 + width) 3 = [' ', '|', ' ']
  content : row.toList.drop (width + 5) = content

def numeral (width number : Nat) : List Char :=
  List.replicate (width - (toString number).length) ' ' ++ (toString number).toList

def RowAligned (text : String) (width number : Nat) (marked : Bool) (row : String) : Prop :=
  ∃ content, (rows text)[number - 1]? = some content ∧
    Columns width (if marked then '>' else ' ') (numeral width number) content.toList row

def CaretAligned (width column : Nat) (row : String) : Prop :=
  Columns width ' ' (List.replicate width ' ') (List.replicate (column - 1) ' ' ++ ['^']) row

/-- The rows from `first` to `last` in order, and a caret right behind the one in question, under its column.
The numbers take as many columns as that of the last row. -/
structure Aligned (text : String) (line column first last : Nat) (before : List String) (marked caret : String)
    (after : List String) : Prop where
  shown : List.Forall₂ (fun number => RowAligned text (toString last).length number (number == line))
    (List.range' first (last + 1 - first)) (before ++ marked :: after)
  inQuestion : RowAligned text (toString last).length line true marked
  below : CaretAligned (toString last).length column caret
  offset : ∀ i, caret.toList[i]? = some '^' ↔ i = (toString last).length + 5 + (column - 1)
  under : ∀ content, (rows text)[line - 1]? = some content →
    marked.toList[(toString last).length + 5 + (column - 1)]? = content.toList[column - 1]?

variable {text row : String} {width number line column : Nat}

theorem cells_append_drop (row : String) (start count : Nat) :
    cells row start count ++ row.toList.drop (start + count) = row.toList.drop start := by
  rw [cells, ← List.drop_drop, List.take_append_drop]

section

variable {mark : Char} {field content : List Char}

theorem columns_of_toList (hrow : row.toList = mark :: ' ' :: (field ++ ' ' :: '|' :: ' ' :: content))
    (hfield : field.length = width) : Columns width mark field content row := by
  have hbehind : row.toList.drop (2 + width) = ' ' :: '|' :: ' ' :: content := by
    rw [← List.drop_drop, hrow]
    exact List.drop_left' hfield
  refine ⟨?_, ?_, ?_, ?_⟩
  · rw [cells, hrow]
    rfl
  · rw [cells, hrow]
    exact List.take_left' hfield
  · rw [cells, hbehind]
    rfl
  · rw [show width + 5 = 2 + width + 3 by omega, ← List.drop_drop, hbehind]
    rfl

theorem Columns.toList_eq (h : Columns width mark field content row) :
    row.toList = [mark, ' '] ++ (field ++ ([' ', '|', ' '] ++ content)) := by
  rw [← h.mark, ← h.field, ← h.bar, ← h.content, show width + 5 = 2 + width + 3 by omega, cells_append_drop,
    cells_append_drop, cells_append_drop, List.drop_zero]

theorem Columns.getElem?_content (h : Columns width mark field content row) (i : Nat) :
    row.toList[width + 5 + i]? = content[i]? := by
  rw [← h.content, List.getElem?_drop]

end

theorem rowAligned_excerptRow {content : String} (hfits : (toString number).length ≤ width)
    (hcontent : (rows text)[number - 1]? = some content) (marked : Bool) :
    RowAligned text width number marked (excerptRow marked width number content) := by
  refine ⟨content, hcontent, columns_of_toList ?_ ?_⟩
  · rw [toList_excerptRow, numeral, List.append_assoc]
  · rw [numeral, List.length_append, List.length_replicate, String.length_toList, Nat.sub_add_cancel hfits]

theorem caretAligned_caretRow (width column : Nat) : CaretAligned width column (caretRow width column) := by
  refine columns_of_toList ?_ List.length_replicate
  rw [toList_caretRow, show ((column : Int) - 1).toNat = column - 1 by omega]

theorem CaretAligned.offset (h : CaretAligned width column row) (i : Nat) :
    row.toList[i]? = some '^' ↔ i = width + 5 + (column - 1) := by
  have hrow := h.toList_eq
  rw [← List.append_assoc, ← List.append_assoc, ← List.append_assoc] at hrow
  generalize hfront : [' ', ' '] ++ List.replicate width ' ' ++ [' ', '|', ' '] ++
    List.replicate (column - 1) ' ' = front at hrow
  have hcaret : '^' ∉ front := by simp [← hfront]
  have hlength : front.length = width + 5 + (column - 1) := by
    simp [← hfront]
    omega
  rw [hrow, ← hlength]
  constructor
  · intro hi
    rcases Nat.lt_or_ge i front.length with hlt | hge
    · rw [List.getElem?_append_left hlt] at hi
      exact absurd (List.mem_of_getElem? hi) hcaret
    · have := (List.getElem?_eq_some_iff.mp hi).1
      rw [List.length_append, List.length_singleton] at this
      omega
  · rintro rfl
    exact List.getElem?_concat_length

theorem RowAligned.under {marked : Bool} (h : RowAligned text width number marked row) (i : Nat)
    {content : String} (hcontent : (rows text)[number - 1]? = some content) :
    row.toList[width + 5 + i]? = content.toList[i]? := by
  obtain ⟨_, hrow, hcolumns⟩ := h
  rw [hcontent] at hrow
  cases hrow
  exact hcolumns.getElem?_content i

theorem rowAligned_shown {last : Nat} (hfirst : 1 ≤ number) (hle : number ≤ last)
    (hlast : last ≤ (rows text).length) (marked : Bool) :
    RowAligned text (toString last).length number marked
      (excerptRow marked (toString last).length number ((rows text).getD (number - 1) "")) := by
  refine rowAligned_excerptRow (length_toString_le hle) ?_ marked
  rw [List.getD_eq_getElem?_getD, List.getElem?_eq_getElem (by omega), Option.getD_some]

theorem forall₂_plainRow {last : Nat} (hlast : last ≤ (rows text).length) {numbers : List Nat}
    (hnumbers : ∀ number ∈ numbers, 1 ≤ number ∧ number ≤ last ∧ number ≠ line) :
    List.Forall₂ (fun number => RowAligned text (toString last).length number (number == line)) numbers
      (numbers.map (plainRow (rows text) (toString last).length)) := by
  refine List.forall₂_map_right_iff.mpr (List.forall₂_same.mpr fun number mem => ?_)
  obtain ⟨hfirst, hle, hne⟩ := hnumbers number mem
  rw [beq_eq_false_iff_ne.mpr hne]
  exact rowAligned_shown hfirst hle hlast false

/-- An excerpt has the rows of the text that are at most `radius` away from the one in question, in order and
in columns, and the caret right behind the marked one. If the text has no row in question, it is empty. -/
theorem excerpt_aligned (text : String) :
    (∀ line column radius : Nat, 1 ≤ line → line ≤ (rows text).length →
      ∃ before marked caret after,
        lines (excerpt text line (some column) radius) = before ++ marked :: caret :: after ∧
        Aligned text line column (max 1 (line - radius)) (min (rows text).length (line + radius))
          before marked caret after) ∧
    ∀ (line : Int) (column : Option Int) (radius : Int), line < 1 ∨ (rows text).length < line →
      excerpt text line column radius = "" := by
  refine ⟨fun line column radius hfirst hlast => ?_, fun line column radius h => excerpt_eq_empty h column radius⟩
  have hfrom : 1 ≤ firstShown line radius := Nat.le_max_left _ _
  have hto : lastShown text line radius ≤ (rows text).length := Nat.min_le_left _ _
  have hle : line ≤ lastShown text line radius := Nat.le_min.mpr ⟨hlast, Nat.le_add_right _ _⟩
  have hmarked := rowAligned_shown hfirst hle hto true
  have hcaret := caretAligned_caretRow (toString (lastShown text line radius)).length column
  refine ⟨_, _, _, _, (lines_excerpt hfirst hlast column radius).trans (shownRows_eq hfirst hlast column radius),
    ?_, hmarked, hcaret, hcaret.offset, fun content => hmarked.under (column - 1)⟩
  show List.Forall₂ _ (List.range' (firstShown line radius)
    (lastShown text line radius + 1 - firstShown line radius)) _
  rw [range_shown hfirst hlast]
  -- The row in question alone has the number that is marked.
  refine List.rel_append (forall₂_plainRow hto fun number mem => ?_)
    (.cons ?_ (forall₂_plainRow hto fun number mem => ?_))
  · have := List.mem_range'_1.mp mem
    omega
  · rw [beq_self_eq_true]
    exact hmarked
  · have := List.mem_range'_1.mp mem
    omega

theorem excerpt_aligned_tenth :
    let text := "a\nb\nc\nd\ne\nf\ng\nh\r\nij\nk"
    (rows text).length = 10 ∧
      (∃ before marked caret after,
        ["   8 | h", ">  9 | ij", "     |  ^", "  10 | k"] = before ++ marked :: caret :: after ∧
        Aligned text 9 2 8 10 before marked caret after) ∧
      excerpt text 11 (some 1) 1 = "" := by
  intro text
  have hlength : (rows text).length = 10 := by decide
  have hlines : lines (excerpt text 9 (some 2) 1) = ["   8 | h", ">  9 | ij", "     |  ^", "  10 | k"] := by
    decide
  obtain ⟨hrows, hempty⟩ := excerpt_aligned text
  rw [hlength] at hrows hempty
  obtain ⟨before, marked, caret, after, hshown, haligned⟩ := hrows 9 2 1 (by decide) (by decide)
  exact ⟨hlength, ⟨before, marked, caret, after, hlines.symm.trans hshown, haligned⟩,
    hempty 11 (some 1) 1 (.inr (by decide))⟩

end MonkeyLang.Text
