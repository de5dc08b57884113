import MonkeyLang.Proofs.Text.Numerals
import MonkeyLang.Text.Excerpt

namespace MonkeyLang.Text

theorem notMem_of_mem_splitRows {text row : List Char} (mem : row ∈ splitRows text) :
    ∀ c ∈ row, isRowBreak c = false := by
  fun_induction splitRows text generalizing row with
  | case1 => cases mem
  | case2 rest ih | case3 c rest _ _ ih =>
    rcases List.mem_cons.mp mem with rfl | mem
    · exact fun c hc => nomatch hc
    · exact ih mem
  | case4 c rest _ hbreak ih =>
    replace hbreak := Bool.eq_false_iff.mpr hbreak
    cases hrows : splitRows rest with
    | nil =>
      rw [hrows] at mem
      obtain rfl := List.mem_singleton.mp mem
      simpa using hbreak
    | cons first rows =>
      rw [hrows] at mem ih
      rcases List.mem_cons.mp mem with rfl | mem
      · exact List.forall_mem_cons.mpr ⟨hbreak, ih List.mem_cons_self⟩
      · exact ih (List.mem_cons_of_mem _ mem)

theorem splitOn_newline (rest : List Char) : ('\n' :: rest).splitOn '\n' = [] :: rest.splitOn '\n' := by
  rw [List.splitOn_cons_eq_if_modifyHead, beq_self_eq_true, if_pos rfl]

theorem exists_splitOn_cons {c : Char} (hc : c ≠ '\n') (rest : List Char) : ∃ first others,
    rest.splitOn '\n' = first :: others ∧ (c :: rest).splitOn '\n' = (c :: first) :: others := by
  obtain ⟨first, others, h⟩ := List.exists_cons_of_ne_nil (List.splitOn_ne_nil '\n' rest)
  refine ⟨first, others, h, ?_⟩
  rw [List.splitOn_cons_eq_if_modifyHead, beq_eq_false_iff_ne.mpr hc, h]
  rfl

theorem getElem?_splitRows {text : List Char} {n : Nat} {content : List Char}
    (hbreaks : ∀ line ∈ (text.splitOn '\n').take (n + 1), ∀ c ∈ line, isRowBreak c = false)
    (hline : (text.splitOn '\n')[n]? = some content) :
    (splitRows text)[n]? =
      if n + 1 = (text.splitOn '\n').length ∧ content = [] then none else some content := by
  fun_induction splitRows text generalizing n content with
  | case1 =>
    cases n with
    | zero =>
      cases hline
      rfl
    | succ n => cases hline
  | case2 rest ih =>
    -- A carriage return would stand on one of the lines that have no such break.
    obtain ⟨first, others, -, hlines⟩ := exists_splitOn_cons (c := '\r') (by decide) ('\n' :: rest)
    rw [hlines] at hbreaks
    exact absurd (hbreaks _ List.mem_cons_self '\r' List.mem_cons_self) (by decide)
  | case3 c rest _ hbreak ih =>
    by_cases hc : c = '\n'
    · subst hc
      rw [splitOn_newline] at hbreaks hline ⊢
      cases n with
      | zero =>
        cases hline
        rw [List.getElem?_cons_zero, if_neg fun h => by simp at h]
      | succ n =>
        rw [List.getElem?_cons_succ] at hline ⊢
        rw [ih (fun line mem => hbreaks line (List.mem_cons_of_mem _ mem)) hline]
        simp
    · obtain ⟨first, others, -, hlines⟩ := exists_splitOn_cons hc rest
      rw [hlines] at hbreaks
      have := hbreaks _ List.mem_cons_self c List.mem_cons_self
      rw [hbreak] at this
      cases this
  | case4 c rest _ hbreak ih =>
    have hc : c ≠ '\n' := by
      rintro rfl
      exact hbreak (by decide)
    obtain ⟨first, others, hrest, hlines⟩ := exists_splitOn_cons hc rest
    rw [hlines] at hbreaks hline ⊢
    rw [hrest] at ih
    obtain ⟨hfirst, hothers⟩ := List.forall_mem_cons.mp hbreaks
    replace hfirst : ∀ d ∈ first, isRowBreak d = false := (List.forall_mem_cons.mp hfirst).2
    cases n with
    | zero =>
      cases hline
      have hrow := ih (n := 0) (List.forall_mem_cons.mpr ⟨hfirst, hothers⟩) rfl
      rw [if_neg fun h => nomatch h.2]
      cases hrows : splitRows rest with
      | nil =>
        rw [hrows] at hrow
        split at hrow
        next h => rw [h.2]; rfl
        next => cases hrow
      | cons row rows =>
        rw [hrows] at hrow
        split at hrow
        next => cases hrow
        next =>
          cases hrow
          rfl
    | succ n =>
      have hrow := ih (n := n + 1) (List.forall_mem_cons.mpr ⟨hfirst, hothers⟩) hline
      rw [List.length_cons] at hrow ⊢
      rw [← hrow]
      cases splitRows rest <;> rfl

theorem splitOn_eq_splitRows {text : List Char} (hbreaks : ∀ c ∈ text, isRowBreak c = true → c = '\n') :
    text.splitOn '\n' = splitRows text ∨ text.splitOn '\n' = splitRows text ++ [[]] := by
  fun_induction splitRows text with
  | case1 => exact .inr rfl
  | case2 rest => exact absurd (hbreaks '\r' List.mem_cons_self (by decide)) (by decide)
  | case3 c rest _ hbreak ih =>
    obtain ⟨hc, hrest⟩ := List.forall_mem_cons.mp hbreaks
    obtain rfl := hc hbreak
    rw [splitOn_newline]
    exact (ih hrest).imp (congrArg ([] :: ·)) (congrArg ([] :: ·))
  | case4 c rest _ hbreak ih =>
    have hc : c ≠ '\n' := by
      rintro rfl
      exact hbreak (by decide)
    obtain ⟨first, others, hrest, hlines⟩ := exists_splitOn_cons hc rest
    rw [hlines]
    rcases ih (List.forall_mem_cons.mp hbreaks).2 with hrows | hrows
    · rw [← hrows, hrest]
      exact .inl rfl
    · rw [hrest] at hrows
      cases hsplit : splitRows rest with
      | nil =>
        rw [hsplit] at hrows
        cases hrows
        exact .inl rfl
      | cons row rows =>
        rw [hsplit] at hrows
        cases hrows
        exact .inr rfl

theorem newline_notMem_of_rows {text row : String} (mem : row ∈ rows text) : '\n' ∉ row.toList := by
  obtain ⟨letters, hletters, rfl⟩ := List.mem_map.mp mem
  rw [String.toList_ofList]
  exact fun h => absurd (notMem_of_mem_splitRows hletters _ h) (by decide)

theorem getElem?_rows {text : String} {n : Nat} {content : String}
    (hbreaks : ∀ line ∈ (lines text).take (n + 1), ∀ c ∈ line.toList, isRowBreak c = false)
    (hline : (lines text)[n]? = some content) :
    (rows text)[n]? = if n + 1 = (lines text).length ∧ content = "" then none else some content := by
  rw [lines] at hbreaks hline ⊢
  rw [List.getElem?_map, Option.map_eq_some_iff] at hline
  obtain ⟨letters, hline, rfl⟩ := hline
  have hrow := getElem?_splitRows (fun line mem => ?_) hline
  · rw [rows, List.getElem?_map, hrow, List.length_map, apply_ite (Option.map String.ofList)]
    simp only [Option.map_none, Option.map_some, String.ofList_eq_empty_iff]
  · rw [← List.map_take] at hbreaks
    simpa using List.forall_mem_map.mp hbreaks line mem

theorem getElem?_rows_iff {text content : String} {n : Nat}
    (hbreaks : ∀ c ∈ text.toList, isRowBreak c = true → c = '\n') (hne : content ≠ "") :
    (rows text)[n]? = some content ↔ (lines text)[n]? = some content := by
  rcases splitOn_eq_splitRows hbreaks with h | h
  · rw [rows, lines, h]
  · rw [lines, h, List.map_append, ← rows, List.getElem?_append]
    split
    next => rfl
    next hlast =>
      rw [List.getElem?_eq_none (Nat.le_of_not_lt hlast)]
      refine iff_of_false nofun fun hcontent => ?_
      have mem := List.mem_of_getElem? hcontent
      exact hne (by simpa using mem)

theorem lines_intercalate {rows : List String} (h : ∀ row ∈ rows, '\n' ∉ row.toList) (hne : rows ≠ []) :
    lines ("\n".intercalate rows) = rows := by
  have hsplit : (List.intercalate ['\n'] (rows.map String.toList)).splitOn '\n' = rows.map String.toList :=
    List.splitOn_intercalate '\n' (List.forall_mem_map.mpr h) (by simpa using hne)
  rw [lines, String.toList_intercalate, show "\n".toList = ['\n'] from rfl, hsplit, List.map_map]
  simp [Function.comp_def]

def numbered (rows : List String) (width line : Nat) (column : Int) (number : Nat) : List String :=
  excerptRow (number == line) width number (rows.getD (number - 1) "") ::
    if number == line then [caretRow width column] else []

def firstShown (line radius : Nat) : Nat :=
  max 1 (line - radius)

def lastShown (text : String) (line radius : Nat) : Nat :=
  min (rows text).length (line + radius)

def shownRows (text : String) (line : Nat) (column : Int) (radius : Nat) : List String :=
  (List.range' (firstShown line radius) (lastShown text line radius + 1 - firstShown line radius)).flatMap
    (numbered (rows text) (toString (lastShown text line radius)).length line column)

theorem excerpt_eq {text : String} {line : Nat} (hfirst : 1 ≤ line) (hlast : line ≤ (rows text).length)
    (column : Int) (radius : Nat) :
    excerpt text line (some column) radius = "\n".intercalate (shownRows text line column radius) := by
  have hstart : (max 1 ((line : Int) - radius)).toNat = firstShown line radius := by
    unfold firstShown
    omega
  have hstop : (min ((rows text).length : Int) (line + radius)).toNat = lastShown text line radius := by
    unfold lastShown
    omega
  have hbeq (number : Nat) : ((number : Int) == (line : Int)) = (number == line) :=
    Bool.eq_iff_iff.mpr (by rw [beq_iff_eq, beq_iff_eq, Int.ofNat_inj])
  have hrow (number : Nat) : (rows text).toArray.getD number "" = (rows text).getD number "" := by
    simp [Array.getD_eq_getD_getElem?]
  unfold excerpt
  rw [if_neg (by simp; omega)]
  simp only [List.size_toArray, hstart, hstop, hbeq, hrow]
  rfl

theorem length_toString_le {m n : Nat} (h : m ≤ n) : (toString m).length ≤ (toString n).length := by
  have hpositive : 0 < (toString n).length := by
    rw [← String.length_toList, Nat.toString_eq_repr, Nat.toList_repr]
    exact List.length_pos_iff.mpr Nat.toDigits_ne_nil
  rw [Nat.toString_eq_repr] at hpositive ⊢
  rw [Nat.toString_eq_repr, Nat.length_repr_le_iff hpositive]
  exact Nat.lt_of_le_of_lt h ((Nat.length_repr_le_iff hpositive).mp (Nat.le_refl _))

theorem toList_excerptRow (marked : Bool) (width number : Nat) (content : String) :
    (excerptRow marked width number content).toList = (if marked then '>' else ' ') :: ' ' ::
      (List.replicate (width - (toString number).length) ' ' ++ ((toString number).toList ++
        (' ' :: '|' :: ' ' :: content.toList))) := by
  cases marked <;>
    simp only [excerptRow, alignRight, String.toList_append, toList_spaces, List.append_assoc] <;> rfl

theorem toList_caretRow (width : Nat) (column : Int) :
    (caretRow width column).toList = ' ' :: ' ' ::
      (List.replicate width ' ' ++ ' ' :: '|' :: ' ' :: (List.replicate (column - 1).toNat ' ' ++ ['^'])) := by
  simp only [caretRow, String.toList_append, toList_spaces, List.append_assoc]
  rfl

theorem notMem_numbered {rows : List String} (hrows : ∀ row ∈ rows, '\n' ∉ row.toList) (width line : Nat)
    (column : Int) (number : Nat) : ∀ row ∈ numbered rows width line column number, '\n' ∉ row.toList := by
  have hdigits := notMem_toString (c := '\n') (by decide) number
  have hcontent : '\n' ∉ (rows.getD (number - 1) "").toList := by
    rw [List.getD_eq_getElem?_getD]
    cases hrow : rows[number - 1]? with
    | none => decide
    | some row => exact hrows row (List.mem_of_getElem? hrow)
  have hmark (marked : Bool) : '\n' ≠ if marked then '>' else ' ' := by
    cases marked <;> decide
  refine List.forall_mem_cons.mpr ⟨?_, ?_⟩
  · simp only [toList_excerptRow, List.mem_cons, List.mem_append, List.mem_replicate]
    rintro (h | h | ⟨-, h⟩ | h | h | h | h | h)
    · exact hmark _ h
    · exact absurd h (by decide)
    · exact absurd h (by decide)
    · exact hdigits h
    · exact absurd h (by decide)
    · exact absurd h (by decide)
    · exact absurd h (by decide)
    · exact hcontent h
  · split
    · simp [toList_caretRow]
    · simp

def plainRow (rows : List String) (width number : Nat) : String :=
  excerptRow false width number (rows.getD (number - 1) "")

theorem flatMap_numbered {rows : List String} {line : Nat} {numbers : List Nat} (h : line ∉ numbers)
    (width : Nat) (column : Int) :
    numbers.flatMap (numbered rows width line column) = numbers.map (plainRow rows width) := by
  induction numbers with
  | nil => rfl
  | cons number numbers ih =>
    obtain ⟨hne, hrest⟩ := List.ne_and_not_mem_of_not_mem_cons h
    rw [List.flatMap_cons, List.map_cons, ih hrest, numbered, beq_eq_false_iff_ne.mpr hne.symm]
    rfl

theorem range_shown {text : String} {line : Nat} (hfirst : 1 ≤ line) (hlast : line ≤ (rows text).length)
    (radius : Nat) :
    List.range' (firstShown line radius) (lastShown text line radius + 1 - firstShown line radius) =
      List.range' (firstShown line radius) (line - firstShown line radius) ++
        line :: List.range' (line + 1) (lastShown text line radius - line) := by
  have hfrom : firstShown line radius ≤ line := by
    unfold firstShown
    omega
  have hto : line ≤ lastShown text line radius := by
    unfold lastShown
    omega
  have hlength : lastShown text line radius + 1 - firstShown line radius =
      line - firstShown line radius + (lastShown text line radius - line + 1) := by
    omega
  rw [hlength, ← List.range'_append_1, Nat.add_sub_cancel' hfrom, List.range'_succ]

theorem shownRows_eq {text : String} {line : Nat} (hfirst : 1 ≤ line) (hlast : line ≤ (rows text).length)
    (column : Int) (radius : Nat) :
    let width := (toString (lastShown text line radius)).length
    shownRows text line column radius =
      (List.range' (firstShown line radius) (line - firstShown line radius)).map (plainRow (rows text) width) ++
        excerptRow true width line ((rows text).getD (line - 1) "") :: caretRow width column ::
          (List.range' (line + 1) (lastShown text line radius - line)).map (plainRow (rows text) width) := by
  intro width
  have hself : numbered (rows text) width line column line =
      [excerptRow true width line ((rows text).getD (line - 1) ""), caretRow width column] := by
    rw [numbered, beq_self_eq_true]
    rfl
  rw [shownRows, range_shown hfirst hlast, List.flatMap_append, List.flatMap_cons, hself, flatMap_numbered,
    flatMap_numbered]
  · rfl
  · rw [List.mem_range'_1]
    omega
  · rw [List.mem_range'_1]
    omega

theorem lines_excerpt {text : String} {line : Nat} (hfirst : 1 ≤ line) (hlast : line ≤ (rows text).length)
    (column : Int) (radius : Nat) :
    lines (excerpt text line (some column) radius) = shownRows text line column radius := by
  rw [excerpt_eq hfirst hlast]
  refine lines_intercalate (fun row mem => ?_) ?_
  · obtain ⟨number, -, mem⟩ := List.mem_flatMap.mp mem
    exact notMem_numbered (fun row => newline_notMem_of_rows) _ _ _ _ row mem
  · rw [shownRows_eq hfirst hlast]
    simp

/-- One line of the excerpt is marked: it has the number and the content, and on the next line the one caret
stands under the content in the column, which is counted from one. -/
def Shows (excerpt : String) (line column : Nat) (content : String) : Prop :=
  ∃ before lead caret after blanks,
    lines excerpt = before ++ (lead ++ content) :: (caret ++ "^") :: after ∧
    lead = "> " ++ spaces blanks ++ toString line ++ " | " ∧
    '^' ∉ caret.toList ∧ caret.length + 1 = lead.length + column ∧
    ∀ row ∈ before ++ (caret ++ "^") :: after, row.toList.head? ≠ some '>'

theorem head_plainRow (rows : List String) (width : Nat) {numbers : List Nat} :
    ∀ row ∈ numbers.map (plainRow rows width), row.toList.head? ≠ some '>' := by
  simp [plainRow, toList_excerptRow]

theorem excerptRow_marked (width number : Nat) (content : String) : excerptRow true width number content =
    "> " ++ spaces (width - (toString number).length) ++ toString number ++ " | " ++ content := by
  simp only [excerptRow, alignRight, if_true, ← String.append_assoc]
  rfl

theorem shows_excerpt {text content : String} {line column : Nat} (hfirst : 1 ≤ line) (hcolumn : 1 ≤ column)
    (hcontent : (rows text)[line - 1]? = some content) (radius : Nat) :
    Shows (excerpt text line (some column) radius) line column content := by
  have hlast : line ≤ (rows text).length := by
    have := (List.getElem?_eq_some_iff.mp hcontent).1
    omega
  have hwidth : (toString line).length ≤ (toString (lastShown text line radius)).length :=
    length_toString_le (by unfold lastShown; omega)
  have hlines := lines_excerpt hfirst hlast column radius
  rw [shownRows_eq hfirst hlast, List.getD_eq_getElem?_getD, hcontent, Option.getD_some, excerptRow_marked,
    caretRow] at hlines
  refine ⟨_, _, _, _, _, hlines, rfl, ?_, ?_, ?_⟩
  · simp
  · simp only [String.length_append, length_spaces]
    have : "  ".length = 2 := rfl
    have : "> ".length = 2 := rfl
    omega
  · intro row mem
    rcases List.mem_append.mp mem with mem | mem
    · exact head_plainRow _ _ row mem
    · rcases List.mem_cons.mp mem with rfl | mem
      · simp
      · exact head_plainRow _ _ row mem

theorem eq_of_numbered {n a b : Nat} {content other : String}
    (h : "> " ++ spaces a ++ toString n ++ " | " ++ content = "> " ++ spaces b ++ toString n ++ " | " ++ other) :
    content = other := by
  have hdigits : (toString n).toList ≠ [] := by
    rw [Nat.toString_eq_repr, Nat.toList_repr]
    exact Nat.toDigits_ne_nil
  have hblank := notMem_toString (c := ' ') (by decide) n
  generalize toString n = number at h hdigits hblank
  obtain ⟨digit, digits, hnumber⟩ := List.exists_cons_of_ne_nil hdigits
  have hdrop (k : Nat) (text : String) :
      ("> " ++ spaces k ++ number ++ " | " ++ text).toList.tail.tail.dropWhile (· == ' ') =
        number.toList ++ (" | ".toList ++ text.toList) := by
    have hdigit : (digit == ' ') = false := beq_eq_false_iff_ne.mpr fun heq => by simp [hnumber, heq] at hblank
    have hlist : ("> " ++ spaces k ++ number ++ " | " ++ text).toList.tail.tail =
        List.replicate k ' ' ++ (number.toList ++ (" | ".toList ++ text.toList)) := by
      simp only [String.toList_append, toList_spaces, List.append_assoc]
      rfl
    rw [hlist, List.dropWhile_append_of_pos (by simp), hnumber, List.cons_append,
      List.dropWhile_cons_of_neg (by simp [hdigit])]
  have hrest := (hdrop a content).symm.trans (h ▸ hdrop b other)
  rw [List.append_cancel_left_eq, List.append_cancel_left_eq] at hrest
  exact String.toList_inj.mp hrest

theorem excerpt_eq_empty {text : String} {line : Int} (h : line < 1 ∨ (rows text).length < line)
    (column : Option Int) (radius : Int) : excerpt text line column radius = "" := by
  unfold excerpt
  exact if_pos (by simpa using h)

theorem shows_excerpt_iff {text content : String} {line column : Nat} (hfirst : 1 ≤ line)
    (hcolumn : 1 ≤ column) (radius : Nat) :
    Shows (excerpt text line (some column) radius) line column content ↔
      (rows text)[line - 1]? = some content := by
  refine ⟨?_, fun h => shows_excerpt hfirst hcolumn h radius⟩
  rintro ⟨before, _, caret, after, blanks, hlines, rfl, -, -, -⟩
  have hmarked : ∀ content, ("> " ++ spaces blanks ++ toString line ++ " | " ++ content).toList.head? = some '>' :=
    fun content => by simp
  have mem := List.mem_append_right before (List.mem_cons_self (a := "> " ++ spaces blanks ++ toString line ++
    " | " ++ content) (l := (caret ++ "^") :: after))
  rw [← hlines] at mem
  by_cases hlast : line ≤ (rows text).length
  · rw [lines_excerpt hfirst hlast, shownRows_eq hfirst hlast] at mem
    rcases List.mem_append.mp mem with mem | mem
    · exact absurd (hmarked content) (head_plainRow _ _ _ mem)
    rcases List.mem_cons.mp mem with heq | mem
    · rw [excerptRow_marked] at heq
      rw [eq_of_numbered heq, List.getD_eq_getElem?_getD, List.getElem?_eq_getElem (by omega)]
      rfl
    rcases List.mem_cons.mp mem with heq | mem
    · have hhead := hmarked content
      rw [heq] at hhead
      simp [toList_caretRow] at hhead
    · exact absurd (hmarked content) (head_plainRow _ _ _ mem)
  · rw [excerpt_eq_empty (.inr (by omega))] at mem
    have hhead := hmarked content
    rw [List.mem_singleton.mp mem] at hhead
    simp at hhead

end MonkeyLang.Text
