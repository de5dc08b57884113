import Mathlib.Data.List.Basic
import MonkeyLang.Token.Snapshot
import MonkeyLang.Proofs.Text.Excerpts
import MonkeyLang.Proofs.Token.Places

namespace MonkeyLang

namespace Text

theorem notMem_of_mem_splitOn {c : Char} {text : List Char} : ∀ line ∈ text.splitOn c, c ∉ line := by
  induction text with
  | nil => simp
  | cons d text ih =>
    rw [List.splitOn_cons_eq_if_modifyHead]
    split
    · exact List.forall_mem_cons.mpr ⟨List.not_mem_nil, ih⟩
    next hd =>
      cases hlines : text.splitOn c with
      | nil => simp
      | cons line lines =>
        obtain ⟨hline, hrest⟩ := List.forall_mem_cons.mp (hlines ▸ ih)
        exact List.forall_mem_cons.mpr ⟨by simp [hline, Ne.symm (by simpa using hd)], hrest⟩

theorem newline_notMem_of_lines {text line : String} (mem : line ∈ lines text) : '\n' ∉ line.toList := by
  obtain ⟨letters, hletters, rfl⟩ := List.mem_map.mp mem
  rw [String.toList_ofList]
  exact notMem_of_mem_splitOn letters hletters

theorem lines_newline (text : String) : lines (text ++ "\n") = lines text ++ [""] := by
  rw [lines, String.toList_append, show "\n".toList = ['\n'] from rfl, List.splitOn_append_cons_self,
    List.map_append]
  rfl

theorem newline_notMem_hexDigits (width n : Nat) : '\n' ∉ hexDigits .small width n := by
  have hdigit : ∀ m < 16, '\n' ≠ hexDigit .small m := by decide
  induction width generalizing n with
  | zero => exact List.not_mem_nil
  | succ width ih =>
    rw [hexDigits, List.mem_append, List.mem_singleton, not_or]
    exact ⟨ih _, hdigit _ (Nat.mod_lt n (by decide))⟩

theorem newline_notMem_quotedChar {mark : Char} (hmark : '\n' ≠ mark) (c : Char) :
    '\n' ∉ quotedChar mark c := by
  fun_cases quotedChar mark c with
  | case1 h =>
    rcases Bool.or_eq_true _ _ ▸ h with h | h <;> simp [of_decide_eq_true h, hmark]
  | case2 | case3 | case4 => decide
  | case5 _ hnewline => simpa using Ne.symm hnewline
  | case6 =>
    fun_cases numberedEscape <;> simp [newline_notMem_hexDigits]

theorem newline_notMem_quoted (text : String) : '\n' ∉ (quoted text).toList := by
  have hmark : '\n' ≠ quoteMark text.toList := by
    unfold quoteMark
    split <;> decide
  rw [quoted, String.toList_ofList, List.cons_append, List.mem_cons, List.mem_append,
    List.mem_singleton, List.mem_flatMap]
  rintro (h | ⟨c, -, h⟩ | h)
  · exact hmark h
  · exact newline_notMem_quotedChar hmark c h
  · exact hmark h

end Text

theorem Span.newline_notMem_render (span : Span) : '\n' ∉ span.render.toList := by
  have hdigits := Text.notMem_toString (c := '\n') (by decide)
  simp only [render, String.toList_append, List.mem_append, not_or]
  exact ⟨⟨⟨⟨⟨⟨by decide, hdigits _⟩, by decide⟩, hdigits _⟩, by decide⟩, hdigits _⟩, by decide⟩

theorem Token.newline_notMem_render (token : Token) : '\n' ∉ token.render.toList := by
  have hname : '\n' ∉ token.kind.name.toList := by
    cases token.kind <;> decide
  simp only [render, String.toList_append, List.mem_append, not_or]
  exact ⟨⟨⟨⟨⟨⟨by decide, hname⟩, by decide⟩, Text.newline_notMem_quoted _⟩, by decide⟩,
    token.span.newline_notMem_render⟩, by decide⟩

namespace Snapshot

theorem toList_tokenRow (token : Token) : (tokenRow token).toList =
    List.replicate token.span.start ' ' ++
      (List.replicate (max (token.span.stop - token.span.start) 1) '^' ++ ' ' :: token.render.toList) := by
  simp only [tokenRow, String.toList_append, Text.toList_spaces, String.toList_ofList, List.append_assoc]
  rfl

theorem newline_notMem_tokenRow (token : Token) : '\n' ∉ (tokenRow token).toList := by
  simp [toList_tokenRow, token.newline_notMem_render]

/-- A line over the rows of its tokens, if it has any. -/
def group (line : String) : List Token → List String
  | [] => []
  | own => line :: own.map tokenRow

section

variable {α : Type} {key : α → Nat} {items : List α} {first n : Nat}

theorem filter_append_filter (hsorted : items.Pairwise (key · ≤ key ·))
    (hfirst : ∀ item ∈ items, first ≤ key item) :
    items.filter (key · = first) ++ items.filter (key · ≠ first) = items := by
  induction items with
  | nil => rfl
  | cons item items ih =>
    obtain ⟨hitem, hsorted⟩ := List.pairwise_cons.mp hsorted
    obtain ⟨hhead, hfirst⟩ := List.forall_mem_cons.mp hfirst
    by_cases h : key item = first
    · simpa [h] using ih hsorted hfirst
    · have hlater : ∀ other ∈ items, key other ≠ first := by
        intro other mem
        have := hitem other mem
        omega
      rw [List.filter_eq_nil_iff.mpr (by simpa [h] using hlater),
        List.filter_eq_self.mpr (by simpa [h] using hlater), List.nil_append]

theorem flatMap_filter (hsorted : items.Pairwise (key · ≤ key ·))
    (hfirst : ∀ item ∈ items, first ≤ key item) (hlast : ∀ item ∈ items, key item < first + n) :
    (List.range' first n).flatMap (fun i => items.filter (key · = i)) = items := by
  induction n generalizing first items with
  | zero =>
    have : items = [] := List.eq_nil_iff_forall_not_mem.mpr fun item mem =>
      absurd (hlast item mem) (Nat.not_lt_of_le (hfirst item mem))
    rw [this]
    rfl
  | succ n ih =>
    have hrest : ∀ item ∈ items.filter (key · ≠ first), first + 1 ≤ key item := by
      intro item mem
      obtain ⟨mem, hne⟩ := List.mem_filter.mp mem
      exact Nat.lt_of_le_of_ne (hfirst item mem) (Ne.symm (of_decide_eq_true hne))
    have hlater := ih (hsorted.filter _) hrest fun item mem => by
      have := hlast item (List.mem_filter.mp mem).1
      omega
    rw [List.range'_succ, List.flatMap_cons]
    refine Eq.trans (congrArg _ ?_) (filter_append_filter hsorted hfirst)
    refine Eq.trans (List.flatMap_congr fun i mem => ?_) hlater
    have hi : i ≠ first := by
      have := (List.mem_range'_1.mp mem).1
      omega
    rw [List.filter_filter]
    apply List.filter_congr
    intro item _
    by_cases hitem : key item = i <;> simp [hitem, hi]

end

theorem rows_own {lines : Array String} {line : Nat} {own : List Token}
    (hown : ∀ token ∈ own, token.span.line = line) (later : List Token) :
    rows lines (some line) (own ++ later) = own.map tokenRow ++ rows lines (some line) later := by
  induction own with
  | nil => rfl
  | cons token own ih =>
    obtain ⟨htoken, hown⟩ := List.forall_mem_cons.mp hown
    rw [List.cons_append, rows]
    simp [htoken, ih hown]

theorem rows_flatMap {lines : Array String} {own : Nat → List Token}
    (hown : ∀ i, ∀ token ∈ own i, token.span.line = i) {numbered : List (String × Nat)}
    (hlines : ∀ entry ∈ numbered, lines[entry.2]? = some entry.1)
    (hnodup : (numbered.map Prod.snd).Nodup) {shown : Option Nat}
    (hshown : ∀ i ∈ numbered.map Prod.snd, shown ≠ some i) :
    rows lines shown (numbered.flatMap fun entry => own entry.2) =
      numbered.flatMap fun entry => group entry.1 (own entry.2) := by
  induction numbered generalizing shown with
  | nil => rfl
  | cons entry numbered ih =>
    obtain ⟨hline, hlines⟩ := List.forall_mem_cons.mp hlines
    obtain ⟨hnotMem, hnodup⟩ := List.nodup_cons.mp hnodup
    obtain ⟨hhead, hshown⟩ := List.forall_mem_cons.mp hshown
    have hfirst := hown entry.2
    rw [List.flatMap_cons, List.flatMap_cons]
    cases hown : own entry.2 with
    | nil => exact ih hlines hnodup hshown
    | cons token others =>
      rw [hown] at hfirst
      obtain ⟨htoken, hothers⟩ := List.forall_mem_cons.mp hfirst
      have hrest : rows lines (some entry.2) _ = _ := ih hlines hnodup (by
        rintro _ mem ⟨⟩
        exact hnotMem mem)
      rw [List.cons_append, rows, htoken, if_neg hhead, rows_own hothers, hrest, hline]
      rfl

section

variable {lines : List String} {tokens : List Token}

theorem flatMap_own (hsorted : tokens.Pairwise (·.span.line ≤ ·.span.line))
    (hlast : ∀ token ∈ tokens, token.span.line < lines.length) :
    (lines.zipIdx.flatMap fun entry => tokens.filter (·.span.line = entry.2)) = tokens := by
  rw [← Nat.zero_add lines.length] at hlast
  have htokens := flatMap_filter hsorted (fun _ _ => Nat.zero_le _) hlast
  rwa [← List.zipIdx_map_snd, List.flatMap_map] at htokens

theorem rows_eq (hsorted : tokens.Pairwise (·.span.line ≤ ·.span.line))
    (hlast : ∀ token ∈ tokens, token.span.line < lines.length) :
    rows lines.toArray none tokens =
      lines.zipIdx.flatMap fun entry => group entry.1 (tokens.filter (·.span.line = entry.2)) := by
  have hown : ∀ i, ∀ token ∈ tokens.filter (·.span.line = i), token.span.line = i :=
    fun i token mem => of_decide_eq_true (List.mem_filter.mp mem).2
  have hlines : ∀ entry ∈ lines.zipIdx, lines.toArray[entry.2]? = some entry.1 := by
    intro entry mem
    rw [List.getElem?_toArray]
    exact List.mk_mem_zipIdx_iff_getElem?.mp mem
  have hnodup : (lines.zipIdx.map Prod.snd).Nodup := by
    rw [List.zipIdx_map_snd]
    exact List.nodup_range'
  have hrows := rows_flatMap hown hlines hnodup fun _ _ => (Option.some_ne_none _).symm
  rwa [flatMap_own hsorted hlast] at hrows

theorem newline_notMem_rows (hlines : ∀ line ∈ lines, '\n' ∉ line.toList) (shown : Option Nat) :
    ∀ row ∈ rows lines.toArray shown tokens, '\n' ∉ row.toList := by
  induction tokens generalizing shown with
  | nil => exact fun _ mem => absurd mem List.not_mem_nil
  | cons token tokens ih =>
    refine List.forall_mem_append.mpr ⟨?_, List.forall_mem_cons.mpr ⟨newline_notMem_tokenRow token, ih _⟩⟩
    split
    · simp
    · intro line mem
      rw [List.getElem?_toArray, Option.mem_toList] at mem
      exact hlines line (List.mem_of_getElem? mem)

end

/-- The row has its carets under the characters of a line that spell the token, or one caret behind the
last line for the end of input. The token is behind them. -/
def Underlines (source : String) (token : Token) (row : String) : Prop :=
  ∃ passed front rest lead, source.toList = passed ++ (front ++ rest) ∧
    token.span = .along passed front ∧ token.lexeme.Spelled front rest ∧
    (Text.lines source)[token.span.line]? =
      some (String.ofList (lead ++ (front ++ rest.takeWhile (· ≠ '\n')))) ∧
    lead.length = token.span.start ∧
    if token.kind = .eof then
      front ++ rest = [] ∧ row.toList = List.replicate lead.length ' ' ++ '^' :: ' ' :: token.render.toList
    else
      front ≠ [] ∧ row.toList = List.replicate lead.length ' ' ++
        (List.replicate front.length '^' ++ ' ' :: token.render.toList)

theorem underlines_along {source : String} {token : Token} {passed front rest : List Char}
    (hsource : source.toList = passed ++ (front ++ rest)) (hnewline : '\n' ∉ front)
    (hspelled : token.lexeme.Spelled front rest) (hspan : token.span = .along passed front)
    (hkind : if token.kind = .eof then front ++ rest = [] else front ≠ []) :
    Underlines source token (tokenRow token) := by
  obtain ⟨lead, hlead, hline⟩ := lines_behind hsource
  rw [Text.takeWhile_of_notMem hnewline] at hline
  have hrow := toList_tokenRow token
  rw [hspan, Span.along_start, Span.along_stop, Nat.add_sub_cancel_left, ← hlead] at hrow
  refine ⟨passed, front, rest, lead, hsource, hspan, hspelled, ?_, ?_, ?_⟩
  · rw [hspan]
    exact hline
  · rw [hspan]
    exact hlead
  · split at hkind
    next heof =>
      obtain ⟨rfl, rfl⟩ := List.append_eq_nil_iff.mp hkind
      rw [if_pos heof]
      exact ⟨rfl, hrow⟩
    next heof =>
      rw [Nat.max_eq_left (List.length_pos_iff.mpr hkind)] at hrow
      rw [if_neg heof]
      exact ⟨hkind, hrow⟩

theorem underlines_of_placed {source : String} {passed text : List Char} {tokens : List Token}
    (h : Placed passed text tokens) (hsource : source.toList = passed ++ text) :
    ∀ token ∈ tokens, Underlines source token (tokenRow token) := by
  induction h with
  | @stop passed eof hlexeme hspan =>
    have hkind : eof.kind = .eof := congrArg Lexeme.kind hlexeme
    have hspelled : eof.lexeme.Spelled [] [] := by
      rw [hlexeme]
      rfl
    refine List.forall_mem_singleton.mpr ?_
    exact underlines_along hsource List.not_mem_nil hspelled hspan (by rw [if_pos hkind]; rfl)
  | blank _ _ ih => exact ih (by rw [hsource, List.append_assoc]; rfl)
  | token hne hnewline hkind hspelled hspan _ ih =>
    refine List.forall_mem_cons.mpr ⟨?_, ih (by rw [hsource, List.append_assoc])⟩
    exact underlines_along hsource hnewline hspelled hspan (by rwa [if_neg hkind])

end Snapshot

/-- The snapshot of a source shows each line that has tokens once, over the rows of its tokens, and
every token is in the group of its line, in order. -/
theorem snapshot_groups {source : String} {tokens : List Token} (h : tokenize source = .ok tokens) :
    ∃ snapshot, Snapshot.ofSource source = .ok snapshot ∧
      Text.lines snapshot = ((Text.lines source).zipIdx.flatMap fun (line, i) =>
        Snapshot.group line (tokens.filter (·.span.line = i))) ++ [""] ∧
      ((Text.lines source).zipIdx.flatMap fun (_, i) => tokens.filter (·.span.line = i)) = tokens ∧
      ∀ token ∈ tokens, Snapshot.Underlines source token (Snapshot.tokenRow token) := by
  have hplaced := placed_of_tokenize h
  have hunderlines := Snapshot.underlines_of_placed hplaced rfl
  have hsorted : tokens.Pairwise (·.span.line ≤ ·.span.line) :=
    hplaced.ordered.imp fun hprecedes => by
      unfold Span.Precedes at hprecedes
      omega
  have hlast : ∀ token ∈ tokens, token.span.line < (Text.lines source).length := by
    intro token mem
    obtain ⟨_, _, _, _, _, _, _, hline, _⟩ := hunderlines token mem
    exact (List.getElem?_eq_some_iff.mp hline).1
  refine ⟨_, by rw [Snapshot.ofSource, h]; rfl, ?_, Snapshot.flatMap_own hsorted hlast, hunderlines⟩
  rw [Text.lines_newline, Text.lines_intercalate, Snapshot.rows_eq hsorted hlast]
  · exact Snapshot.newline_notMem_rows (fun _ => Text.newline_notMem_of_lines) none
  · obtain ⟨body, eof, rfl, -⟩ := hplaced.ending
    cases body <;> simp [Snapshot.rows]

theorem snapshot_groups_blank :
    let source := "\n \"\\n\"\n"
    tokenize source = .ok [⟨.string, "\n", ⟨1, 1, 5⟩⟩, ⟨.eof, "", ⟨2, 0, 0⟩⟩] ∧
      ∃ snapshot, Snapshot.ofSource source = .ok snapshot ∧ Text.lines snapshot =
        [" \"\\n\"", " ^^^^ Token(STRING, '\\n' [L1-1:5])", "", "^ Token(EOF, '' [L2-0:0])", ""] := by
  intro source
  have htokens : tokenize source = .ok [⟨.string, "\n", ⟨1, 1, 5⟩⟩, ⟨.eof, "", ⟨2, 0, 0⟩⟩] := by cbv
  obtain ⟨snapshot, hsnapshot, hlines, -, -⟩ := snapshot_groups htokens
  exact ⟨htokens, snapshot, hsnapshot, hlines.trans (by cbv)⟩

end MonkeyLang
