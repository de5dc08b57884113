import Mathlib.Data.List.DropRight
import MonkeyLang.Proofs.Token.RoundTrip

/-!
# Normal texts

Laying the tokens of a source out gives the source back but for its blanks: between tokens they are spaces
and newlines, no line ends in spaces, and nothing stands behind the last token. This takes string literals
that are spelled as they are laid out; then every token has the columns that it has in the source, and
reading the text again finds it there.
-/

namespace MonkeyLang

namespace Text

def space (c : Char) : Char :=
  if isBlank c = true ∧ c ≠ '\n' then ' ' else c

def spaced : (inside : Bool) → List Char → List Char
  | _, [] => []
  | false, c :: rest => space c :: spaced (c == '"') rest
  | true, '"' :: rest => '"' :: spaced false rest
  | true, '\\' :: c :: rest => '\\' :: c :: spaced true rest
  | true, c :: rest => c :: spaced true rest

def trimLines (text : List Char) : List Char :=
  List.intercalate ['\n'] ((text.splitOn '\n').map (·.rdropWhile (· == ' ')))

/-- The text up to its last character that is no blank, with the blanks in it normalized. -/
def normal (source : String) : String :=
  String.ofList (trimLines (spaced false (source.toList.rdropWhile isBlank)))

/-! ## Ends of lines -/

theorem rdropWhile_append {p : Char → Bool} {front : List Char} (h : ∀ c ∈ front.getLast?, p c = false)
    (rest : List Char) : (front ++ rest).rdropWhile p = front ++ rest.rdropWhile p := by
  induction rest using List.reverseRecOn with
  | nil =>
    rw [List.append_nil, List.rdropWhile_nil, List.append_nil, List.rdropWhile_eq_self_iff]
    intro hne
    simp [h _ (List.getLast?_eq_some_getLast hne)]
  | append_singleton rest c ih =>
    rw [← List.append_assoc, List.rdropWhile_concat, List.rdropWhile_concat, ih]
    split
    · rfl
    · exact List.append_assoc ..

theorem trimLines_line {line : List Char} (h : '\n' ∉ line) :
    trimLines line = line.rdropWhile (· == ' ') := by
  rw [trimLines, List.splitOn_eq_singleton h, List.map_singleton, List.intercalate_singleton]

theorem trimLines_newline {line : List Char} (h : '\n' ∉ line) (rest : List Char) :
    trimLines (line ++ '\n' :: rest) = line.rdropWhile (· == ' ') ++ '\n' :: trimLines rest := by
  rw [trimLines, List.splitOn_append_cons_self_of_not_mem h, List.map_cons,
    List.intercalate_cons_of_ne_nil (by simp [List.splitOn_ne_nil]), List.append_assoc]
  rfl

theorem trimLines_append {front : List Char} (h : '\n' ∉ front) (hlast : ∀ c ∈ front.getLast?, c ≠ ' ')
    (rest : List Char) : trimLines (front ++ rest) = front ++ trimLines rest := by
  have hdrop := @rdropWhile_append (· == ' ') front fun c mem => beq_eq_false_iff_ne.mpr (hlast c mem)
  by_cases hrest : '\n' ∈ rest
  · obtain ⟨line, more, rfl, hline⟩ := List.eq_append_cons_of_mem hrest
    have hfront : '\n' ∉ front ++ line := by simp [h, hline]
    rw [← List.append_assoc, trimLines_newline hfront, trimLines_newline hline, hdrop, List.append_assoc]
  · rw [trimLines_line (by simp [h, hrest]), trimLines_line hrest, hdrop]

/-! ## Blanks between tokens -/

theorem spaced_blanks {gap : List Char} (h : ∀ c ∈ gap, isBlank c = true) (rest : List Char) :
    spaced false (gap ++ rest) = gap.map space ++ spaced false rest := by
  induction gap with
  | nil => rfl
  | cons c gap ih =>
    obtain ⟨hc, hgap⟩ := List.forall_mem_cons.mp h
    have hquote : (c == '"') = false := by
      rw [beq_eq_false_iff_ne]
      rintro rfl
      cases hc
    rw [List.cons_append, spaced, hquote, ih hgap]
    rfl

theorem spaced_solid {front : List Char} (h : ∀ c ∈ front, isBlank c = false ∧ c ≠ '"')
    (rest : List Char) : spaced false (front ++ rest) = front ++ spaced false rest := by
  induction front with
  | nil => rfl
  | cons c front ih =>
    obtain ⟨⟨hblank, hquote⟩, hfront⟩ := List.forall_mem_cons.mp h
    rw [List.cons_append, spaced, beq_eq_false_iff_ne.mpr hquote, ih hfront, space, if_neg (by simp [hblank])]
    rfl

theorem spaced_decodes {body text : List Char} (h : Decodes body text) (rest : List Char) :
    spaced true (body ++ rest) = body ++ spaced true rest := by
  induction h with
  | nil => rfl
  | plain hquote hslash _ ih =>
    rw [List.cons_append, spaced, ih]
    · rfl
    · exact hquote
    · rintro _ _ rfl
      exact absurd rfl hslash
  | escape _ _ ih =>
    rw [List.cons_append, List.cons_append, spaced, ih]
    rfl

end Text

/-! ## Places behind a gap -/

namespace Position

theorem column_append (passed text : List Char) : (behind (passed ++ text)).column =
    (behind text).column + if (behind text).line = 0 then (behind passed).column else 0 := by
  by_cases hline : '\n' ∈ text
  · have hpositive : (behind text).line ≠ 0 := Nat.ne_of_gt (List.count_pos_iff.mpr hline)
    obtain ⟨before, last, rfl, hlast⟩ := Text.exists_last hline
    rw [if_neg hpositive, ← List.append_assoc, column_of_newline hlast, column_of_newline hlast]
    rfl
  · rcases behind_append passed text with ⟨-, -, hcolumn⟩ | ⟨hmem, -⟩
    · have hzero : (behind text).line = 0 := List.count_eq_zero.mpr hline
      rw [hcolumn, column_of_notMem hline, if_pos hzero, Nat.add_comm]
    · exact absurd hmem hline

theorem eq_nil_of_behind {gap : List Char} (hline : (behind gap).line = 0)
    (hcolumn : (behind gap).column = 0) : gap = [] := by
  rw [column_of_notMem (List.count_eq_zero.mp hline)] at hcolumn
  exact List.length_eq_zero_iff.mp hcolumn

def gap (place : Position) : List Char :=
  List.replicate place.line '\n' ++ List.replicate place.column ' '

theorem behind_gap (place : Position) :
    (behind place.gap).line = place.line ∧ (behind place.gap).column = place.column := by
  have hspaces : '\n' ∉ List.replicate place.column ' ' := by simp
  have hnewlines : (behind (List.replicate place.line '\n')).column = 0 := by
    cases place.line with
    | zero => rfl
    | succ line =>
      rw [List.replicate_succ']
      exact column_of_newline List.not_mem_nil _
  constructor
  · simp [gap, behind, List.count_replicate]
  · rw [gap, column_append, column_of_notMem hspaces, hnewlines, ite_self, List.length_replicate]
    rfl

theorem gap_newline {line : List Char} (h : '\n' ∉ line) (rest : List Char) :
    (behind (line ++ '\n' :: rest)).gap = '\n' :: (behind rest).gap := by
  have hline : (behind (line ++ '\n' :: rest)).line = (behind rest).line + 1 := by
    simp [behind, List.count_eq_zero.mpr h]
  rw [gap, hline, List.append_cons, column_append, column_of_newline List.not_mem_nil]
  simp [gap, List.replicate_succ]

end Position

def Aligned (passed passed' : List Char) : Prop :=
  (Position.behind passed').line = (Position.behind passed).line ∧
    (Position.behind passed').column = (Position.behind passed).column

theorem Aligned.append {passed passed' text text' : List Char} (h : Aligned passed passed')
    (h' : Aligned text text') : Aligned (passed ++ text) (passed' ++ text') := by
  constructor
  · have hline : (Position.behind text').line = (Position.behind text).line := h'.1
    rw [Position.line_append, Position.line_append, h.1]
    exact congrArg _ hline
  · rw [Position.column_append, Position.column_append, h.2, h'.1, h'.2]

theorem Aligned.along_eq {passed passed' : List Char} (h : Aligned passed passed') (front : List Char) :
    Span.along passed' front = Span.along passed front := by
  rw [Span.along, Span.along, h.1, h.2]

namespace Text

theorem map_space {line : List Char} (h : ∀ c ∈ line, isBlank c = true) (hline : '\n' ∉ line) :
    line.map space = List.replicate line.length ' ' := by
  rw [List.map_eq_replicate_iff]
  intro c mem
  rw [space, if_pos ⟨h c mem, fun hc => hline (hc ▸ mem)⟩]

theorem trimLines_gap {gap front : List Char} (hgap : ∀ c ∈ gap, isBlank c = true) (hne : front ≠ [])
    (hfront : '\n' ∉ front) (hlast : ∀ c ∈ front.getLast?, c ≠ ' ') (rest : List Char) :
    trimLines (gap.map space ++ (front ++ rest)) =
      (Position.behind gap).gap ++ (front ++ trimLines rest) := by
  -- Line by line, each time up to the first newline of the gap that is left.
  induction hn : gap.length using Nat.strongRecOn generalizing gap with
  | ind n ih =>
    subst hn
    by_cases hnewline : '\n' ∈ gap
    · obtain ⟨line, more, rfl, hline⟩ := List.eq_append_cons_of_mem hnewline
      obtain ⟨hblank, hrest⟩ := List.forall_mem_append.mp hgap
      obtain ⟨-, hmore⟩ := List.forall_mem_cons.mp hrest
      have hih := ih more.length (by simp; omega) hmore rfl
      rw [List.map_append, List.map_cons, map_space hblank hline, List.append_assoc, List.cons_append,
        show space '\n' = '\n' from rfl, trimLines_newline (by simp), hih, Position.gap_newline hline,
        List.rdropWhile_eq_nil_iff.mpr (by simp)]
      rfl
    · have hzero : (Position.behind gap).line = 0 := List.count_eq_zero.mpr hnewline
      have hword : '\n' ∉ List.replicate gap.length ' ' ++ front := by simp [hfront]
      rw [map_space hgap hnewline, ← List.append_assoc, trimLines_append hword, Position.gap, hzero,
        Position.column_of_notMem hnewline, List.append_assoc]
      · rfl
      · rwa [List.getLast?_append_of_ne_nil _ hne]

end Text

/-! ## Texts of tokens -/

theorem Shape.solid_or_literal {front rest : List Char} {l : Lexeme} (h : Shape front rest l)
    (hrest : rest ≠ []) :
    (∀ c ∈ front, Text.isBlank c = false ∧ c ≠ '"') ∨
      ∃ body text, front = '"' :: (body ++ ['"']) ∧ Decodes body text ∧ '\n' ∉ body := by
  cases h with
  | word _ _ hletters =>
    refine .inl fun c mem => ?_
    have hunmarked := unmarked_of_isLetter (hletters c mem)
    exact ⟨hunmarked.blank, hunmarked.quote⟩
  | digits _ _ hdigits =>
    refine .inl fun c mem => ?_
    have hunmarked := unmarked_of_isDigit (hdigits c mem)
    exact ⟨hunmarked.blank, hunmarked.quote⟩
  | mark _ hmark =>
    refine .inl (List.forall_mem_singleton.mpr ⟨(ofMark?_char hmark).1, ?_⟩)
    rintro rfl
    cases hmark
  | alone _ hmark =>
    refine .inl (List.forall_mem_singleton.mpr ⟨(ofGrowingMark?_char hmark).1, ?_⟩)
    rintro rfl
    cases hmark
  | grown _ hmark =>
    have hequals : ∀ c ∈ ['='], Text.isBlank c = false ∧ c ≠ '"' :=
      List.forall_mem_singleton.mpr ⟨rfl, by decide⟩
    refine .inl (List.forall_mem_cons.mpr ⟨⟨(ofGrowingMark?_char hmark).1, ?_⟩, hequals⟩)
    rintro rfl
    cases hmark
  | literal hliteral hline =>
    cases hliteral with
    | closed _ hbody => exact .inr ⟨_, _, rfl, hbody, fun mem => hline (List.mem_append_left _ mem)⟩
    | unclosed | dropped => exact absurd rfl hrest

namespace Token

variable {token : Token} (h : token.lexeme.Lawful) (hkind : token.kind ≠ .eof)
include h hkind

theorem solid_or_literal : (∀ c ∈ token.text.toList, Text.isBlank c = false ∧ c ≠ '"') ∨
    ∃ body text, token.text.toList = '"' :: (body ++ ['"']) ∧ Decodes body text ∧ '\n' ∉ body :=
  (token.lexical h hkind [' ']).shape.solid_or_literal (List.cons_ne_nil _ _)

theorem spaced_text (rest : List Char) :
    Text.spaced false (token.text.toList ++ rest) = token.text.toList ++ Text.spaced false rest := by
  rcases solid_or_literal h hkind with hsolid | ⟨body, text, htext, hbody, -⟩
  · exact Text.spaced_solid hsolid rest
  · have hinside := Text.spaced_decodes hbody ('"' :: rest)
    rw [Text.spaced] at hinside
    rw [htext, List.cons_append, List.append_assoc, List.singleton_append, Text.spaced,
      show ('"' == '"') = true from rfl, hinside]
    simp [Text.space, Text.isBlank]

theorem isBlank_last : ∀ c ∈ token.text.toList.getLast?, Text.isBlank c = false := by
  rcases solid_or_literal h hkind with hsolid | ⟨body, text, htext, -, -⟩
  · exact fun c mem => (hsolid c (List.mem_of_getLast? mem)).1
  · rw [htext, ← List.cons_append, List.getLast?_concat]
    rintro c ⟨⟩
    rfl

theorem newline_notMem_text : '\n' ∉ token.text.toList := by
  rcases solid_or_literal h hkind with hsolid | ⟨body, text, htext, -, hline⟩
  · intro mem
    cases (hsolid _ mem).1
  · simp [htext, hline]

end Token

theorem TokenStream.ofCursor_blanks {gap : List Char} (h : ∀ c ∈ gap, Text.isBlank c = true)
    {passed rest : List Char} :
    ofCursor ⟨gap ++ rest, .behind passed⟩ = ofCursor ⟨rest, .behind (passed ++ gap)⟩ := by
  induction gap generalizing passed with
  | nil => rw [List.nil_append, List.append_nil]
  | cons c gap ih =>
    obtain ⟨hc, hgap⟩ := List.forall_mem_cons.mp h
    rw [List.cons_append, ofCursor_blank hc, Position.after_behind, ih hgap, List.append_assoc]
    rfl

namespace Layout

/-! ## Places in the layout -/

structure Reaches (before : List Token) (passed : List Char) : Prop where
  size : (lines before).size = (Position.behind passed).line + 1
  width : width before (Position.behind passed).line = (Position.behind passed).column

theorem Reaches.nil : Reaches [] [] where
  size := rfl
  width := rfl

theorem width_of_size_le {tokens : List Token} {line : Nat} (h : (lines tokens).size ≤ line) :
    width tokens line = 0 := by
  rw [width, Array.getElem?_eq_none h]
  rfl

variable {before : List Token} {passed gap : List Char} {token : Token}

theorem Reaches.line_eq (h : Reaches before passed) (gap : List Char) :
    (Position.behind (passed ++ gap)).line + 1 = (lines before).size + (Position.behind gap).line := by
  rw [Position.line_append, h.size, Nat.add_right_comm]
  rfl

theorem Reaches.column_eq (h : Reaches before passed) (gap : List Char) :
    (Position.behind (passed ++ gap)).column =
      Layout.width before (Position.behind (passed ++ gap)).line + (Position.behind gap).column := by
  have hline := h.line_eq gap
  rw [Position.column_append]
  by_cases hzero : (Position.behind gap).line = 0
  · have hsame : (Position.behind (passed ++ gap)).line = (Position.behind passed).line := by
      have hsize := h.size
      omega
    rw [if_pos hzero, hsame, h.width, Nat.add_comm]
  · rw [if_neg hzero, width_of_size_le (by omega), Nat.add_comm]

theorem Reaches.gap_eq (h : Reaches before passed)
    (hspan : token.span = .along (passed ++ gap) token.text.toList) :
    Layout.gap before token = (Position.behind gap).gap := by
  rw [Layout.gap, Position.gap, hspan, Span.along_line, Span.along_start, h.line_eq, h.column_eq,
    Nat.add_sub_cancel_left, Nat.add_sub_cancel_left]

theorem Reaches.append (h : Reaches before passed)
    (hspan : token.span = .along (passed ++ gap) token.text.toList) (htext : '\n' ∉ token.text.toList) :
    Reaches (before ++ [token]) (passed ++ gap ++ token.text.toList) := by
  have hline := h.line_eq gap
  have hcolumn := h.column_eq gap
  rcases Position.behind_append (passed ++ gap) token.text.toList with ⟨-, hline', hcolumn'⟩ | ⟨mem, -⟩
  · constructor
    · rw [size_lines_append, hspan, Span.along_line, hline']
      omega
    · rw [width_append, hspan, Span.along_line, Span.along_start, hline', if_pos rfl, hcolumn',
        ← String.length_toList]
      omega
  · exact absurd mem htext

/-! ## Texts that are laid out -/

/-- Behind the passed characters, the text falls into blanks and the tokens, each in the spelling that it is
laid out in and with the span of the characters there. -/
inductive Laid : List Char → List Char → List Token → Prop where
  | stop {passed gap : List Char} : (∀ c ∈ gap, Text.isBlank c = true) → Laid passed gap []
  | token {passed gap rest : List Char} {token : Token} {tokens : List Token} :
      (∀ c ∈ gap, Text.isBlank c = true) → token.lexeme.Lawful → token.kind ≠ .eof →
      token.span = .along (passed ++ gap) token.text.toList →
      Laid (passed ++ gap ++ token.text.toList) rest tokens →
      Laid passed (gap ++ (token.text.toList ++ rest)) (token :: tokens)

namespace Laid

variable {text : List Char} {tokens : List Token}

theorem blank {c : Char} (hc : Text.isBlank c = true) {rest : List Char}
    (h : Laid (passed ++ [c]) rest tokens) : Laid passed (c :: rest) tokens := by
  cases h with
  | stop hgap => exact .stop (List.forall_mem_cons.mpr ⟨hc, hgap⟩)
  | token hgap hlawful hkind hspan hrest =>
    rw [← List.cons_append]
    rw [← List.append_cons] at hspan hrest
    exact .token (List.forall_mem_cons.mpr ⟨hc, hgap⟩) hlawful hkind hspan hrest

theorem lawful (h : Laid passed text tokens) : ∀ token ∈ tokens, token.lexeme.Lawful ∧ token.kind ≠ .eof := by
  induction h with
  | stop => exact List.forall_mem_nil _
  | token _ hlawful hkind _ _ ih => exact List.forall_mem_cons.mpr ⟨⟨hlawful, hkind⟩, ih⟩

theorem rdropWhile_text (hlawful : token.lexeme.Lawful) (hkind : token.kind ≠ .eof) (gap rest : List Char) :
    (gap ++ (token.text.toList ++ rest)).rdropWhile Text.isBlank =
      gap ++ (token.text.toList ++ rest.rdropWhile Text.isBlank) := by
  rw [← List.append_assoc, Text.rdropWhile_append, List.append_assoc]
  rw [List.getLast?_append_of_ne_nil gap (Token.text_ne_nil hlawful hkind)]
  exact Token.isBlank_last hlawful hkind

theorem behind_eq (h : Laid passed text tokens) (hbefore : Reaches before passed) :
    behind before tokens = Text.trimLines (Text.spaced false (text.rdropWhile Text.isBlank)) := by
  induction h generalizing before with
  | stop hgap =>
    rw [List.rdropWhile_eq_nil_iff.mpr hgap]
    simp [behind, Text.spaced, Text.trimLines]
  | @token passed gap rest token tokens hgap hlawful hkind hspan _ ih =>
    have hnewline := Token.newline_notMem_text hlawful hkind
    have hspace : ∀ c ∈ token.text.toList.getLast?, c ≠ ' ' := by
      rintro c mem rfl
      cases Token.isBlank_last hlawful hkind _ mem
    rw [behind, ih (hbefore.append hspan hnewline), hbefore.gap_eq hspan, rdropWhile_text hlawful hkind,
      Text.spaced_blanks hgap, Token.spaced_text hlawful hkind,
      Text.trimLines_gap hgap (Token.text_ne_nil hlawful hkind) hnewline hspace]

theorem ends (h : Laid passed text tokens) : ∀ last ∈ tokens.getLast?,
    last.span.line = (Position.behind (passed ++ text.rdropWhile Text.isBlank)).line ∧
      last.span.stop = (Position.behind (passed ++ text.rdropWhile Text.isBlank)).column := by
  induction h with
  | stop => simp
  | @token passed gap rest token tokens hgap hlawful hkind hspan hrest ih =>
    rw [rdropWhile_text hlawful hkind, ← List.append_assoc, ← List.append_assoc]
    cases hrest with
    | stop hblank =>
      rw [List.getLast?_singleton]
      rintro last ⟨⟩
      rw [List.rdropWhile_eq_nil_iff.mpr hblank, List.append_nil, hspan]
      rcases Position.behind_append (passed ++ gap) token.text.toList with ⟨-, hline, hcolumn⟩ | ⟨mem, -⟩
      · exact ⟨hline.symm, hcolumn.symm⟩
      · exact absurd mem (Token.newline_notMem_text hlawful hkind)
    | token =>
      rw [List.getLast?_cons_cons]
      exact ih

theorem behind (h : Laid passed text tokens) (hbefore : Reaches before passed) {passed' : List Char}
    (haligned : Aligned passed passed') : Laid passed' (Layout.behind before tokens) tokens := by
  induction h generalizing before passed' with
  | stop => exact .stop (List.forall_mem_nil _)
  | @token passed gap rest token tokens hgap hlawful hkind hspan _ ih =>
    have hplace : Aligned (passed ++ gap) (passed' ++ Layout.gap before token) := by
      apply haligned.append
      rw [hbefore.gap_eq hspan]
      exact Position.behind_gap _
    apply Laid.token
    · exact fun c mem => (gap_blank mem).1
    · exact hlawful
    · exact hkind
    · rw [hplace.along_eq, hspan]
    · exact ih (hbefore.append hspan (Token.newline_notMem_text hlawful hkind)) (hplace.append ⟨rfl, rfl⟩)

theorem eq_nil_of_gap (hbefore : Reaches before passed)
    (hspan : token.span = .along (passed ++ gap) token.text.toList) (h : Layout.gap before token = []) :
    gap = [] := by
  rw [hbefore.gap_eq hspan, Position.gap, List.append_eq_nil_iff, List.replicate_eq_nil_iff,
    List.replicate_eq_nil_iff] at h
  exact Position.eq_nil_of_behind h.1 h.2

theorem cut_behind (h : Laid passed text tokens) (hbefore : Reaches before passed)
    (hcut : Cut passed text (tokens.map Token.lexeme) none) (passed' : List Char) :
    Cut passed' (Layout.behind before tokens) (tokens.map Token.lexeme) none := by
  induction h generalizing before passed' with
  | stop => exact .stop passed'
  | @token passed gap rest token tokens hgap hlawful hkind hspan hrest ih =>
    rw [List.map_cons, cut_blanks hgap, cut_lexeme (Token.lexical hlawful hkind _)] at hcut
    obtain ⟨hlongest, hcut⟩ := hcut
    have hreaches := hbefore.append hspan (Token.newline_notMem_text hlawful hkind)
    rw [Layout.behind, List.map_cons, cut_blanks fun c mem => (gap_blank mem).1,
      cut_lexeme (Token.lexical hlawful hkind _), longest_behind hlawful hkind hrest.lawful]
    refine ⟨?_, ih hreaches hcut _⟩
    -- Without a gap in the layout there is none in the text, and the same characters follow.
    rintro b tokens rfl hgap'
    cases hrest with
    | @token _ gap' _ _ _ _ _ _ hspan' =>
      obtain rfl := eq_nil_of_gap hreaches hspan' hgap'
      rw [(Token.lexical hlawful hkind _).longest_iff]
      intro c mem
      apply hlongest.absorbs
      rw [List.nil_append, List.head?_append, mem]
      rfl

theorem stream (h : Laid passed text tokens) (hcut : Cut passed text (tokens.map Token.lexeme) none) :
    ∃ eof, TokenStream.ofCursor ⟨text, .behind passed⟩ = ⟨tokens, .ok eof⟩ ∧ eof.kind = .eof := by
  induction h with
  | stop =>
    obtain ⟨tokens, last, hstream, hlexemes, eof, rfl, heof⟩ := hcut.reads
    obtain rfl := List.map_eq_nil_iff.mp hlexemes
    exact ⟨eof, hstream, congrArg Lexeme.kind heof⟩
  | @token passed gap rest token tokens hgap hlawful hkind hspan hrest ih =>
    rw [List.map_cons, cut_blanks hgap, cut_lexeme (Token.lexical hlawful hkind _)] at hcut
    obtain ⟨hlongest, hcut⟩ := hcut
    obtain ⟨eof, hstream, heof⟩ := ih hcut
    obtain ⟨⟨c, tail, htext, hblank⟩, -⟩ := hlongest.lexical.shape.first
    obtain ⟨other, after, hread, hlexeme⟩ := hlongest.reads (.behind (passed ++ gap))
    obtain ⟨rfl, -, hother⟩ := Cursor.span_of_read hread
    obtain rfl : other = token := Token.eq_of_lexeme hlexeme (hother.trans hspan.symm)
    refine ⟨eof, ?_, heof⟩
    rw [TokenStream.ofCursor_blanks hgap]
    rw [htext, List.cons_append] at hread ⊢
    rw [TokenStream.ofCursor_token hblank hread hkind, ← htext, hstream]
    rfl

end Laid

end Layout

/-! ## Sources -/

def Span.columns (source : String) (span : Span) : Option (List Char) :=
  (Text.lines source)[span.line]?.map fun line => (line.toList.take span.stop).drop span.start

theorem columns_along {source : String} {passed front rest : List Char}
    (h : source.toList = passed ++ (front ++ rest)) (hnewline : '\n' ∉ front) :
    (Span.along passed front).columns source = some front := by
  obtain ⟨line, hline, -, hcolumns⟩ := exists_line_along h hnewline
  rw [Span.columns, hline, Option.map_some, hcolumns]

theorem Placed.laid {source : String} {passed text : List Char} {tokens : List Token}
    (h : Placed passed text tokens) (hsource : source.toList = passed ++ text)
    (hlawful : ∀ token ∈ tokens, token.lexeme.Lawful)
    (hcanonical : ∀ token ∈ tokens, token.kind = .string →
      token.span.columns source = some (Text.literal token.literal).toList) :
    Layout.Laid passed text (tokens.filter (·.kind ≠ .eof)) := by
  induction h with
  | stop hlexeme =>
    have hkind := congrArg Lexeme.kind hlexeme
    rw [List.filter_cons_of_neg (by simpa using hkind)]
    exact .stop (List.forall_mem_nil _)
  | blank hblank _ ih => exact (ih (by simpa using hsource) hlawful hcanonical).blank hblank
  | @token passed front rest first tokens hne hnewline hkind hspelled hspan _ ih =>
    obtain ⟨hfirst, hlawful⟩ := List.forall_mem_cons.mp hlawful
    obtain ⟨hliteral, hcanonical⟩ := List.forall_mem_cons.mp hcanonical
    have hfront : front = first.text.toList := by
      unfold Lexeme.Spelled at hspelled
      rw [Token.lexeme_kind, Token.lexeme_literal] at hspelled
      split at hspelled
      next hstring =>
        have hcolumns := hliteral hstring
        rw [hspan, columns_along hsource hnewline] at hcolumns
        rw [Token.text, if_pos hstring]
        exact Option.some.inj hcolumns
      next hstring =>
        rw [Token.text, if_neg hstring]
        exact hspelled
    subst hfront
    have hrest := ih (by simpa using hsource) hlawful hcanonical
    rw [List.filter_cons_of_pos (by simpa using hkind)]
    exact @Layout.Laid.token passed [] rest first _ (List.forall_mem_nil _) hfirst hkind
      (by simpa using hspan) (by simpa using hrest)

theorem filter_concat_eof {body : List Token} {eof : Token} (hbody : ∀ token ∈ body, token.kind ≠ .eof)
    (heof : eof.kind = .eof) : (body ++ [eof]).filter (·.kind ≠ .eof) = body := by
  rw [List.filter_append, List.filter_eq_self.mpr (by simpa using hbody),
    List.filter_cons_of_neg (by simpa using heof), List.filter_nil, List.append_nil]

/-- Laying out the tokens of a source whose string literals are closed and spelled with their escapes gives
its normal text: blanks outside of the literals are spaces and newlines, no line ends in spaces, and there is
nothing behind the last token. A source of this form is given back, and from its normal text every source is
read as the same tokens at the same places. -/
theorem detokenize_normal {source : String} {tokens : List Token} (h : tokenize source = .ok tokens)
    (hcanonical : ∀ token ∈ tokens, token.kind = .string →
      token.span.columns source = some (Text.literal token.literal).toList) :
    detokenize tokens = Text.normal source ∧
      (∀ last ∈ (tokens.filter (·.kind ≠ .eof)).getLast?,
        last.span.line = (Position.behind (source.toList.rdropWhile Text.isBlank)).line ∧
          last.span.stop = (Position.behind (source.toList.rdropWhile Text.isBlank)).column) ∧
      (tokens.filter (·.kind ≠ .eof) = [] → ∀ c ∈ source.toList, Text.isBlank c = true) ∧
      (Text.normal source = source → detokenize tokens = source) ∧
      ∃ again, tokenize (detokenize tokens) = .ok again ∧
        again.filter (·.kind ≠ .eof) = tokens.filter (·.kind ≠ .eof) := by
  have hplaced := placed_of_tokenize h
  have hordered := hplaced.ordered
  have hlaid := hplaced.laid rfl (lawful_of_tokenize h) hcanonical
  obtain ⟨body, eof, rfl, hkinds, heof, -⟩ := hplaced.ending
  have heofkind : eof.kind = .eof := congrArg Lexeme.kind heof
  have hlines : body.Pairwise fun a b => a.span.line ≤ b.span.line :=
    ((List.pairwise_append.mp hordered).1).imp fun hprecedes => by
      unfold Span.Precedes at hprecedes
      omega
  have htext := Layout.toList_detokenize hkinds heofkind hlines
  have hcut : Cut [] source.toList (body.map Token.lexeme) none := cut_of_tokenize h (by simp [heof])
  rw [filter_concat_eof hkinds heofkind] at hlaid ⊢
  have hnormal : detokenize (body ++ [eof]) = Text.normal source := by
    rw [← String.toList_inj, htext, Text.normal, String.toList_ofList]
    exact hlaid.behind_eq .nil
  refine ⟨hnormal, hlaid.ends, ?_, hnormal.trans, ?_⟩
  · rintro rfl
    clear htext hcut
    generalize source.toList = text at hlaid ⊢
    cases hlaid with
    | stop hblank => exact hblank
  · obtain ⟨eof', hstream, heof'⟩ := (hlaid.behind .nil ⟨rfl, rfl⟩).stream (hlaid.cut_behind .nil hcut [])
    refine ⟨body ++ [eof'], tokenize_ok.mpr ⟨body, eof', ?_, rfl⟩, filter_concat_eof hkinds heof'⟩
    rw [TokenStream.ofSource, Cursor.ofSource, htext]
    exact hstream

theorem detokenize_normal_blanks :
    let tokens := [⟨.identifier, "a", ⟨0, 1, 2⟩⟩, ⟨.string, "\n", ⟨0, 3, 7⟩⟩, ⟨.identifier, "b", ⟨2, 1, 2⟩⟩,
      ⟨.eof, "", ⟨3, 0, 0⟩⟩]
    tokenize "\ta\u00a0\"\\n\" \n\n b\n" = .ok tokens ∧ detokenize tokens = " a \"\\n\"\n\n b" ∧
      ∃ again, tokenize (detokenize tokens) = .ok again ∧
        again.filter (·.kind ≠ .eof) = tokens.filter (·.kind ≠ .eof) := by
  intro tokens
  have htokens : tokenize "\ta\u00a0\"\\n\" \n\n b\n" = .ok tokens := by
    cbv
  have hliteral : Span.columns "\ta\u00a0\"\\n\" \n\n b\n" ⟨0, 3, 7⟩ = some (Text.literal "\n").toList := by
    cbv
  obtain ⟨hnormal, -, -, -, hagain⟩ := detokenize_normal htokens (by simpa [tokens] using hliteral)
  refine ⟨htokens, hnormal.trans ?_, hagain⟩
  cbv

end MonkeyLang
