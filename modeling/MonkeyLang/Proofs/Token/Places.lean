import MonkeyLang.Text.Rows
import MonkeyLang.Proofs.Token.Munch
import MonkeyLang.Proofs.Token.Stream

/-!
# Places of tokens

The spans of a source's tokens tile it. Each lies on one line of the source, between two columns of that
line, and the characters there spell its token; later tokens begin further behind; and what no span
covers is blank.

`Placed` says so along the text, by what was passed in front of each token. It is what the reading of a
cut gives (`Cut.placed`), and everything else follows from it.
-/

namespace MonkeyLang

/-! ## Lines -/

namespace Text

theorem takeWhile_of_notMem {c : Char} {text : List Char} (h : c ∉ text) (rest : List Char) :
    (text ++ rest).takeWhile (· ≠ c) = text ++ rest.takeWhile (· ≠ c) := by
  apply List.takeWhile_append_of_pos
  intro d mem
  exact decide_eq_true fun hd => h (hd ▸ mem)

theorem exists_last {c : Char} {text : List Char} (h : c ∈ text) :
    ∃ before last, text = before ++ c :: last ∧ c ∉ last := by
  obtain ⟨last, before, htext, hlast⟩ := List.eq_append_cons_of_mem (List.mem_reverse.mpr h)
  refine ⟨before.reverse, last.reverse, ?_, fun mem => hlast (List.mem_reverse.mp mem)⟩
  rw [← List.reverse_reverse text, htext]
  simp

theorem length_splitOn (c : Char) (text : List Char) :
    (text.splitOn c).length = text.count c + 1 := by
  induction text with
  | nil => rfl
  | cons d text ih =>
    rw [List.splitOn_cons_eq_if_modifyHead, List.count_cons]
    split <;> simp [ih]

theorem head_splitOn {c : Char} {front : List Char} (h : c ∉ front) (rest : List Char) :
    ((front ++ rest).splitOn c)[0]? = some (front ++ rest.takeWhile (· ≠ c)) := by
  by_cases hc : c ∈ rest
  · obtain ⟨line, more, rfl, hline⟩ := List.eq_append_cons_of_mem hc
    have hfront : c ∉ front ++ line := fun mem => (List.mem_append.mp mem).elim h hline
    rw [← List.append_assoc, List.splitOn_append_cons_self_of_not_mem hfront, takeWhile_of_notMem hline]
    simp
  · have hfront : c ∉ front ++ rest := fun mem => (List.mem_append.mp mem).elim h hc
    have hrest := takeWhile_of_notMem hc []
    rw [List.append_nil, List.takeWhile_nil, List.append_nil] at hrest
    rw [List.splitOn_eq_singleton hfront, hrest]
    rfl

end Text

namespace Position

theorem column_of_notMem {passed : List Char} (h : '\n' ∉ passed) :
    (behind passed).column = passed.length := by
  have htake := Text.takeWhile_of_notMem (fun mem => h (List.mem_reverse.mp mem)) []
  rw [List.append_nil, List.takeWhile_nil, List.append_nil] at htake
  rw [behind, htake, List.length_reverse]

theorem column_of_newline {last : List Char} (h : '\n' ∉ last) (before : List Char) :
    (behind (before ++ '\n' :: last)).column = last.length := by
  have htake := Text.takeWhile_of_notMem (fun mem => h (List.mem_reverse.mp mem))
    ('\n' :: before.reverse)
  rw [behind, List.reverse_append, List.reverse_cons, List.append_assoc, List.singleton_append, htake]
  simp

theorem exists_line (passed : List Char) : ∃ front, front.length = (behind passed).column ∧
    ∀ rest, ((passed ++ rest).splitOn '\n')[(behind passed).line]? =
      some (front ++ rest.takeWhile (· ≠ '\n')) := by
  by_cases h : '\n' ∈ passed
  · obtain ⟨before, last, rfl, hlast⟩ := Text.exists_last h
    refine ⟨last, (column_of_newline hlast before).symm, fun rest => ?_⟩
    have hline : (behind (before ++ '\n' :: last)).line = (before.splitOn '\n').length := by
      rw [Text.length_splitOn]
      simp [behind, List.count_eq_zero.mpr hlast]
    rw [List.append_assoc, List.cons_append, List.splitOn_append_cons_self, hline,
      List.getElem?_append_right (Nat.le_refl _), Nat.sub_self]
    exact Text.head_splitOn hlast rest
  · refine ⟨passed, (column_of_notMem h).symm, fun rest => ?_⟩
    rw [show (behind passed).line = 0 from List.count_eq_zero.mpr h]
    exact Text.head_splitOn h rest

theorem behind_append (passed text : List Char) :
    ('\n' ∉ text ∧ (behind (passed ++ text)).line = (behind passed).line ∧
      (behind (passed ++ text)).column = (behind passed).column + text.length) ∨
    ('\n' ∈ text ∧ (behind passed).line < (behind (passed ++ text)).line) := by
  by_cases h : '\n' ∈ text
  · have := List.count_pos_iff.mpr h
    rw [line_append]
    exact .inr ⟨h, by omega⟩
  · have htake := Text.takeWhile_of_notMem (fun mem => h (List.mem_reverse.mp mem)) passed.reverse
    refine .inl ⟨h, ?_, ?_⟩
    · rw [line_append, List.count_eq_zero.mpr h, Nat.add_zero]
    · simp only [behind, List.reverse_append, htake, List.length_append, List.length_reverse]
      omega

end Position

/-! ## Spans of tokens -/

def Span.along (passed front : List Char) : Span :=
  ⟨(Position.behind passed).line, (Position.behind passed).column,
    (Position.behind passed).column + front.length⟩

@[simp] theorem Span.along_line (passed front : List Char) :
    (along passed front).line = (Position.behind passed).line := rfl

@[simp] theorem Span.along_start (passed front : List Char) :
    (along passed front).start = (Position.behind passed).column := rfl

@[simp] theorem Span.along_stop (passed front : List Char) :
    (along passed front).stop = (Position.behind passed).column + front.length := rfl

def Lexeme.Spelled (l : Lexeme) (front rest : List Char) : Prop :=
  if l.kind = .string then ∃ inner, front = '"' :: inner ∧ Literal inner rest l.literal.toList
  else front = l.literal.toList

theorem Lexical.spelled {front rest : List Char} {l : Lexeme} (h : Lexical front rest l) :
    l.Spelled front rest := by
  cases h with
  | fixed rest hspelling =>
    rw [Lexeme.Spelled, if_neg, String.toList_ofList]
    rintro rfl
    cases hspelling
  | name | integer => rw [Lexeme.Spelled, if_neg (by simp), String.toList_ofList]
  | string hliteral =>
    rw [Lexeme.Spelled, if_pos rfl, String.toList_ofList]
    exact ⟨_, rfl, hliteral⟩

namespace Cursor

def Between (start stop : Cursor) (token : Token) : Prop :=
  stop.position.line = start.position.line ∧
    token.span = ⟨start.position.line, start.position.column, stop.position.column⟩

theorem between_of_tokenTo {start stop : Cursor} {kind : TokenKind} {literal : String} {token : Token}
    (h : tokenTo start stop kind literal = .ok token) : start.Between stop token := by
  unfold tokenTo Span.within at h
  split at h
  next hline =>
    cases h
    exact ⟨hline.symm, rfl⟩
  next => cases h

theorem between_read {cursor : Cursor} {token : Token} (h : cursor.read.1 = .ok token) :
    cursor.Between cursor.read.2 token := by
  revert h
  fun_cases read cursor with
  | case1 => exact between_of_tokenTo
  | case2 | case3 | case4 => exact between_of_tokenTo
  | case5 =>
    rw [readString]
    split
    · exact between_of_tokenTo
    · rintro ⟨⟩
  | case6 | case7 => exact between_of_tokenTo
  | case8 => rintro ⟨⟩

end Cursor

/-! ## Placed tokens -/

/-- The text behind the passed characters falls into blanks and the tokens, each on one line and with
the span of the characters that spell it. The last token is the end of input, behind all of them. -/
inductive Placed : List Char → List Char → List Token → Prop where
  | stop {passed : List Char} {eof : Token} :
      eof.lexeme = ⟨.eof, ""⟩ → eof.span = .along passed [] → Placed passed [] [eof]
  | blank {passed rest : List Char} {c : Char} {tokens : List Token} :
      Text.isBlank c = true → Placed (passed ++ [c]) rest tokens → Placed passed (c :: rest) tokens
  | token {passed front rest : List Char} {token : Token} {tokens : List Token} :
      front ≠ [] → '\n' ∉ front → token.kind ≠ .eof → token.lexeme.Spelled front rest →
      token.span = .along passed front →
      Placed (passed ++ front) rest tokens → Placed passed (front ++ rest) (token :: tokens)

theorem Cursor.span_of_read {passed front rest : List Char} {token : Token} {after : Position}
    (hread : read ⟨front ++ rest, .behind passed⟩ = (.ok token, ⟨rest, after⟩)) :
    after = .behind (passed ++ front) ∧ '\n' ∉ front ∧ token.span = .along passed front := by
  obtain ⟨front', hrest, hposition⟩ := passes_read ⟨front ++ rest, .behind passed⟩
  have hbetween := between_read (congrArg Prod.fst hread)
  rw [hread] at hrest hposition hbetween
  obtain rfl := List.append_cancel_right hrest
  obtain rfl : after = .behind (passed ++ front) := hposition.trans (Position.foldl_behind passed front)
  obtain ⟨hline, hspan⟩ := hbetween
  rcases Position.behind_append passed front with ⟨hnewline, -, hcolumn⟩ | ⟨-, hlater⟩
  · refine ⟨rfl, hnewline, ?_⟩
    exact hspan.trans (congrArg (Span.mk _ _) hcolumn)
  · exact absurd hline (Nat.ne_of_gt hlater)

theorem TokenStream.ofCursor_end (passed : List Char) :
    ofCursor ⟨[], .behind passed⟩ = ⟨[], .ok ⟨.eof, "", .along passed []⟩⟩ := by
  rw [ofCursor_eq]
  simp [Cursor.next, Cursor.skipWhile, Cursor.skipTo, Cursor.read, Cursor.tokenTo, Span.within,
    Except.map, Span.along]

theorem Cut.placed {passed text : List Char} {lexemes : List Lexeme}
    (h : Cut passed text lexemes none) :
    ∃ body eof, TokenStream.ofCursor ⟨text, .behind passed⟩ = ⟨body, .ok eof⟩ ∧
      Placed passed text (body ++ [eof]) := by
  generalize hending : (none : Option LexError) = ending at h
  induction h with
  | stop passed => exact ⟨[], _, TokenStream.ofCursor_end passed, .stop rfl rfl⟩
  | @blank passed rest c lexemes ending hblank _ ih =>
    obtain ⟨body, eof, hstream, hplaced⟩ := ih hending
    rw [TokenStream.ofCursor_blank hblank, Position.after_behind]
    exact ⟨body, eof, hstream, .blank hblank hplaced⟩
  | @lexeme passed front rest l lexemes ending hlongest _ ih =>
    obtain ⟨body, eof, hstream, hplaced⟩ := ih hending
    obtain ⟨⟨c, tail, rfl, hblank⟩, hkind⟩ := hlongest.lexical.shape.first
    obtain ⟨token, after, hread, rfl⟩ := hlongest.reads (.behind passed)
    obtain ⟨rfl, hnewline, hspan⟩ := Cursor.span_of_read hread
    refine ⟨token :: body, eof, ?_, .token (List.cons_ne_nil c tail) hnewline hkind
      hlongest.lexical.spelled hspan hplaced⟩
    rw [List.cons_append] at hread ⊢
    rw [TokenStream.ofCursor_token hblank hread hkind, hstream]
    rfl
  | unsupported | invalidEscape | multiLine => cases hending

theorem placed_of_tokenize {source : String} {tokens : List Token}
    (h : tokenize source = .ok tokens) : Placed [] source.toList tokens := by
  obtain ⟨lexemes, ending, hcut⟩ := exists_cut [] source.toList
  cases ending with
  | some error => cases h.symm.trans hcut.tokenize
  | none =>
    obtain ⟨body, eof, hstream, hplaced⟩ := hcut.placed
    obtain ⟨body', eof', hsource, rfl⟩ := tokenize_ok.mp h
    cases hsource.symm.trans hstream
    exact hplaced

/-! ## Order and cover -/

def Span.Precedes (a b : Span) : Prop :=
  a.line < b.line ∨ a.line = b.line ∧ a.start < b.start ∧ a.stop ≤ b.start

def Span.Covers (span : Span) (place : Position) : Prop :=
  span.line = place.line ∧ span.start ≤ place.column ∧ place.column < span.stop

theorem Span.Precedes.not_covers {a b : Span} (h : a.Precedes b) (place : Position) :
    ¬ (a.Covers place ∧ b.Covers place) := by
  rintro ⟨⟨_, _, _⟩, ⟨_, _, _⟩⟩
  unfold Precedes at h
  omega

namespace Span

theorem precedes_along {front : List Char} (h : front ≠ []) (passed more front' : List Char) :
    (along passed front).Precedes (along (passed ++ front ++ more) front') := by
  have hpositive := List.length_pos_iff.mpr h
  rw [List.append_assoc]
  simp only [Precedes, along_line, along_start, along_stop]
  rcases Position.behind_append passed (front ++ more) with ⟨-, hline, hcolumn⟩ | ⟨-, hline⟩
  · rw [List.length_append] at hcolumn
    omega
  · exact .inl hline

theorem covers_along {before after : List Char} {c : Char} (h : '\n' ∉ before ++ c :: after)
    (passed : List Char) :
    (along passed (before ++ c :: after)).Covers (.behind (passed ++ before)) := by
  simp only [Covers, along_line, along_start, along_stop, List.length_append, List.length_cons]
  rcases Position.behind_append passed before with ⟨-, hline, hcolumn⟩ | ⟨mem, -⟩
  · omega
  · exact absurd (List.mem_append_left _ mem) h

theorem not_covers_behind (passed front more : List Char) :
    ¬ (along passed front).Covers (.behind (passed ++ front ++ more)) := by
  rw [List.append_assoc]
  simp only [Covers, along_line, along_start, along_stop]
  rcases Position.behind_append passed (front ++ more) with ⟨-, -, hcolumn⟩ | ⟨-, hline⟩
  · rw [List.length_append] at hcolumn
    omega
  · omega

theorem not_covers_ahead (passed front more : List Char) (c : Char) :
    ¬ (along (passed ++ [c] ++ more) front).Covers (.behind passed) := by
  rw [List.append_assoc]
  simp only [Covers, along_line, along_start, along_stop]
  rcases Position.behind_append passed ([c] ++ more) with ⟨-, -, hcolumn⟩ | ⟨-, hline⟩
  · rw [List.length_append, List.length_singleton] at hcolumn
    omega
  · omega

end Span

namespace Placed

variable {passed text : List Char} {tokens : List Token}

theorem split_at {front rest before after : List Char} {c : Char}
    (h : front ++ rest = before ++ c :: after) :
    (∃ after', front = before ++ c :: after') ∨
      ∃ before', before = front ++ before' ∧ rest = before' ++ c :: after := by
  rcases List.append_eq_append_iff.mp h with ⟨more, rfl, hrest⟩ | ⟨more, rfl, hmore⟩
  · exact .inr ⟨more, rfl, hrest⟩
  · rcases more with _ | ⟨d, more⟩
    · exact .inr ⟨[], by simp, hmore.symm⟩
    · cases hmore
      exact .inl ⟨more, rfl⟩

theorem located (h : Placed passed text tokens) :
    ∀ token ∈ tokens, ∃ more front rest, text = more ++ (front ++ rest) ∧ '\n' ∉ front ∧
      token.lexeme.Spelled front rest ∧ token.span = .along (passed ++ more) front := by
  induction h with
  | @stop passed eof hlexeme hspan =>
    intro token mem
    obtain rfl := List.mem_singleton.mp mem
    rw [hlexeme]
    exact ⟨[], [], [], rfl, List.not_mem_nil, rfl, by simpa using hspan⟩
  | @blank passed rest c tokens _ _ ih =>
    intro token mem
    obtain ⟨more, front, rest, rfl, hnewline, hspelled, hspan⟩ := ih token mem
    exact ⟨c :: more, front, rest, rfl, hnewline, hspelled, by simpa using hspan⟩
  | @token passed front rest first tokens _ hnewline _ hspelled hspan _ ih =>
    intro token mem
    rcases List.mem_cons.mp mem with rfl | mem
    · exact ⟨[], front, rest, rfl, hnewline, hspelled, by simpa using hspan⟩
    · obtain ⟨more, front', rest, rfl, hnewline, hspelled, hspan⟩ := ih token mem
      exact ⟨front ++ more, front', rest, by simp, hnewline, hspelled, by simpa using hspan⟩

theorem ordered (h : Placed passed text tokens) :
    tokens.Pairwise fun a b => a.span.Precedes b.span := by
  induction h with
  | stop => exact List.pairwise_singleton _ _
  | blank _ _ ih => exact ih
  | @token passed front rest first tokens hne _ _ _ hspan hrest ih =>
    refine List.pairwise_cons.mpr ⟨fun token mem => ?_, ih⟩
    obtain ⟨more, front', -, -, -, -, hspan'⟩ := hrest.located token mem
    rw [hspan, hspan']
    exact Span.precedes_along hne passed more front'

theorem covered (h : Placed passed text tokens) {before after : List Char} {c : Char}
    (htext : text = before ++ c :: after) :
    (∃ token ∈ tokens, token.span.Covers (.behind (passed ++ before))) ∨
      Text.isBlank c = true ∧ ∀ token ∈ tokens, ¬ token.span.Covers (.behind (passed ++ before)) := by
  induction h generalizing before with
  | stop => exact absurd htext (by simp)
  | @blank passed rest d tokens hblank hrest ih =>
    rcases before with _ | ⟨e, before⟩
    · obtain ⟨rfl, rfl⟩ := List.cons.inj htext
      refine .inr ⟨hblank, fun token mem => ?_⟩
      obtain ⟨more, front, -, -, -, -, hspan⟩ := hrest.located token mem
      rw [hspan, List.append_nil]
      exact Span.not_covers_ahead passed front more d
    · obtain ⟨rfl, hrest⟩ := List.cons.inj htext
      have := ih hrest
      rwa [List.append_assoc] at this
  | @token passed front rest first tokens hne hnewline _ _ hspan hrest ih =>
    rcases split_at htext with ⟨after', rfl⟩ | ⟨before', rfl, hafter⟩
    · refine .inl ⟨first, List.mem_cons_self, ?_⟩
      rw [hspan]
      exact Span.covers_along hnewline passed
    · rw [← List.append_assoc]
      apply (ih hafter).imp
      · rintro ⟨token, mem, hcovers⟩
        exact ⟨token, List.mem_cons_of_mem first mem, hcovers⟩
      · rintro ⟨hblank, hnone⟩
        refine ⟨hblank, List.forall_mem_cons.mpr ⟨?_, hnone⟩⟩
        rw [hspan]
        exact Span.not_covers_behind passed front before'

theorem unique (h : Placed passed text tokens) {place : Position} {a b : Token} (ha : a ∈ tokens)
    (hb : b ∈ tokens) (hacovers : a.span.Covers place) (hbcovers : b.span.Covers place) : a = b := by
  have hordered := h.ordered
  clear h
  induction tokens with
  | nil => cases ha
  | cons first tokens ih =>
    obtain ⟨hfirst, hrest⟩ := List.pairwise_cons.mp hordered
    rcases List.mem_cons.mp ha with rfl | ha'
    · rcases List.mem_cons.mp hb with rfl | hb'
      · rfl
      · exact absurd ⟨hacovers, hbcovers⟩ ((hfirst b hb').not_covers place)
    · rcases List.mem_cons.mp hb with rfl | hb'
      · exact absurd ⟨hbcovers, hacovers⟩ ((hfirst a ha').not_covers place)
      · exact ih ha' hb' hrest

theorem ending (h : Placed passed text tokens) :
    ∃ body eof, tokens = body ++ [eof] ∧ (∀ token ∈ body, token.kind ≠ .eof) ∧
      eof.lexeme = ⟨.eof, ""⟩ ∧ eof.span = .along (passed ++ text) [] := by
  induction h with
  | @stop passed eof hlexeme hspan => exact ⟨[], eof, rfl, by simp, hlexeme, by simpa using hspan⟩
  | blank _ _ ih =>
    obtain ⟨body, eof, rfl, hbody, heof, hspan⟩ := ih
    exact ⟨body, eof, rfl, hbody, heof, by simpa using hspan⟩
  | @token passed front rest first tokens _ _ hkind _ _ _ ih =>
    obtain ⟨body, eof, rfl, hbody, heof, hspan⟩ := ih
    exact ⟨first :: body, eof, rfl, List.forall_mem_cons.mpr ⟨hkind, hbody⟩, heof, by simpa using hspan⟩

end Placed

/-! ## Tiling -/

def Token.StandsIn (source : String) (token : Token) : Prop :=
  ∃ line passed front rest, (Text.lines source)[token.span.line]? = some line ∧
    token.span.start ≤ token.span.stop ∧ token.span.stop ≤ line.length ∧
    (line.toList.take token.span.stop).drop token.span.start = front ∧
    source.toList = passed ++ (front ++ rest) ∧ token.span = .along passed front ∧
    token.lexeme.Spelled front rest

theorem lines_behind {source : String} {passed rest : List Char} (h : source.toList = passed ++ rest) :
    ∃ front, front.length = (Position.behind passed).column ∧
      (Text.lines source)[(Position.behind passed).line]? =
        some (String.ofList (front ++ rest.takeWhile (· ≠ '\n'))) := by
  obtain ⟨front, hlength, hline⟩ := Position.exists_line passed
  refine ⟨front, hlength, ?_⟩
  rw [Text.lines, h, List.getElem?_map, hline rest]
  rfl

theorem exists_line_along {source : String} {passed front rest : List Char}
    (h : source.toList = passed ++ (front ++ rest)) (hnewline : '\n' ∉ front) :
    ∃ line, (Text.lines source)[(Span.along passed front).line]? = some line ∧
      (Span.along passed front).stop ≤ line.length ∧
      (line.toList.take (Span.along passed front).stop).drop (Span.along passed front).start = front := by
  obtain ⟨lead, hlead, hline⟩ := lines_behind h
  rw [Text.takeWhile_of_notMem hnewline] at hline
  refine ⟨String.ofList (lead ++ (front ++ rest.takeWhile (· ≠ '\n'))), hline, ?_, ?_⟩
  · simp [← hlead]
  · rw [Span.along_stop, Span.along_start, ← hlead, String.toList_ofList, ← List.append_assoc,
      ← List.length_append, List.take_left, List.drop_left]

theorem standsIn_along {source : String} {token : Token} {passed front rest : List Char}
    (h : source.toList = passed ++ (front ++ rest)) (hnewline : '\n' ∉ front)
    (hspelled : token.lexeme.Spelled front rest) (hspan : token.span = .along passed front) :
    token.StandsIn source := by
  obtain ⟨line, hline, hstop, hcolumns⟩ := exists_line_along h hnewline
  refine ⟨line, passed, front, rest, ?_, ?_, ?_, ?_, h, hspan, hspelled⟩
  · rw [hspan]
    exact hline
  · simp [hspan]
  · rw [hspan]
    exact hstop
  · rw [hspan]
    exact hcolumns

/-- The spans of a source's tokens tile it: every token is spelled by the columns of its span, every
token ends before the next one begins, and a character is in one span, or in none and blank. The end of
input stands behind the last character of the last line. -/
theorem tokenize_tiles {source : String} {tokens : List Token} (h : tokenize source = .ok tokens) :
    (∀ token ∈ tokens, token.StandsIn source) ∧
    tokens.Pairwise (fun a b => a.span.Precedes b.span) ∧
    (∀ passed c rest, source.toList = passed ++ c :: rest →
      (∃ token ∈ tokens, token.span.Covers (.behind passed) ∧
        ∀ other ∈ tokens, other.span.Covers (.behind passed) → other = token) ∨
      Text.isBlank c = true ∧ ∀ token ∈ tokens, ¬ token.span.Covers (.behind passed)) ∧
    ∃ body eof, tokens = body ++ [eof] ∧ (∀ token ∈ body, token.kind ≠ .eof) ∧
      eof.lexeme = ⟨.eof, ""⟩ ∧ eof.span.line + 1 = (Text.lines source).length ∧
      ∃ line, (Text.lines source).getLast? = some line ∧
        eof.span.start = line.length ∧ eof.span.stop = line.length := by
  have hplaced := placed_of_tokenize h
  refine ⟨?_, hplaced.ordered, ?_, ?_⟩
  · intro token mem
    obtain ⟨passed, front, rest, hsource, hnewline, hspelled, hspan⟩ := hplaced.located token mem
    exact standsIn_along hsource hnewline hspelled hspan
  · intro passed c rest hsource
    apply (hplaced.covered hsource).imp_left
    rintro ⟨token, mem, hcovers⟩
    exact ⟨token, mem, hcovers, fun other mem' hcovers' => hplaced.unique mem' mem hcovers' hcovers⟩
  · obtain ⟨body, eof, rfl, hbody, heof, hspan⟩ := hplaced.ending
    obtain ⟨lead, hlead, hline⟩ := lines_behind (List.append_nil source.toList).symm
    have hlength : (Text.lines source).length = (Position.behind source.toList).line + 1 := by
      rw [Text.lines, List.length_map, Text.length_splitOn]
      rfl
    refine ⟨body, eof, rfl, hbody, heof, ?_, String.ofList lead, ?_, ?_, ?_⟩
    · rw [hspan, hlength]
      rfl
    · rw [List.getLast?_eq_getElem?, hlength, Nat.add_sub_cancel, hline]
      simp
    · simp [hspan, hlead]
    · simp [hspan, hlead]

theorem tokenize_tiles_unclosed :
    let source := "a\n \"b\\"
    let tokens := [⟨.identifier, "a", ⟨0, 0, 1⟩⟩, ⟨.string, "b", ⟨1, 1, 4⟩⟩, ⟨.eof, "", ⟨1, 4, 4⟩⟩]
    tokenize source = .ok tokens ∧ (∀ token ∈ tokens, token.StandsIn source) ∧
      tokens.Pairwise fun a b => a.span.Precedes b.span := by
  have htokens : tokenize "a\n \"b\\" = .ok [⟨.identifier, "a", ⟨0, 0, 1⟩⟩,
      ⟨.string, "b", ⟨1, 1, 4⟩⟩, ⟨.eof, "", ⟨1, 4, 4⟩⟩] := by
    cbv
  obtain ⟨hstands, hordered, -, -⟩ := tokenize_tiles htokens
  exact ⟨htokens, hstands, hordered⟩

end MonkeyLang
