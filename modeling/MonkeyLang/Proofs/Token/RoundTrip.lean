import MonkeyLang.Proofs.Token.Layout

namespace MonkeyLang

theorem escapeChars_of_decodes {body text : List Char} (h : Decodes body text) (hline : '\n' ∉ body)
    (htab : '\t' ∉ body) : Text.escapeChars text = body := by
  induction h with
  | nil => rfl
  | @plain c body text hquote hslash _ ih =>
    have hbody := ih (fun mem => hline (List.mem_cons_of_mem c mem)) fun mem => htab (List.mem_cons_of_mem c mem)
    have hplain : Text.escapeLetter? c = none := by
      unfold Text.escapeLetter?
      split
      · exact absurd List.mem_cons_self hline
      · exact absurd List.mem_cons_self htab
      · exact absurd rfl hquote
      · exact absurd rfl hslash
      · rfl
    rw [Text.escapeChars, List.flatMap_cons, Text.escapeChar, hplain]
    exact congrArg (c :: ·) hbody
  | @escape e c body text he _ ih =>
    have hbody := ih (fun mem => hline (by simp [mem])) fun mem => htab (by simp [mem])
    have hescape : Text.escapeLetter? c = some e := by
      simp only [escapes, List.mem_cons, Prod.mk.injEq, List.not_mem_nil, or_false] at he
      rcases he with ⟨rfl, rfl⟩ | ⟨rfl, rfl⟩ | ⟨rfl, rfl⟩ | ⟨rfl, rfl⟩ <;> rfl
    rw [Text.escapeChars, List.flatMap_cons, Text.escapeChar, hescape]
    exact congrArg ('\\' :: e :: ·) hbody

theorem Lexeme.Spelled.lexical {token : Token} {front rest : List Char}
    (h : token.lexeme.Spelled front rest) (hlawful : token.lexeme.Lawful) (hkind : token.kind ≠ .eof)
    (hline : '\n' ∉ front) : Lexical front rest token.lexeme := by
  unfold Lexeme.Spelled at h
  split at h
  next hstring =>
    obtain ⟨inner, rfl, hliteral⟩ := h
    obtain ⟨kind, literal, span⟩ := token
    obtain rfl : kind = .string := hstring
    have := Lexical.string hliteral fun mem => hline (List.mem_cons_of_mem _ mem)
    rwa [Token.lexeme_literal, String.ofList_toList] at this
  next hstring =>
    rw [Token.lexeme_kind] at hstring
    have := Token.lexical hlawful hkind rest
    rwa [Token.text, if_neg hstring, ← Token.lexeme_literal, ← h] at this

theorem Lexeme.Spelled.text {token : Token} {front rest : List Char} (h : token.lexeme.Spelled front rest)
    (hline : '\n' ∉ front) (htab : '\t' ∉ front) (hrest : rest ≠ []) : token.text.toList = front := by
  unfold Lexeme.Spelled at h
  rw [Token.lexeme_kind, Token.lexeme_literal] at h
  split at h
  next hstring =>
    obtain ⟨inner, rfl, hliteral⟩ := h
    rw [Token.text, if_pos hstring, toList_literal]
    cases hliteral with
    | closed _ hbody =>
      rw [escapeChars_of_decodes hbody]
      · exact fun mem => hline (by simp [mem])
      · exact fun mem => htab (by simp [mem])
    | unclosed | dropped => exact absurd rfl hrest
  next hstring => rw [Token.text, if_neg hstring, h]

theorem Lexeme.Spelled.head {token : Token} {front rest : List Char} (h : token.lexeme.Spelled front rest) :
    ∀ c ∈ token.text.toList.head?, c ∈ (front ++ rest).head? := by
  intro c mem
  unfold Lexeme.Spelled at h
  rw [Token.lexeme_kind, Token.lexeme_literal] at h
  split at h
  next hstring =>
    obtain ⟨inner, rfl, -⟩ := h
    rwa [Token.text, if_pos hstring, toList_literal] at mem
  next hstring =>
    rw [Token.text, if_neg hstring, ← h] at mem
    obtain ⟨tail, rfl⟩ := List.head?_eq_some_iff.mp mem
    rfl

namespace Placed

variable {passed text : List Char} {tokens : List Token}

theorem kind_of_nil (h : Placed passed [] tokens) : ∀ token ∈ tokens, token.kind = .eof := by
  generalize htext : [] = text at h
  cases h with
  | stop hlexeme =>
    intro token mem
    rw [List.mem_singleton.mp mem]
    exact congrArg Lexeme.kind hlexeme
  | blank => cases htext
  | token hne => exact absurd (List.append_eq_nil_iff.mp htext.symm).1 hne

theorem fits (h : Placed passed text tokens)
    (htabs : ∀ more rest, text = more ++ '\t' :: rest →
      ∀ token ∈ tokens, ¬ token.span.Covers (.behind (passed ++ more)))
    {before after : List Token} {token : Token} (htokens : tokens = before ++ token :: after)
    (hafter : ∃ other ∈ after, other.kind ≠ .eof) :
    token.span.start + token.text.length ≤ token.span.stop := by
  induction h generalizing before with
  | stop =>
    obtain ⟨other, hother, -⟩ := hafter
    rcases before with _ | ⟨_, before⟩
    · cases htokens
      cases hother
    · simp at htokens
  | @blank passed rest c tokens _ _ ih =>
    refine ih (fun more rest hrest other mem => ?_) htokens
    have := htabs (c :: more) rest (by rw [hrest]; rfl) other mem
    rwa [List.append_cons] at this
  | @token passed front rest first tokens hne hline hkind hspelled hspan hplaced ih =>
    rcases before with _ | ⟨_, before⟩
    · obtain ⟨rfl, rfl⟩ := List.cons.inj htokens
      have htab : '\t' ∉ front := by
        intro mem
        obtain ⟨more, last, rfl⟩ := List.append_of_mem mem
        have hcovers := htabs more (last ++ rest) (by simp) first List.mem_cons_self
        rw [hspan] at hcovers
        exact hcovers (Span.covers_along hline passed)
      have hrest : rest ≠ [] := by
        rintro rfl
        obtain ⟨other, hother, heof⟩ := hafter
        exact heof (hplaced.kind_of_nil other hother)
      rw [hspan, ← String.length_toList, hspelled.text hline htab hrest]
      exact Nat.le_refl _
    · obtain ⟨-, rfl⟩ := List.cons.inj htokens
      refine ih (fun more rest' hrest other mem => ?_) rfl
      have := htabs (front ++ more) rest' (by rw [hrest, List.append_assoc]) other (List.mem_cons_of_mem _ mem)
      rwa [← List.append_assoc] at this

theorem longest_adjacent (h : Placed passed text tokens) (hlawful : ∀ token ∈ tokens, token.lexeme.Lawful)
    {ls : List Lexeme} (hcut : Cut passed text ls none) (hls : tokens.map Token.lexeme = ls ++ [⟨.eof, ""⟩])
    {before after : List Token} {a b : Token} (htokens : tokens = before ++ a :: b :: after)
    (hline : a.span.line = b.span.line) (hstart : a.span.stop = b.span.start) :
    Longest a.text.toList b.text.toList a.lexeme := by
  induction h generalizing before ls with
  | stop => rcases before with _ | ⟨_, _ | ⟨_, before⟩⟩ <;> cases htokens
  | blank hblank _ ih => exact ih hlawful ((cut_blank hblank).mp hcut) hls htokens
  | @token passed front rest first tokens hne hnewline hkind hspelled hspan hplaced ih =>
    obtain ⟨hfirst, hlawful⟩ := List.forall_mem_cons.mp hlawful
    rcases ls with _ | ⟨l, ls⟩
    · exact absurd (congrArg Lexeme.kind (List.cons.inj hls).1) hkind
    obtain ⟨rfl, hls'⟩ := List.cons.inj hls
    obtain ⟨hlongest, hcut⟩ := (cut_lexeme (hspelled.lexical hfirst hkind hnewline)).mp hcut
    rcases before with _ | ⟨_, before⟩
    · obtain ⟨rfl, rfl⟩ := List.cons.inj htokens
      obtain ⟨more, front', rest', rfl, -, hspelled', hspan'⟩ := hplaced.located b List.mem_cons_self
      -- On the same line, and from the same column on, there is nothing in between.
      have hmore : more = [] := by
        rw [hspan, hspan', List.append_assoc] at hline hstart
        simp only [Span.along_line, Span.along_stop, Span.along_start] at hline hstart
        rcases Position.behind_append passed (front ++ more) with ⟨-, -, hcolumn⟩ | ⟨-, hlater⟩
        · rw [hcolumn, List.length_append] at hstart
          exact List.length_eq_zero_iff.mp (by omega)
        · omega
      subst hmore
      rw [(Token.lexical hfirst hkind _).longest_iff]
      exact fun c mem => hlongest.absorbs c (hspelled'.head c mem)
    · obtain ⟨-, rfl⟩ := List.cons.inj htokens
      exact ih hlawful hcut hls' rfl

end Placed

theorem Placed.apart {passed text : List Char} {tokens : List Token} (h : Placed passed text tokens)
    (hlawful : ∀ token ∈ tokens, token.lexeme.Lawful) {ls : List Lexeme} (hcut : Cut passed text ls none)
    (hls : tokens.map Token.lexeme = ls ++ [⟨.eof, ""⟩])
    (htabs : ∀ more rest, text = more ++ '\t' :: rest →
      ∀ token ∈ tokens, ¬ token.span.Covers (.behind (passed ++ more)))
    {before after : List Token} {a b : Token} (htokens : tokens = before ++ a :: b :: after)
    (hkind : b.kind ≠ .eof) (hline : a.span.line = b.span.line) :
    Layout.width (before ++ [a]) b.span.line < b.span.start ∨
      Longest a.text.toList b.text.toList a.lexeme := by
  have hfits : ∀ token ∈ before ++ [a], token.span.start + token.text.length ≤ token.span.stop := by
    intro token mem
    obtain ⟨front, rest, hfront⟩ := List.append_of_mem mem
    refine h.fits htabs (?_ : tokens = front ++ token :: (rest ++ b :: after)) ⟨b, by simp, hkind⟩
    rw [htokens, List.append_cons, hfront]
    simp
  have hordered := h.ordered
  rw [htokens, List.append_cons] at hordered
  obtain ⟨hbefore, -, hprecedes⟩ := List.pairwise_append.mp hordered
  have hab : a.span.Precedes b.span := hprecedes a (by simp) b List.mem_cons_self
  have hwidth := Layout.width_le_stop hfits hbefore
  rw [hline] at hwidth
  unfold Span.Precedes at hab
  by_cases hapart : a.span.stop < b.span.start
  · exact .inl (Nat.lt_of_le_of_lt hwidth hapart)
  · exact .inr (h.longest_adjacent hlawful hcut hls htokens hline (by omega))

/-- The text that the tokens of a source are put back into has the same tokens again just when they are apart
in it, and they are if none of them holds a tab. -/
theorem tokenize_detokenize {source : String} {tokens : List Token} (h : tokenize source = .ok tokens) :
    ((∃ again, tokenize (detokenize tokens) = .ok again ∧
        again.map Token.lexeme = tokens.map Token.lexeme) ↔ Layout.Apart tokens) ∧
      ((∀ passed rest, source.toList = passed ++ '\t' :: rest →
        ∀ token ∈ tokens, ¬ token.span.Covers (.behind passed)) → Layout.Apart tokens) := by
  have hplaced := placed_of_tokenize h
  have hordered := hplaced.ordered
  obtain ⟨body, eof, rfl, hkinds, heof, -⟩ := hplaced.ending
  have hlexemes : (body ++ [eof]).map Token.lexeme = body.map Token.lexeme ++ [⟨.eof, ""⟩] := by simp [heof]
  have hlawful := lawful_of_tokenize h
  have hbody : ∀ token ∈ body, token.lexeme.Lawful ∧ token.kind ≠ .eof :=
    fun token mem => ⟨hlawful token (List.mem_append_left _ mem), hkinds token mem⟩
  have hlines : body.Pairwise fun a b => a.span.line ≤ b.span.line :=
    ((List.pairwise_append.mp hordered).1).imp fun hprecedes => by
      unfold Span.Precedes at hprecedes
      omega
  rw [Layout.apart_concat heof hbody]
  constructor
  · have hcut : (∃ again, tokenize (detokenize (body ++ [eof])) = .ok again ∧
        again.map Token.lexeme = (body ++ [eof]).map Token.lexeme) ↔
        Cut [] (Layout.behind [] body) (body.map Token.lexeme) none := by
      rw [← Layout.toList_detokenize hkinds (congrArg Lexeme.kind heof) hlines, hlexemes]
      exact ⟨fun ⟨again, hagain, hls⟩ => cut_of_tokenize hagain hls, fun hcut => hcut.tokenize⟩
    rw [hcut, Layout.cut_behind hbody]
    refine forall_congr' fun before => forall_congr' fun a => forall_congr' fun b => forall_congr' fun after =>
      forall_congr' fun happend => ?_
    rw [happend] at hlines
    rw [List.nil_append, Layout.gap_neighbours hlines, and_imp]
    exact forall_congr' fun _ => by rw [← Nat.not_lt, ← Decidable.or_iff_not_imp_left]
  · intro htabs before a b after hbefore hline
    have htokens : body ++ [eof] = before ++ a :: b :: (after ++ [eof]) := by simp [hbefore]
    exact hplaced.apart hlawful (cut_of_tokenize h hlexemes) hlexemes htabs htokens
      (hkinds b (by simp [hbefore])) hline

theorem tokenize_detokenize_escaped :
    let source := "\"\\t\"x y"
    let tokens := [⟨.string, "\t", ⟨0, 0, 4⟩⟩, ⟨.identifier, "x", ⟨0, 4, 5⟩⟩, ⟨.identifier, "y", ⟨0, 6, 7⟩⟩,
      ⟨.eof, "", ⟨0, 7, 7⟩⟩]
    tokenize source = .ok tokens ∧
      ((∃ again, tokenize (detokenize tokens) = .ok again ∧
        again.map Token.lexeme = tokens.map Token.lexeme) ↔ Layout.Apart tokens) ∧
      ((∀ passed rest, source.toList = passed ++ '\t' :: rest →
        ∀ token ∈ tokens, ¬ token.span.Covers (.behind passed)) → Layout.Apart tokens) := by
  have htokens : tokenize "\"\\t\"x y" = .ok [⟨.string, "\t", ⟨0, 0, 4⟩⟩, ⟨.identifier, "x", ⟨0, 4, 5⟩⟩,
      ⟨.identifier, "y", ⟨0, 6, 7⟩⟩, ⟨.eof, "", ⟨0, 7, 7⟩⟩] := by
    cbv
  exact ⟨htokens, tokenize_detokenize htokens⟩

/-- Behind a tab in a string literal two names lose the space between them. -/
theorem detokenize_joins_names :
    let tokens := [⟨.string, "\t", ⟨0, 0, 3⟩⟩, ⟨.identifier, "x", ⟨0, 3, 4⟩⟩, ⟨.identifier, "y", ⟨0, 5, 6⟩⟩,
      ⟨.eof, "", ⟨0, 6, 6⟩⟩]
    tokenize "\"\t\"x y" = .ok tokens ∧ detokenize tokens = "\"\\t\"xy" ∧
      ¬ ∃ again, tokenize (detokenize tokens) = .ok again ∧
        again.map Token.lexeme = tokens.map Token.lexeme := by
  have htext : detokenize [⟨.string, "\t", ⟨0, 0, 3⟩⟩, ⟨.identifier, "x", ⟨0, 3, 4⟩⟩,
      ⟨.identifier, "y", ⟨0, 5, 6⟩⟩, ⟨.eof, "", ⟨0, 6, 6⟩⟩] = "\"\\t\"xy" := by
    cbv
  have hjoined : tokenize "\"\\t\"xy" = .ok [⟨.string, "\t", ⟨0, 0, 4⟩⟩, ⟨.identifier, "xy", ⟨0, 4, 6⟩⟩,
      ⟨.eof, "", ⟨0, 6, 6⟩⟩] := by
    cbv
  refine ⟨by cbv, htext, ?_⟩
  rintro ⟨again, hagain, hlexemes⟩
  rw [htext, hjoined] at hagain
  cases hagain
  revert hlexemes
  decide

end MonkeyLang
