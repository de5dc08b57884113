import MonkeyLang.Proofs.Ast.Blame
import MonkeyLang.Proofs.Ast.RoundTrip
import MonkeyLang.Proofs.Token.Layout

namespace MonkeyLang
open Grammar

theorem exists_lexes {l : Lexeme} (hl : l.Lawful) (hkind : l.kind ≠ .eof) {rest : List Char}
    {ls : List Lexeme} (hrest : Fenced rest) (h : Lexes rest ls) : ∃ text, Lexes text (l :: ls) := by
  have hlexical := @Token.lexical ⟨l.kind, l.literal, default⟩ hl hkind rest
  have hreads := hlexical.reads fun c mem => TokenKind.absorbs_of_isFence (hrest c mem) _
  obtain ⟨⟨c, tail, htext, hblank⟩, -⟩ := hlexical.shape.first
  rw [htext, List.cons_append] at hreads
  exact ⟨_, h.token hblank hkind hreads⟩

theorem exists_lexes_all {ls : List Lexeme} (h : ∀ l ∈ ls, l.Lawful ∧ l.kind ≠ .eof) :
    ∃ text, Lexes text ls := by
  induction ls with
  | nil => exact ⟨[], .nil⟩
  | cons l ls ih =>
    obtain ⟨⟨hl, hkind⟩, hls⟩ := List.forall_mem_cons.mp h
    obtain ⟨text, htext⟩ := ih hls
    have hspace : isFence ' ' = true ∧ Text.isBlank ' ' = true := by decide
    exact exists_lexes hl hkind (fenced_cons hspace.1 text) (.blank hspace.2 htext)

theorem Lexeme.lawful_sample {kind : TokenKind} (h : kind ≠ .eof) :
    (sample kind).Lawful ∧ (sample kind).kind ≠ .eof := by
  refine ⟨?_, h⟩
  cases kind with
  | eof => exact absurd rfl h
  | identifier => exact ⟨by decide, List.all_eq_true.mp (by decide), by decide⟩
  | integer => exact ⟨by decide, List.all_eq_true.mp (by decide)⟩
  | string => trivial
  | _ => rfl

theorem Expectation.lawful_sample {expected : Expectation} (h : expected ≠ .token .eof) :
    expected.sample.Lawful ∧ expected.sample.kind ≠ .eof := by
  cases expected with
  | token kind => exact Lexeme.lawful_sample fun hkind => h (congrArg Expectation.token hkind)
  | expression => exact Lexeme.lawful_sample (by decide)
  | smallInteger => exact Lexeme.lawful_sample (by decide)

/-- Some source has these tokens, the end of input included, and is read as a program. -/
def Accepted (ls : List Lexeme) : Prop :=
  ∃ source tokens depth program, tokenize source = .ok tokens ∧
    parseWithin depth source = .ok program ∧ tokens.map Token.lexeme = ls

theorem accepted_of_forms {ls : List Lexeme} (h : Parser.Forms .body ls)
    (hls : ∀ l ∈ ls, l.Lawful ∧ l.kind ≠ .eof) : ∃ last, last.kind = .eof ∧ Accepted (ls ++ [last]) := by
  obtain ⟨text, htext⟩ := exists_lexes_all hls
  rw [← String.toList_ofList (l := text)] at htext
  obtain ⟨b, hd⟩ := h
  obtain ⟨program, hparse, -⟩ := parseWithin_of_lexes htext hd (Nat.lt_succ_self _)
  obtain ⟨tokens, eof, hstream, rfl⟩ := htext ⟨0, 0, 0⟩
  have hends := TokenStream.wellEnded_ofSource (String.ofList text)
  refine ⟨eof.lexeme, hends.ending eof (congrArg TokenStream.ending hstream), String.ofList text, _, _, _,
    tokenize_ok.mpr ⟨tokens, eof, hstream, rfl⟩, hparse, by simp⟩

theorem forms_of_accepted {ls : List Lexeme} (h : Accepted ls) :
    ∃ body last, ls = body ++ [last] ∧ last.kind = .eof ∧ Parser.Forms .body body := by
  obtain ⟨source, tokens, depth, program, htokens, hparse, rfl⟩ := h
  obtain ⟨body, last, hlexemes, hlast, hd⟩ := program_of_parseWithin htokens hparse
  exact ⟨body, last, hlexemes, hlast, _, hd⟩

def Expectation.Admits : Expectation → Lexeme → Prop
  | token kind, l => l.kind = kind
  | expression, l => beginsExpression l.kind = true
  | smallInteger, l => l.kind = .integer ∧ l.literal.length ≤ maxDigits ∧
    Nat.ofDigitChars 10 l.literal.toList 0 ≤ maxInteger

theorem Expectation.admits_sample (expected : Expectation) : expected.Admits expected.sample := by
  cases expected with
  | token => rfl
  | expression => rfl
  | smallInteger => exact ⟨rfl, by decide, by decide⟩

/-- A parse error names the first token with which the tokens in front of it begin no program. With
what was expected there they begin one. -/
theorem parseWithin_unexpected {source : String} {tokens : List Token} {depth : Nat}
    {expected : Expectation} {found : Token} (htokens : tokenize source = .ok tokens)
    (h : parseWithin depth source = .error (.unexpected expected found)) :
    ∃ passed rest, tokens = passed ++ found :: rest ∧
      (∃ more, Accepted (passed.map Token.lexeme ++ more)) ∧
      (∀ more, ¬ Accepted ((passed ++ [found]).map Token.lexeme ++ more)) ∧
      ∃ l more, expected.Admits l ∧ Accepted (passed.map Token.lexeme ++ l :: more) := by
  obtain ⟨body, eof, hstream, rfl⟩ := tokenize_ok.mp htokens
  have hends := TokenStream.wellEnded_ofSource source
  have hlawful := TokenStream.lawful_ofCursor (.ofSource source)
  rw [show TokenStream.ofCursor (.ofSource source) = _ from hstream] at hlawful
  rw [hstream] at hends
  rw [parseWithin, hstream] at h
  have heof := hends.ending eof rfl
  obtain ⟨front, rest, rfl, rfl, hviable, hrefuses⟩ := Parser.parseStream_blames heof hends.before h
  have hfront : ∀ l ∈ front.map Token.lexeme, l.Lawful ∧ l.kind ≠ .eof :=
    List.forall_mem_map.mpr fun token mem =>
      ⟨hlawful token (List.mem_append_left rest mem), hends.before token (List.mem_append_left rest mem)⟩
  have hgoes : ∃ l more, expected.Admits l ∧ Accepted (front.map Token.lexeme ++ l :: more) := by
    rcases hviable with ⟨rfl, hforms⟩ | ⟨hexpected, kinds, hkinds, hforms⟩
    · obtain ⟨last, hlast, haccepted⟩ := accepted_of_forms hforms hfront
      exact ⟨last, [], hlast, haccepted⟩
    · have hsamples : ∀ l ∈ expected.sample :: kinds.map .sample, l.Lawful ∧ l.kind ≠ .eof := by
        refine List.forall_mem_cons.mpr ⟨Expectation.lawful_sample hexpected, ?_⟩
        exact List.forall_mem_map.mpr fun kind mem => Lexeme.lawful_sample fun h => hkinds (h ▸ mem)
      rw [List.append_assoc] at hforms
      obtain ⟨last, -, haccepted⟩ := accepted_of_forms hforms (List.forall_mem_append.mpr ⟨hfront, hsamples⟩)
      exact ⟨expected.sample, kinds.map .sample ++ [last], expected.admits_sample,
        by simpa using haccepted⟩
  obtain ⟨l, more, hadmits, haccepted⟩ := hgoes
  refine ⟨front, (rest ++ [eof]).tail, ?_, ⟨_, haccepted⟩, ?_, l, more, hadmits, haccepted⟩
  · cases rest <;> simp
  -- Spans do not matter, so a program that begins like this may as well begin with the same tokens.
  intro more hmore
  obtain ⟨body, last, hls, hlast, hforms⟩ := forms_of_accepted hmore
  rw [List.map_append, List.map_singleton, List.append_assoc, List.singleton_append] at hls
  rcases List.eq_nil_or_concat more with rfl | ⟨more, _, rfl⟩
  · obtain ⟨rfl, hfound⟩ := List.append_inj' hls rfl
    obtain rfl := List.singleton_inj.mp hfound
    have hnil : rest = [] := by
      rcases rest with _ | ⟨token, rest⟩
      · rfl
      · exact absurd hlast (hends.before token (by simp))
    subst hnil
    exact hrefuses [] rfl (by simpa using hforms)
  · rw [List.concat_eq_append, ← List.cons_append, ← List.append_assoc] at hls
    obtain ⟨rfl, -⟩ := List.append_inj' hls rfl
    refine hrefuses (rest.headD eof :: more.map fun l => ⟨l.kind, l.literal, default⟩) rfl ?_
    simpa [Function.comp_def, Token.lexeme] using hforms

theorem parseWithin_unexpected_argument :
    tokenize "f(1 2)" = .ok [⟨.identifier, "f", ⟨0, 0, 1⟩⟩, ⟨.leftParen, "(", ⟨0, 1, 2⟩⟩,
      ⟨.integer, "1", ⟨0, 2, 3⟩⟩, ⟨.integer, "2", ⟨0, 4, 5⟩⟩, ⟨.rightParen, ")", ⟨0, 5, 6⟩⟩,
      ⟨.eof, "", ⟨0, 6, 6⟩⟩] ∧
    parseWithin 9 "f(1 2)" = .error (.unexpected (.token .rightParen) ⟨.integer, "2", ⟨0, 4, 5⟩⟩) ∧
    ∃ passed rest, [⟨.identifier, "f", ⟨0, 0, 1⟩⟩, ⟨.leftParen, "(", ⟨0, 1, 2⟩⟩,
        ⟨.integer, "1", ⟨0, 2, 3⟩⟩, ⟨.integer, "2", ⟨0, 4, 5⟩⟩, ⟨.rightParen, ")", ⟨0, 5, 6⟩⟩,
        ⟨.eof, "", ⟨0, 6, 6⟩⟩] = passed ++ (⟨.integer, "2", ⟨0, 4, 5⟩⟩ : Token) :: rest ∧
      (∃ more, Accepted (passed.map Token.lexeme ++ more)) ∧
      (∀ more, ¬ Accepted ((passed ++ [⟨.integer, "2", ⟨0, 4, 5⟩⟩]).map Token.lexeme ++ more)) ∧
      ∃ l more, (Expectation.token .rightParen).Admits l ∧
        Accepted (passed.map Token.lexeme ++ l :: more) := by
  have htokens : tokenize "f(1 2)" = .ok [⟨.identifier, "f", ⟨0, 0, 1⟩⟩, ⟨.leftParen, "(", ⟨0, 1, 2⟩⟩,
      ⟨.integer, "1", ⟨0, 2, 3⟩⟩, ⟨.integer, "2", ⟨0, 4, 5⟩⟩, ⟨.rightParen, ")", ⟨0, 5, 6⟩⟩,
      ⟨.eof, "", ⟨0, 6, 6⟩⟩] := by
    cbv
  have hparse : parseWithin 9 "f(1 2)" =
      .error (.unexpected (.token .rightParen) ⟨.integer, "2", ⟨0, 4, 5⟩⟩) := by
    cbv
  exact ⟨htokens, hparse, parseWithin_unexpected htokens hparse⟩

end MonkeyLang
