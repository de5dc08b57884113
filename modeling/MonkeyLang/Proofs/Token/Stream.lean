import MonkeyLang.Token.Stream

namespace MonkeyLang.TokenStream

structure WellEnded (stream : TokenStream) : Prop where
  before : ∀ token ∈ stream.tokens, token.kind ≠ .eof
  ending : ∀ eof, stream.ending = .ok eof → eof.kind = .eof

theorem wellEnded_ofCursor (cursor : Cursor) : (ofCursor cursor).WellEnded := by
  fun_induction ofCursor cursor with
  | case1 => exact ⟨by simp, by simp⟩
  | case2 cursor token after h hk => exact ⟨by simp, fun eof he => by simp_all⟩
  | case3 cursor token after h hk _ ih =>
    refine ⟨?_, ih.ending⟩
    intro other mem
    rcases List.mem_cons.mp mem with rfl | mem
    · exact hk
    · exact ih.before other mem

theorem wellEnded_ofSource (source : String) : (ofSource source).WellEnded :=
  wellEnded_ofCursor _

end MonkeyLang.TokenStream

namespace MonkeyLang

theorem tokenize_ok {source : String} {tokens : List Token} :
    tokenize source = .ok tokens ↔
      ∃ body eof, TokenStream.ofSource source = ⟨body, .ok eof⟩ ∧ tokens = body ++ [eof] := by
  unfold tokenize TokenStream.toList
  obtain ⟨body, ending⟩ := TokenStream.ofSource source
  cases ending with
  | error error => simp [Except.map]
  | ok eof =>
    simp only [Except.map, Except.ok.injEq, TokenStream.mk.injEq]
    constructor
    · rintro rfl
      exact ⟨body, eof, ⟨rfl, rfl⟩, rfl⟩
    · rintro ⟨_, _, ⟨rfl, rfl⟩, rfl⟩
      rfl

theorem ofSource_of_tokenize {source : String} {tokens : List Token} (h : tokenize source = .ok tokens) :
    ∃ body eof, tokens = body ++ [eof] ∧ TokenStream.ofSource source = ⟨body, .ok eof⟩ ∧
      eof.kind = .eof ∧ ∀ token ∈ body, token.kind ≠ .eof := by
  obtain ⟨body, eof, hstream, rfl⟩ := tokenize_ok.mp h
  have hends := TokenStream.wellEnded_ofSource source
  rw [hstream] at hends
  exact ⟨body, eof, rfl, hstream, hends.ending eof rfl, hends.before⟩

end MonkeyLang
