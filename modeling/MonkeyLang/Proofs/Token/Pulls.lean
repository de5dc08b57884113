import MonkeyLang.Proofs.Token.Spelling
import MonkeyLang.Proofs.Token.Stream

namespace MonkeyLang
namespace Cursor

theorem rest_of_read_eof {cursor : Cursor} {token : Token} (h : cursor.read.1 = .ok token)
    (hkind : token.kind = .eof) : cursor.rest = [] := by
  have hspelled {stop : Cursor} {kind : TokenKind} {literal spelling : String}
      (hspelling : kind.spelling? = some spelling)
      (h : cursor.tokenTo stop kind literal = .ok token) : cursor.rest = [] := by
    have hread : token.kind = kind := congrArg Lexeme.kind (tokenTo_ok h)
    rw [← hread, hkind] at hspelling
    cases hspelling
  revert h
  fun_cases read cursor with
  | case1 hr => exact fun _ => hr
  | case2 c alone grown rest hmark => exact hspelled (spelling?_ofGrowingMark? hmark).2
  | case3 c rest alone grown hne hmark => exact hspelled (spelling?_ofGrowingMark? hmark).1
  | case4 c rest hnone kind hmark => exact hspelled (spelling?_ofMark? hmark)
  | case5 =>
    intro h
    simp only [readString] at h
    split at h
    · cases hkind.symm.trans (congrArg Lexeme.kind (tokenTo_ok h))
    · cases h
  | case6 =>
    intro h
    rcases spelling?_ofWord (String.ofList (cursor.rest.takeWhile isLetter)) with hword | hword
    · have hread := hkind.symm.trans (congrArg Lexeme.kind (tokenTo_ok h))
      cases hread.trans hword
    · exact hspelled hword h
  | case7 =>
    intro h
    cases hkind.symm.trans (congrArg Lexeme.kind (tokenTo_ok h))
  | case8 => rintro ⟨⟩

theorem next_of_eof {cursor after : Cursor} {token : Token} (h : cursor.next = (.ok token, after))
    (hkind : token.kind = .eof) : after.next = (.ok token, after) := by
  rw [next] at h
  have hrest := rest_of_read_eof (congrArg Prod.fst h) hkind
  generalize cursor.skipWhile Text.isBlank = stop at h hrest
  obtain ⟨rest, position⟩ := stop
  obtain rfl : rest = [] := hrest
  obtain rfl : Cursor.mk [] position = after := congrArg Prod.snd h
  exact h

/-- Asked for one token after the other, the lexer gives the tokens, none of which is the end of input, and
then the last answer: the end of input, or an error. -/
inductive Gives : Cursor → List Token → Except LexError Token → Prop where
  | last {cursor after : Cursor} {answer : Except LexError Token} : cursor.next = (answer, after) →
      (∀ token, answer = .ok token → token.kind = .eof) → Gives cursor [] answer
  | token {cursor after : Cursor} {token : Token} {tokens : List Token} {answer : Except LexError Token} :
      cursor.next = (.ok token, after) → token.kind ≠ .eof → Gives after tokens answer →
      Gives cursor (token :: tokens) answer

theorem gives_ofCursor (cursor : Cursor) :
    cursor.Gives (TokenStream.ofCursor cursor).tokens (TokenStream.ofCursor cursor).ending := by
  fun_induction TokenStream.ofCursor cursor with
  | case1 cursor error after h => exact .last h (by simp)
  | case2 cursor token after h hkind => exact .last h (by rintro _ ⟨⟩; exact hkind)
  | case3 cursor token after h hkind _ ih => exact .token h hkind ih

theorem Gives.ofCursor_eq {cursor : Cursor} {tokens : List Token} {answer : Except LexError Token}
    (h : cursor.Gives tokens answer) : TokenStream.ofCursor cursor = ⟨tokens, answer⟩ := by
  induction h with
  | @last cursor after answer hnext hends =>
    rw [TokenStream.ofCursor_eq, hnext]
    cases answer with
    | error error => rfl
    | ok token => exact if_pos (hends token rfl)
  | token hnext hkind _ ih =>
    rw [TokenStream.ofCursor_eq, hnext]
    simp only [if_neg hkind, ih]
    rfl

end Cursor

theorem TokenStream.next_ofCursor (cursor : Cursor) :
    (ofCursor cursor).next =
      match cursor.next with
      | (.error error, _) => .error error
      | (.ok token, after) => .ok (token, ofCursor after) := by
  rw [ofCursor_eq]
  rcases hnext : cursor.next with ⟨error | token, after⟩
  · rfl
  · by_cases hkind : token.kind = .eof
    · have hafter : ofCursor after = ⟨[], .ok token⟩ := by
        rw [ofCursor_eq, Cursor.next_of_eof hnext hkind]
        exact if_pos hkind
      simp only [if_pos hkind, hafter]
      rfl
    · simp only [if_neg hkind]
      rfl

end MonkeyLang
