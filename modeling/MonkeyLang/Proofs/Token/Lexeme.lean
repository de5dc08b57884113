import MonkeyLang.Token.Stream

namespace MonkeyLang

structure Lexeme where
  kind : TokenKind
  literal : String
deriving DecidableEq, Repr

def Token.lexeme (token : Token) : Lexeme :=
  ⟨token.kind, token.literal⟩

@[simp] theorem Token.lexeme_kind (token : Token) : token.lexeme.kind = token.kind := rfl

@[simp] theorem Token.lexeme_literal (token : Token) : token.lexeme.literal = token.literal := rfl

theorem Token.eq_of_lexeme {a b : Token} (hlexeme : a.lexeme = b.lexeme) (hspan : a.span = b.span) :
    a = b := by
  cases a
  cases b
  cases hlexeme
  cases hspan
  rfl

def Lexeme.token (l : Lexeme) : Token :=
  ⟨l.kind, l.literal, default⟩

@[simp] theorem Lexeme.lexeme_token (l : Lexeme) : l.token.lexeme = l := rfl

theorem map_lexeme_token (ls : List Lexeme) : (ls.map Lexeme.token).map Token.lexeme = ls := by
  simp [Function.comp_def]

structure IsName (name : String) : Prop where
  nonempty : name.toList ≠ []
  letters : ∀ c ∈ name.toList, isLetter c = true
  word : TokenKind.ofWord name = .identifier

def Lexeme.Lawful : Lexeme → Prop
  | ⟨.identifier, literal⟩ => IsName literal
  | ⟨.integer, literal⟩ => literal.toList ≠ [] ∧ ∀ c ∈ literal.toList, c.isDigit = true
  | ⟨.eof, _⟩ | ⟨.string, _⟩ => True
  | ⟨kind, literal⟩ => kind.spelling? = some literal

theorem lawful_of_spelling {kind : TokenKind} {literal : String} (h : kind.spelling? = some literal) :
    Lexeme.Lawful ⟨kind, literal⟩ := by
  cases kind <;> first | exact h | cases h

theorem spelling?_ofWord (word : String) :
    TokenKind.ofWord word = .identifier ∨ (TokenKind.ofWord word).spelling? = some word := by
  unfold TokenKind.ofWord
  split
  case h_8 => exact .inl rfl
  all_goals exact .inr rfl

theorem spelling?_ofMark? {c : Char} {kind : TokenKind} (h : TokenKind.ofMark? c = some kind) :
    kind.spelling? = some (String.ofList [c]) := by
  unfold TokenKind.ofMark? at h
  split at h
  all_goals
    cases h
    try rfl

theorem spelling?_ofGrowingMark? {c : Char} {alone grown : TokenKind}
    (h : TokenKind.ofGrowingMark? c = some (alone, grown)) :
    alone.spelling? = some (String.ofList [c]) ∧ grown.spelling? = some (String.ofList [c, '=']) := by
  unfold TokenKind.ofGrowingMark? at h
  split at h
  all_goals
    cases h
    try exact ⟨rfl, rfl⟩

theorem lawful_word {word : String} (hword : word.toList ≠ [])
    (hletters : ∀ c ∈ word.toList, isLetter c = true) :
    Lexeme.Lawful ⟨TokenKind.ofWord word, word⟩ := by
  rcases spelling?_ofWord word with h | h
  · rw [h]
    exact ⟨hword, hletters, h⟩
  · exact lawful_of_spelling h

namespace Cursor

theorem tokenTo_ok {start stop : Cursor} {kind : TokenKind} {literal : String} {token : Token}
    (h : tokenTo start stop kind literal = .ok token) : token.lexeme = ⟨kind, literal⟩ := by
  unfold tokenTo Span.within at h
  split at h
  · cases h
    rfl
  · cases h

theorem lawful_readRun {cursor : Cursor} {c : Char} {rest : List Char} {p : Char → Bool}
    {kind : String → TokenKind} (hrest : cursor.rest = c :: rest) (hc : p c = true)
    (hkind : ∀ word : String, word.toList ≠ [] → (∀ c ∈ word.toList, p c = true) →
      Lexeme.Lawful ⟨kind word, word⟩)
    {token : Token} (h : (cursor.readRun p kind).1 = .ok token) : token.lexeme.Lawful := by
  rw [tokenTo_ok h]
  apply hkind
  · rw [String.toList_ofList, hrest, List.takeWhile_cons_of_pos hc]
    exact List.cons_ne_nil _ _
  · rw [String.toList_ofList]
    exact fun c mem => List.all_eq_true.mp List.all_takeWhile c mem

theorem lawful_read {cursor : Cursor} {token : Token} (h : cursor.read.1 = .ok token) :
    token.lexeme.Lawful := by
  revert h
  fun_cases read cursor with
  | case1 hr =>
    intro h
    rw [tokenTo_ok h]
    trivial
  | case2 c alone grown rest hmark hr =>
    intro h
    rw [tokenTo_ok h]
    exact lawful_of_spelling (spelling?_ofGrowingMark? hmark).2
  | case3 c rest alone grown hne hmark hr =>
    intro h
    rw [tokenTo_ok h]
    exact lawful_of_spelling (spelling?_ofGrowingMark? hmark).1
  | case4 c rest hnone kind hmark hr =>
    intro h
    rw [tokenTo_ok h]
    exact lawful_of_spelling (spelling?_ofMark? hmark)
  | case5 =>
    intro h
    simp only [readString] at h
    split at h
    · rw [tokenTo_ok h]
      trivial
    · cases h
  | case6 c rest _ _ _ hc hr => exact lawful_readRun hr hc fun _ => lawful_word
  | case7 c rest _ _ _ _ hc hr => exact lawful_readRun hr hc fun _ => And.intro
  | case8 => rintro ⟨⟩

end Cursor

namespace TokenStream

theorem lawful_ofCursor (cursor : Cursor) :
    ∀ token ∈ (ofCursor cursor).tokens, token.lexeme.Lawful := by
  fun_induction ofCursor cursor with
  | case1 => simp
  | case2 => simp
  | case3 cursor token after h hk _ ih =>
    intro other mem
    rcases List.mem_cons.mp mem with rfl | mem
    · exact Cursor.lawful_read (congrArg Prod.fst h)
    · exact ih other mem

end TokenStream

end MonkeyLang
