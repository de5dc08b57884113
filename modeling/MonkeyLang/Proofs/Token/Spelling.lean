import Mathlib
import MonkeyLang.Proofs.Token.Lexeme
import MonkeyLang.Proofs.Token.Literal

namespace MonkeyLang

def Lexes (text : List Char) (lexemes : List Lexeme) : Prop :=
  ∀ position, ∃ tokens eof, TokenStream.ofCursor ⟨text, position⟩ = ⟨tokens, .ok eof⟩ ∧
    tokens.map Token.lexeme = lexemes

theorem TokenStream.ofCursor_eq (cursor : Cursor) :
    ofCursor cursor =
      match cursor.next with
      | (.error error, _) => ⟨[], .error error⟩
      | (.ok token, after) =>
        if token.kind = .eof then ⟨[], .ok token⟩ else (ofCursor after).cons token := by
  rw [ofCursor]
  split
  next h => simp only [h]
  next h => simp only [h, dite_eq_ite]

namespace Cursor

theorem skipWhile_cons {p : Char → Bool} {c : Char} (hc : p c = true) (rest : List Char)
    (position : Position) :
    (Cursor.mk (c :: rest) position).skipWhile p = (Cursor.mk rest (position.after c)).skipWhile p := by
  simp only [skipWhile, skipTo, List.takeWhile_cons_of_pos hc, List.dropWhile_cons_of_pos hc,
    List.foldl_cons]

theorem next_cons {c : Char} (hc : Text.isBlank c = false) (rest : List Char) (position : Position) :
    (Cursor.mk (c :: rest) position).next = (Cursor.mk (c :: rest) position).read := by
  have hc' : ¬ Text.isBlank c = true := by simp [hc]
  simp only [next, skipWhile, skipTo, List.takeWhile_cons_of_neg hc', List.dropWhile_cons_of_neg hc',
    List.foldl_nil]

theorem line_after {text : List Char} (h : ∀ c ∈ text, c ≠ '\n') (position : Position) :
    (text.foldl Position.after position).line = position.line := by
  induction text generalizing position with
  | nil => rfl
  | cons c text ih =>
    obtain ⟨hc, htext⟩ := List.forall_mem_cons.mp h
    rw [List.foldl_cons, ih htext, Position.after, if_neg hc]

theorem tokenTo_of_line {start stop : Cursor} (h : start.position.line = stop.position.line)
    (kind : TokenKind) (literal : String) :
    ∃ token, tokenTo start stop kind literal = .ok token ∧ token.lexeme = ⟨kind, literal⟩ := by
  refine ⟨⟨kind, literal, ⟨start.position.line, start.position.column, stop.position.column⟩⟩, ?_, rfl⟩
  rw [tokenTo, Span.within, if_pos h]
  rfl

def Reads (text : List Char) (l : Lexeme) (rest : List Char) : Prop :=
  ∀ position, ∃ token after, read ⟨text, position⟩ = (.ok token, ⟨rest, after⟩) ∧ token.lexeme = l

theorem reads_of_readMark {kind : TokenKind} {mark text rest : List Char}
    (hmark : ∀ c ∈ mark, c ≠ '\n')
    (h : ∀ position, read ⟨text, position⟩ = readMark ⟨text, position⟩ kind mark rest) :
    Reads text ⟨kind, String.ofList mark⟩ rest := by
  intro position
  obtain ⟨token, htoken, hlexeme⟩ := tokenTo_of_line
    (show (Cursor.mk text position).position.line = (skipTo position mark rest).position.line from
      (line_after hmark position).symm) kind (String.ofList mark)
  refine ⟨token, mark.foldl Position.after position, ?_, hlexeme⟩
  rw [h, readMark, htoken]
  rfl

end Cursor

theorem Lexes.nil : Lexes [] [] := by
  intro position
  obtain ⟨token, htoken, hlexeme⟩ := Cursor.tokenTo_of_line
    (rfl : (Cursor.mk [] position).position.line = (Cursor.mk [] position).position.line) .eof ""
  have hnext : (Cursor.mk [] position).next = (.ok token, ⟨[], position⟩) := by
    rw [← htoken]
    rfl
  have hkind : token.kind = .eof := congrArg Lexeme.kind hlexeme
  refine ⟨[], token, ?_, rfl⟩
  rw [TokenStream.ofCursor_eq, hnext]
  exact if_pos hkind

theorem TokenStream.ofCursor_blank {c : Char} (hc : Text.isBlank c = true) (rest : List Char)
    (position : Position) : ofCursor ⟨c :: rest, position⟩ = ofCursor ⟨rest, position.after c⟩ := by
  rw [ofCursor_eq, ofCursor_eq, Cursor.next, Cursor.skipWhile_cons hc]
  rfl

theorem TokenStream.ofCursor_token {c : Char} (hc : Text.isBlank c = false) {text : List Char}
    {position : Position} {token : Token} {after : Cursor}
    (hread : Cursor.read ⟨c :: text, position⟩ = (.ok token, after)) (hkind : token.kind ≠ .eof) :
    ofCursor ⟨c :: text, position⟩ = (ofCursor after).cons token := by
  rw [ofCursor_eq, Cursor.next_cons hc, hread]
  exact if_neg hkind

theorem Lexes.blank {c : Char} (hc : Text.isBlank c = true) {rest : List Char} {ls : List Lexeme}
    (h : Lexes rest ls) : Lexes (c :: rest) ls := by
  intro position
  obtain ⟨tokens, eof, hstream, htokens⟩ := h (position.after c)
  exact ⟨tokens, eof, (TokenStream.ofCursor_blank hc rest position).trans hstream, htokens⟩

theorem Lexes.token {c : Char} {text rest : List Char} {l : Lexeme} {ls : List Lexeme}
    (hc : Text.isBlank c = false) (hl : l.kind ≠ .eof) (hread : Cursor.Reads (c :: text) l rest)
    (h : Lexes rest ls) : Lexes (c :: text) (l :: ls) := by
  intro position
  obtain ⟨token, after, hfirst, rfl⟩ := hread position
  obtain ⟨tokens, eof, hstream, rfl⟩ := h after
  refine ⟨token :: tokens, eof, ?_, rfl⟩
  rw [TokenStream.ofCursor_token hc hfirst hl, hstream]
  rfl

theorem ofMark?_char {c : Char} {kind : TokenKind} (h : TokenKind.ofMark? c = some kind) :
    Text.isBlank c = false ∧ c ≠ '\n' ∧ TokenKind.ofGrowingMark? c = none ∧ kind ≠ .eof := by
  unfold TokenKind.ofMark? at h
  split at h
  case h_14 => cases h
  all_goals
    cases h
    decide

theorem ofGrowingMark?_char {c : Char} {alone grown : TokenKind}
    (h : TokenKind.ofGrowingMark? c = some (alone, grown)) :
    Text.isBlank c = false ∧ c ≠ '\n' ∧ alone ≠ .eof ∧ grown ≠ .eof := by
  unfold TokenKind.ofGrowingMark? at h
  split at h
  case h_5 => cases h
  all_goals
    cases h
    decide

theorem Cursor.reads_mark {c : Char} {kind : TokenKind} (hmark : TokenKind.ofMark? c = some kind)
    (rest : List Char) : Reads (c :: rest) ⟨kind, String.ofList [c]⟩ rest := by
  obtain ⟨-, hnewline, hgrow, -⟩ := ofMark?_char hmark
  refine reads_of_readMark (by simpa using hnewline) fun position => ?_
  simp only [read, hgrow, hmark]

theorem Cursor.reads_alone {c : Char} {alone grown : TokenKind}
    (hmark : TokenKind.ofGrowingMark? c = some (alone, grown)) {rest : List Char}
    (hrest : ∀ d ∈ rest.head?, d ≠ '=') : Reads (c :: rest) ⟨alone, String.ofList [c]⟩ rest := by
  obtain ⟨-, hnewline, -, -⟩ := ofGrowingMark?_char hmark
  refine reads_of_readMark (by simpa using hnewline) fun position => ?_
  rcases rest with _ | ⟨d, rest⟩
  · simp only [read, hmark]
  · have hd : d ≠ '=' := hrest d rfl
    simp only [read, hmark]
    split
    next heq =>
      cases heq
      exact absurd rfl hd
    next heq _ =>
      cases heq
      rfl
    next heq => cases heq

theorem Cursor.reads_grown {c : Char} {alone grown : TokenKind}
    (hmark : TokenKind.ofGrowingMark? c = some (alone, grown)) (rest : List Char) :
    Reads (c :: '=' :: rest) ⟨grown, String.ofList [c, '=']⟩ rest := by
  obtain ⟨-, hnewline, -, -⟩ := ofGrowingMark?_char hmark
  refine reads_of_readMark (by simpa using hnewline) fun position => ?_
  simp only [read, hmark]

theorem Lexes.mark {c : Char} {kind : TokenKind} (hmark : TokenKind.ofMark? c = some kind)
    {rest : List Char} {ls : List Lexeme} (h : Lexes rest ls) :
    Lexes (c :: rest) (⟨kind, String.ofList [c]⟩ :: ls) :=
  have ⟨hblank, _, _, hkind⟩ := ofMark?_char hmark
  h.token hblank hkind (Cursor.reads_mark hmark rest)

theorem Lexes.alone {c : Char} {alone grown : TokenKind}
    (hmark : TokenKind.ofGrowingMark? c = some (alone, grown)) {rest : List Char} {ls : List Lexeme}
    (hrest : ∀ d ∈ rest.head?, d ≠ '=') (h : Lexes rest ls) :
    Lexes (c :: rest) (⟨alone, String.ofList [c]⟩ :: ls) :=
  have ⟨hblank, _, hkind, _⟩ := ofGrowingMark?_char hmark
  h.token hblank hkind (Cursor.reads_alone hmark hrest)

theorem Lexes.grown {c : Char} {alone grown : TokenKind}
    (hmark : TokenKind.ofGrowingMark? c = some (alone, grown)) {rest : List Char} {ls : List Lexeme}
    (h : Lexes rest ls) : Lexes (c :: '=' :: rest) (⟨grown, String.ofList [c, '=']⟩ :: ls) :=
  have ⟨hblank, _, _, hkind⟩ := ofGrowingMark?_char hmark
  h.token hblank hkind (Cursor.reads_grown hmark rest)

def isFence (c : Char) : Bool :=
  !isLetter c && !c.isDigit && c != '='

def Fenced (text : List Char) : Prop :=
  ∀ c ∈ text.head?, isFence c = true

theorem fenced_nil : Fenced [] := by
  rintro _ ⟨⟩

theorem fenced_cons {c : Char} (h : isFence c = true) (text : List Char) : Fenced (c :: text) := by
  rintro _ ⟨⟩
  exact h

theorem isFence_iff {c : Char} :
    isFence c = true ↔ isLetter c = false ∧ c.isDigit = false ∧ c ≠ '=' := by
  simp [isFence, and_assoc]

theorem Fenced.ne_equals {text : List Char} (h : Fenced text) : ∀ c ∈ text.head?, c ≠ '=' :=
  fun c mem => (isFence_iff.mp (h c mem)).2.2

theorem takeWhile_append_of_head {p : Char → Bool} {run rest : List Char}
    (hrun : ∀ c ∈ run, p c = true) (hrest : ∀ c ∈ rest.head?, p c = false) :
    (run ++ rest).takeWhile p = run ∧ (run ++ rest).dropWhile p = rest := by
  rw [List.takeWhile_append_of_pos hrun, List.dropWhile_append_of_pos hrun]
  rcases rest with _ | ⟨c, rest⟩
  · simp
  · have hc : ¬ p c = true := by simp [hrest c rfl]
    rw [List.takeWhile_cons_of_neg hc, List.dropWhile_cons_of_neg hc, List.append_nil]
    exact ⟨rfl, rfl⟩

theorem Cursor.reads_of_readRun {p : Char → Bool} {kind : String → TokenKind} {run rest : List Char}
    (hrun : ∀ c ∈ run, p c = true) (hnewline : ∀ c ∈ run, c ≠ '\n')
    (hrest : ∀ c ∈ rest.head?, p c = false)
    (h : ∀ position, read ⟨run ++ rest, position⟩ = readRun ⟨run ++ rest, position⟩ p kind) :
    Reads (run ++ rest) ⟨kind (String.ofList run), String.ofList run⟩ rest := by
  intro position
  obtain ⟨htake, hdrop⟩ := takeWhile_append_of_head hrun hrest
  have hstop : (Cursor.mk (run ++ rest) position).skipWhile p = skipTo position run rest := by
    simp only [skipWhile, htake, hdrop]
  obtain ⟨token, htoken, hlexeme⟩ := tokenTo_of_line
    (show (Cursor.mk (run ++ rest) position).position.line = (skipTo position run rest).position.line
      from (line_after hnewline position).symm) (kind (String.ofList run)) (String.ofList run)
  refine ⟨token, run.foldl Position.after position, ?_, hlexeme⟩
  rw [h]
  simp only [readRun, hstop, htake, htoken]
  rfl

theorem isLetter_range {c : Char} (h : isLetter c = true) :
    c.toNat = 95 ∨ 65 ≤ c.toNat ∧ c.toNat ≤ 90 ∨ 97 ≤ c.toNat ∧ c.toNat ≤ 122 := by
  simp only [isLetter, Char.isAlpha, Char.isUpper, Char.isLower, Bool.or_eq_true, beq_iff_eq,
    Bool.and_eq_true, decide_eq_true_eq] at h
  rcases h with rfl | ⟨h, h'⟩ | ⟨h, h'⟩
  · exact .inl rfl
  · exact .inr (.inl ⟨h, h'⟩)
  · exact .inr (.inr ⟨h, h'⟩)

theorem isDigit_range {c : Char} (h : c.isDigit = true) : 48 ≤ c.toNat ∧ c.toNat ≤ 57 := by
  simp only [Char.isDigit, Bool.and_eq_true, decide_eq_true_eq] at h
  exact h

structure Unmarked (c : Char) : Prop where
  blank : Text.isBlank c = false
  newline : c ≠ '\n'
  grow : TokenKind.ofGrowingMark? c = none
  mark : TokenKind.ofMark? c = none
  quote : c ≠ '"'

theorem unmarked_of_range {c : Char} (h : 48 ≤ c.toNat ∧ c.toNat ≤ 57 ∨ c.toNat = 95 ∨
    65 ≤ c.toNat ∧ c.toNat ≤ 90 ∨ 97 ≤ c.toNat ∧ c.toNat ≤ 122) : Unmarked c where
  blank := by
    simp only [Text.isBlank, Bool.or_eq_false_iff, Bool.and_eq_false_iff, decide_eq_false_iff_not,
      beq_eq_false_iff_ne]
    omega
  newline := by
    rintro rfl
    exact absurd h (by decide)
  grow := by
    unfold TokenKind.ofGrowingMark?
    split
    case h_5 => rfl
    all_goals exact absurd h (by decide)
  mark := by
    unfold TokenKind.ofMark?
    split
    case h_14 => rfl
    all_goals exact absurd h (by decide)
  quote := by
    rintro rfl
    exact absurd h (by decide)

theorem unmarked_of_isLetter {c : Char} (h : isLetter c = true) : Unmarked c :=
  unmarked_of_range (.inr (isLetter_range h))

theorem unmarked_of_isDigit {c : Char} (h : c.isDigit = true) : Unmarked c :=
  unmarked_of_range (.inl (isDigit_range h))

theorem isLetter_of_isDigit {c : Char} (h : c.isDigit = true) : isLetter c = false := by
  have hrange := isDigit_range h
  cases hletter : isLetter c with
  | false => rfl
  | true =>
    have := isLetter_range hletter
    omega

theorem Cursor.reads_word {word : String} (hne : word.toList ≠ [])
    (hletters : ∀ c ∈ word.toList, isLetter c = true) {rest : List Char}
    (hrest : ∀ c ∈ rest.head?, isLetter c = false) :
    Reads (word.toList ++ rest) ⟨TokenKind.ofWord word, word⟩ rest := by
  have hnewline : ∀ c ∈ word.toList, c ≠ '\n' := fun c mem => (unmarked_of_isLetter (hletters c mem)).newline
  have hreads := @reads_of_readRun isLetter TokenKind.ofWord _ _ hletters hnewline hrest
  rw [String.ofList_toList] at hreads
  refine hreads fun position => ?_
  obtain ⟨c, run, hword⟩ := List.exists_cons_of_ne_nil hne
  have hc := hletters c (by simp [hword])
  have hunmarked := unmarked_of_isLetter hc
  rw [hword, List.cons_append, read]
  simp only [hunmarked.grow, hunmarked.mark, if_neg hunmarked.quote, hc, if_true]

theorem Cursor.reads_digits {run : List Char} (hne : run ≠ []) (hdigits : ∀ c ∈ run, c.isDigit = true)
    {rest : List Char} (hrest : ∀ c ∈ rest.head?, c.isDigit = false) :
    Reads (run ++ rest) ⟨.integer, String.ofList run⟩ rest := by
  have hnewline : ∀ c ∈ run, c ≠ '\n' := fun c mem => (unmarked_of_isDigit (hdigits c mem)).newline
  refine @reads_of_readRun Char.isDigit (fun _ => .integer) _ _ hdigits hnewline hrest fun position => ?_
  obtain ⟨c, run, rfl⟩ := List.exists_cons_of_ne_nil hne
  have hc := hdigits c (by simp)
  have hunmarked := unmarked_of_isDigit hc
  rw [List.cons_append, read]
  simp only [hunmarked.grow, hunmarked.mark, if_neg hunmarked.quote, isLetter_of_isDigit hc, hc,
    if_true, Bool.false_eq_true, if_false]

theorem Lexes.word {word : String} (hne : word.toList ≠ [])
    (hletters : ∀ c ∈ word.toList, isLetter c = true) (hkind : TokenKind.ofWord word ≠ .eof)
    {rest : List Char} {ls : List Lexeme} (hrest : Fenced rest) (h : Lexes rest ls) :
    Lexes (word.toList ++ rest) (⟨TokenKind.ofWord word, word⟩ :: ls) := by
  have hreads := Cursor.reads_word hne hletters fun c mem => (isFence_iff.mp (hrest c mem)).1
  obtain ⟨c, run, hword⟩ := List.exists_cons_of_ne_nil hne
  rw [hword] at hletters hreads ⊢
  exact h.token (unmarked_of_isLetter (hletters c (by simp))).blank hkind hreads

theorem Lexes.digits {run : List Char} (hne : run ≠ []) (hdigits : ∀ c ∈ run, c.isDigit = true)
    {rest : List Char} {ls : List Lexeme} (hrest : Fenced rest) (h : Lexes rest ls) :
    Lexes (run ++ rest) (⟨.integer, String.ofList run⟩ :: ls) := by
  have hreads := Cursor.reads_digits hne hdigits fun c mem => (isFence_iff.mp (hrest c mem)).2.1
  obtain ⟨c, run, rfl⟩ := List.exists_cons_of_ne_nil hne
  exact h.token (unmarked_of_isDigit (hdigits c (by simp))).blank
    (show TokenKind.integer ≠ .eof by decide) hreads

theorem ne_newline_of_mem_escapeChars {text : List Char} : ∀ c ∈ Text.escapeChars text, c ≠ '\n' := by
  intro c mem
  obtain ⟨d, -, hd⟩ := List.mem_flatMap.mp mem
  unfold Text.escapeChar Text.escapeLetter? at hd
  split at hd
  next hsome =>
    split at hsome <;> cases hsome <;> rcases List.mem_cons.mp hd with rfl | hd <;>
      simp_all
  next hnone =>
    obtain rfl := List.mem_singleton.mp hd
    rintro rfl
    simp at hnone

theorem Cursor.reads_literal {inner rest text : List Char} (h : Literal inner rest text)
    (hline : '\n' ∉ inner) : Reads ('"' :: (inner ++ rest)) ⟨.string, String.ofList text⟩ rest := by
  intro position
  have hnewline : ∀ c ∈ '"' :: inner, c ≠ '\n' := by
    rintro c mem rfl
    rcases List.mem_cons.mp mem with hquote | mem
    · cases hquote
    · exact hline mem
  obtain ⟨token, htoken, hlexeme⟩ := tokenTo_of_line
    (show (Cursor.mk ('"' :: (inner ++ rest)) position).position.line =
        (skipTo position ('"' :: inner) rest).position.line from
      (line_after hnewline position).symm) .string (String.ofList text)
  refine ⟨token, inner.foldl Position.after (position.after '"'), ?_, hlexeme⟩
  rw [← htoken]
  simp only [read, TokenKind.ofGrowingMark?, TokenKind.ofMark?, if_true, readString, advance,
    readText_literal h]
  rfl

theorem toList_literal (text : String) :
    (Text.literal text).toList = '"' :: (Text.escapeChars text.toList ++ ['"']) := by
  simp [Text.literal, Text.escape]

theorem newline_notMem_escaped (text : List Char) : '\n' ∉ Text.escapeChars text ++ ['"'] := by
  intro mem
  rcases List.mem_append.mp mem with mem | mem
  · exact ne_newline_of_mem_escapeChars _ mem rfl
  · simp at mem

theorem Lexes.literal (text : String) {rest : List Char} {ls : List Lexeme} (h : Lexes rest ls) :
    Lexes ((Text.literal text).toList ++ rest) (⟨.string, text⟩ :: ls) := by
  have hreads := Cursor.reads_literal (.closed rest (decodes_escapeChars text.toList))
    (newline_notMem_escaped text.toList)
  rw [String.ofList_toList] at hreads
  rw [toList_literal]
  exact h.token (by decide) (show TokenKind.string ≠ .eof by decide) hreads

end MonkeyLang
