import MonkeyLang.Proofs.Token.Spelling

/-!
# Longest lexemes

What a lexeme is, apart from any way of reading it, and how a text is cut into lexemes: behind the
blanks, the longest one always comes first. The cut ends with the text or at the first place where it
cannot go on, with the error met there. Every text has a cut (`exists_cut`) and reading follows it
(`Cut.reads`), so the lexer computes the cut (`tokenize_cut`).
-/

namespace MonkeyLang

/-! ## Lexemes -/

def Letter (c : Char) : Prop :=
  'A' ≤ c ∧ c ≤ 'Z' ∨ 'a' ≤ c ∧ c ≤ 'z' ∨ c = '_'

def Digit (c : Char) : Prop :=
  '0' ≤ c ∧ c ≤ '9'

theorem isLetter_iff {c : Char} : isLetter c = true ↔ Letter c := by
  simp only [isLetter, Char.isAlpha, Char.isUpper, Char.isLower, Bool.or_eq_true, beq_iff_eq,
    Bool.and_eq_true, decide_eq_true_eq, Letter]
  rw [or_comm, or_assoc]
  rfl

theorem isDigit_iff {c : Char} : c.isDigit = true ↔ Digit c := by
  simp only [Char.isDigit, Bool.and_eq_true, decide_eq_true_eq, Digit]
  rfl

/-- The characters in front of the rest are a lexeme: a keyword or mark in its spelling, a name, an
integer, or a string literal on one line. -/
inductive Lexical : List Char → List Char → Lexeme → Prop where
  | fixed {kind : TokenKind} {front : List Char} (rest : List Char) :
      kind.spelling? = some (String.ofList front) → Lexical front rest ⟨kind, String.ofList front⟩
  | name {front : List Char} (rest : List Char) :
      front ≠ [] → (∀ c ∈ front, Letter c) →
      (∀ kind, TokenKind.spelling? kind ≠ some (String.ofList front)) →
      Lexical front rest ⟨.identifier, String.ofList front⟩
  | integer {front : List Char} (rest : List Char) :
      front ≠ [] → (∀ c ∈ front, Digit c) → Lexical front rest ⟨.integer, String.ofList front⟩
  | string {inner rest text : List Char} :
      Literal inner rest text → '\n' ∉ inner → Lexical ('"' :: inner) rest ⟨.string, String.ofList text⟩

/-- The lexeme in front of the rest is the longest at its place. -/
structure Longest (front rest : List Char) (lexeme : Lexeme) : Prop where
  lexical : Lexical front rest lexeme
  maximal : ∀ front' rest' lexeme', front' ++ rest' = front ++ rest → Lexical front' rest' lexeme' →
    front'.length ≤ front.length

/-! ## Cuts -/

def Position.behind (passed : List Char) : Position :=
  ⟨passed.length, passed.count '\n', (passed.reverse.takeWhile (· ≠ '\n')).length⟩

def Span.behind (passed : List Char) : Span :=
  let ⟨_, line, column⟩ := Position.behind passed
  ⟨line, column, column + 1⟩

/-- The text behind the passed characters falls into blanks and the lexemes, up to its end or to the
error. -/
inductive Cut : List Char → List Char → List Lexeme → Option LexError → Prop where
  | stop (passed : List Char) : Cut passed [] [] none
  | blank {passed rest : List Char} {c : Char} {lexemes : List Lexeme} {ending : Option LexError} :
      Text.isBlank c = true → Cut (passed ++ [c]) rest lexemes ending →
      Cut passed (c :: rest) lexemes ending
  | lexeme {passed front rest : List Char} {lexeme : Lexeme} {lexemes : List Lexeme}
      {ending : Option LexError} :
      Longest front rest lexeme → Cut (passed ++ front) rest lexemes ending →
      Cut passed (front ++ rest) (lexeme :: lexemes) ending
  | unsupported (passed : List Char) {c : Char} {rest : List Char} :
      Text.isBlank c = false → c ≠ '"' →
      (∀ front back lexeme, front ++ back = c :: rest → ¬ Lexical front back lexeme) →
      Cut passed (c :: rest) [] (some (.unsupported c (.behind passed)))
  /-- All escapes in front of the backslash are valid, whatever lines they are on. -/
  | invalidEscape (passed : List Char) {body text : List Char} {e : Char} (rest : List Char) :
      Decodes body text → (∀ c, (e, c) ∉ escapes) →
      Cut passed ('"' :: body ++ '\\' :: e :: rest) []
        (some (.invalidEscape e (.behind (passed ++ '"' :: body ++ ['\\']))))
  | multiLine (passed : List Char) {inner rest text : List Char} :
      Literal inner rest text → '\n' ∈ inner →
      Cut passed ('"' :: inner ++ rest) []
        (some (.multiLine (Position.behind passed).line (Position.behind (passed ++ '"' :: inner)).line))

/-! ## Places -/

theorem Position.after_behind (passed : List Char) (c : Char) :
    (behind passed).after c = behind (passed ++ [c]) := by
  by_cases hc : c = '\n' <;> simp [behind, after, hc]

theorem Position.foldl_behind (passed text : List Char) :
    text.foldl Position.after (behind passed) = behind (passed ++ text) := by
  induction text generalizing passed with
  | nil => simp
  | cons c text ih =>
    rw [List.foldl_cons, after_behind, ih, List.append_assoc, List.singleton_append]

namespace Cursor

def Passes (cursor : Cursor) (passed : List Char) (stop : Cursor) : Prop :=
  cursor.rest = passed ++ stop.rest ∧ stop.position = passed.foldl Position.after cursor.position

theorem passes_skipWhile (cursor : Cursor) (p : Char → Bool) :
    cursor.Passes (cursor.rest.takeWhile p) (cursor.skipWhile p) :=
  ⟨List.takeWhile_append_dropWhile.symm, rfl⟩

theorem passes_readText (text : List Char) (position : Position) :
    ∃ passed, (Cursor.mk text position).Passes passed (readText text position).2 := by
  fun_induction readText text position with
  | case1 => exact ⟨[], rfl, rfl⟩
  | case2 => exact ⟨['"'], rfl, rfl⟩
  | case3 => exact ⟨['\\'], rfl, rfl⟩
  | case4 e rest position behind c he ih =>
    obtain ⟨passed, hrest, hposition⟩ := ih
    exact ⟨'\\' :: e :: passed, by simpa [consText] using hrest, hposition⟩
  | case5 => exact ⟨['\\'], rfl, rfl⟩
  | case6 c rest position hquote hlast hslash ih =>
    obtain ⟨passed, hrest, hposition⟩ := ih
    exact ⟨c :: passed, by simpa [consText] using hrest, hposition⟩

theorem passes_read (cursor : Cursor) : ∃ passed, cursor.Passes passed cursor.read.2 := by
  fun_cases read cursor with
  | case1 => exact ⟨[], rfl, rfl⟩
  | case2 c _ _ rest _ hrest => exact ⟨[c, '='], hrest, rfl⟩
  | case3 c rest _ _ _ _ hrest => exact ⟨[c], hrest, rfl⟩
  | case4 c rest _ _ _ hrest => exact ⟨[c], hrest, rfl⟩
  | case5 rest _ _ hrest =>
    obtain ⟨text, position⟩ := cursor
    subst hrest
    obtain ⟨passed, hpassed⟩ := passes_readText rest (position.after '"')
    refine ⟨'"' :: passed, ?_⟩
    simp only [readString, advance]
    split
    all_goals
      rename_i hread
      rw [hread] at hpassed
      exact ⟨congrArg _ hpassed.1, hpassed.2⟩
  | case6 => exact ⟨_, passes_skipWhile cursor _⟩
  | case7 => exact ⟨_, passes_skipWhile cursor _⟩
  | case8 => exact ⟨[], rfl, rfl⟩

end Cursor

/-! ## First characters -/

theorem eq_toList_of_ofList {word : String} {front : List Char} (h : word = String.ofList front) :
    front = word.toList := by
  rw [h, String.toList_ofList]

theorem spelling?_cases {kind : TokenKind} {front : List Char}
    (h : kind.spelling? = some (String.ofList front)) :
    (front ≠ [] ∧ (∀ c ∈ front, isLetter c = true) ∧ kind = .ofWord (String.ofList front)) ∨
    (∃ c, front = [c] ∧ TokenKind.ofMark? c = some kind) ∨
    ∃ c alone grown, TokenKind.ofGrowingMark? c = some (alone, grown) ∧
      (front = [c] ∧ kind = alone ∨ front = [c, '='] ∧ kind = grown) := by
  cases kind <;> simp only [TokenKind.spelling?, Option.some.injEq, reduceCtorEq] at h
  all_goals obtain rfl := eq_toList_of_ofList h
  case fnWord | letWord | trueWord | falseWord | ifWord | elseWord | returnWord =>
    exact .inl ⟨by decide, List.all_eq_true.mp (by decide), rfl⟩
  case assign | bang | lessThan | greaterThan =>
    exact .inr (.inr ⟨_, _, _, rfl, .inl ⟨rfl, rfl⟩⟩)
  case equal | notEqual | lessThanEqual | greaterThanEqual =>
    exact .inr (.inr ⟨_, _, _, rfl, .inr ⟨rfl, rfl⟩⟩)
  all_goals exact .inr (.inl ⟨_, rfl, rfl⟩)

inductive Shape : List Char → List Char → Lexeme → Prop where
  | word {front : List Char} (rest : List Char) : front ≠ [] → (∀ c ∈ front, isLetter c = true) →
      Shape front rest ⟨.ofWord (String.ofList front), String.ofList front⟩
  | digits {front : List Char} (rest : List Char) : front ≠ [] → (∀ c ∈ front, c.isDigit = true) →
      Shape front rest ⟨.integer, String.ofList front⟩
  | mark {c : Char} {kind : TokenKind} (rest : List Char) : TokenKind.ofMark? c = some kind →
      Shape [c] rest ⟨kind, String.ofList [c]⟩
  | alone {c : Char} {alone grown : TokenKind} (rest : List Char) :
      TokenKind.ofGrowingMark? c = some (alone, grown) → Shape [c] rest ⟨alone, String.ofList [c]⟩
  | grown {c : Char} {alone grown : TokenKind} (rest : List Char) :
      TokenKind.ofGrowingMark? c = some (alone, grown) →
      Shape [c, '='] rest ⟨grown, String.ofList [c, '=']⟩
  | literal {inner rest text : List Char} : Literal inner rest text → '\n' ∉ inner →
      Shape ('"' :: inner) rest ⟨.string, String.ofList text⟩

theorem ofWord_of_spelling? {kind : TokenKind} {word : String} (h : kind.spelling? = some word)
    (hletters : ∀ c ∈ word.toList, isLetter c = true) : TokenKind.ofWord word = kind := by
  cases kind <;> simp only [TokenKind.spelling?, Option.some.injEq, reduceCtorEq] at h <;> subst h
  case fnWord | letWord | trueWord | falseWord | ifWord | elseWord | returnWord => rfl
  all_goals exact absurd (List.all_eq_true.mpr hletters) (by decide)

theorem Lexical.shape {front rest : List Char} {l : Lexeme} (h : Lexical front rest l) :
    Shape front rest l := by
  cases h with
  | fixed rest hspelling =>
    rcases spelling?_cases hspelling with ⟨hne, hletters, rfl⟩ | ⟨c, rfl, hmark⟩ |
      ⟨c, alone, grown, hmark, ⟨rfl, rfl⟩ | ⟨rfl, rfl⟩⟩
    · exact .word rest hne hletters
    · exact .mark rest hmark
    · exact .alone rest hmark
    · exact .grown rest hmark
  | name rest hne hletters hname =>
    rw [← (spelling?_ofWord (String.ofList front)).resolve_right (hname _)]
    exact .word rest hne fun c mem => isLetter_iff.mpr (hletters c mem)
  | integer rest hne hdigits => exact .digits rest hne fun c mem => isDigit_iff.mpr (hdigits c mem)
  | string hliteral hline => exact .literal hliteral hline

theorem Shape.lexical {front rest : List Char} {l : Lexeme} (h : Shape front rest l) :
    Lexical front rest l := by
  cases h with
  | word rest hne hletters =>
    by_cases hname : ∃ kind, TokenKind.spelling? kind = some (String.ofList front)
    · obtain ⟨kind, hkind⟩ := hname
      rw [ofWord_of_spelling? hkind (by simpa using hletters)]
      exact .fixed rest hkind
    · have hnone : ∀ kind, TokenKind.spelling? kind ≠ some (String.ofList front) :=
        fun kind hkind => hname ⟨kind, hkind⟩
      rw [(spelling?_ofWord (String.ofList front)).resolve_right (hnone _)]
      exact .name rest hne (fun c mem => isLetter_iff.mp (hletters c mem)) hnone
  | digits rest hne hdigits => exact .integer rest hne fun c mem => isDigit_iff.mp (hdigits c mem)
  | mark rest hmark => exact .fixed rest (spelling?_ofMark? hmark)
  | alone rest hmark => exact .fixed rest (spelling?_ofGrowingMark? hmark).1
  | grown rest hmark => exact .fixed rest (spelling?_ofGrowingMark? hmark).2
  | literal hliteral hline => exact .string hliteral hline

/-! ## Longest lexemes exist and are read -/

theorem Shape.ne_nil {front rest : List Char} {l : Lexeme} (h : Shape front rest l) : front ≠ [] := by
  cases h with
  | word _ hne | digits _ hne => exact hne
  | _ => exact List.cons_ne_nil _ _

theorem Lexical.exists_longest {front rest : List Char} {l : Lexeme} (h : Lexical front rest l) :
    ∃ front' rest' l', front' ++ rest' = front ++ rest ∧ Longest front' rest' l' := by
  induction hn : rest.length using Nat.strongRecOn generalizing front rest l with
  | ind n ih =>
    subst hn
    by_cases hmaximal : ∀ front' rest' l', front' ++ rest' = front ++ rest → Lexical front' rest' l' →
        front'.length ≤ front.length
    · exact ⟨front, rest, l, rfl, h, hmaximal⟩
    · simp only [Classical.not_forall, Nat.not_le, exists_prop] at hmaximal
      obtain ⟨front', rest', l', happend, hlexical, hlonger⟩ := hmaximal
      have hlength := congrArg List.length happend
      simp only [List.length_append] at hlength
      obtain ⟨front'', rest'', l'', happend', hlongest⟩ := ih rest'.length (by omega) hlexical rfl
      exact ⟨front'', rest'', l'', happend'.trans happend, hlongest⟩

theorem Longest.stops {front rest : List Char} {l : Lexeme} (h : Longest front rest l) {p : Char → Bool}
    (hrun : ∀ d rest', p d = true → ∃ l', Lexical (front ++ [d]) rest' l') :
    ∀ d ∈ rest.head?, p d = false := by
  intro d mem
  obtain ⟨rest, rfl⟩ := List.head?_eq_some_iff.mp mem
  cases hd : p d with
  | false => rfl
  | true =>
    obtain ⟨l', hlexical⟩ := hrun d rest hd
    have := h.maximal _ _ _ (by simp) hlexical
    simp only [List.length_append, List.length_singleton] at this
    omega

def TokenKind.absorbs : TokenKind → Char → Bool
  | identifier, c | fnWord, c | letWord, c | trueWord, c | falseWord, c | ifWord, c | elseWord, c
  | returnWord, c => isLetter c
  | integer, c => c.isDigit
  | assign, c | bang, c | lessThan, c | greaterThan, c => c == '='
  | _, _ => false

namespace TokenKind

theorem absorbs_ofWord (word : String) (c : Char) : (ofWord word).absorbs c = isLetter c := by
  unfold ofWord
  split <;> rfl

theorem absorbs_of_mark {c : Char} {kind : TokenKind} (h : ofMark? c = some kind) (d : Char) :
    kind.absorbs d = false := by
  unfold ofMark? at h
  split at h
  case h_14 => cases h
  all_goals
    cases h
    rfl

theorem absorbs_of_growingMark {c : Char} {alone grown : TokenKind}
    (h : ofGrowingMark? c = some (alone, grown)) (d : Char) :
    alone.absorbs d = (d == '=') ∧ grown.absorbs d = false := by
  unfold ofGrowingMark? at h
  split at h
  case h_5 => cases h
  all_goals
    cases h
    exact ⟨rfl, rfl⟩

theorem absorbs_of_isFence {c : Char} (h : isFence c = true) (kind : TokenKind) :
    kind.absorbs c = false := by
  obtain ⟨hletter, hdigit, hequals⟩ := isFence_iff.mp h
  have hequals : (c == '=') = false := beq_eq_false_iff_ne.mpr hequals
  cases kind <;> first | rfl | assumption

end TokenKind

theorem Longest.absorbs {front rest : List Char} {l : Lexeme} (h : Longest front rest l) :
    ∀ c ∈ rest.head?, l.kind.absorbs c = false := by
  intro c mem
  cases h.lexical.shape with
  | word _ hne hletters =>
    rw [TokenKind.absorbs_ofWord]
    refine h.stops (fun d rest' hd => ⟨_, (Shape.word rest' (by simp) fun e mem => ?_).lexical⟩) c mem
    rcases List.mem_append.mp mem with mem | mem
    · exact hletters e mem
    · rwa [List.mem_singleton.mp mem]
  | digits _ hne hdigits =>
    refine h.stops (fun d rest' hd => ⟨_, (Shape.digits rest' (by simp) fun e mem => ?_).lexical⟩) c mem
    rcases List.mem_append.mp mem with mem | mem
    · exact hdigits e mem
    · rwa [List.mem_singleton.mp mem]
  | mark _ hmark => exact TokenKind.absorbs_of_mark hmark c
  | alone _ hmark =>
    rw [(TokenKind.absorbs_of_growingMark hmark c).1]
    refine @Longest.stops _ _ _ h (· == '=') (fun d rest' hd => ?_) c mem
    rw [eq_of_beq hd]
    exact ⟨_, (Shape.grown rest' hmark).lexical⟩
  | grown _ hmark => exact (TokenKind.absorbs_of_growingMark hmark c).2
  | literal => rfl

theorem Lexical.reads {front rest : List Char} {l : Lexeme} (h : Lexical front rest l)
    (hrest : ∀ c ∈ rest.head?, l.kind.absorbs c = false) : Cursor.Reads (front ++ rest) l rest := by
  cases h.shape with
  | word _ hne hletters =>
    have hreads := @Cursor.reads_word (String.ofList front) (by simpa using hne) (by simpa using hletters)
      rest fun c mem => (TokenKind.absorbs_ofWord _ c).symm.trans (hrest c mem)
    rwa [String.toList_ofList] at hreads
  | digits _ hne hdigits => exact Cursor.reads_digits hne hdigits hrest
  | mark _ hmark => exact Cursor.reads_mark hmark rest
  | alone _ hmark =>
    refine Cursor.reads_alone hmark fun c mem => ?_
    have hc := (TokenKind.absorbs_of_growingMark hmark c).1.symm.trans (hrest c mem)
    exact beq_eq_false_iff_ne.mp hc
  | grown _ hmark => exact Cursor.reads_grown hmark rest
  | literal hliteral hline => exact Cursor.reads_literal hliteral hline

theorem Longest.reads_append {front rest : List Char} {l : Lexeme} (h : Longest front rest l)
    {more : List Char} (hmore : Fenced more) (hlexical : Lexical front (rest ++ more) l) :
    Cursor.Reads (front ++ (rest ++ more)) l (rest ++ more) := by
  refine hlexical.reads fun c mem => ?_
  rcases rest with _ | ⟨d, rest⟩
  · exact TokenKind.absorbs_of_isFence (hmore c mem) l.kind
  · exact h.absorbs c mem

theorem Longest.reads {front rest : List Char} {l : Lexeme} (h : Longest front rest l) :
    Cursor.Reads (front ++ rest) l rest :=
  h.lexical.reads h.absorbs

/-- A lexeme is the longest one at its place just when no character behind it lengthens it. -/
theorem Lexical.longest_iff {front rest : List Char} {l : Lexeme} (h : Lexical front rest l) :
    Longest front rest l ↔ ∀ c ∈ rest.head?, l.kind.absorbs c = false := by
  refine ⟨Longest.absorbs, fun hrest => ?_⟩
  obtain ⟨front', rest', l', happend, hlongest⟩ := h.exists_longest
  obtain ⟨token, after, hread, rfl⟩ := h.reads hrest ⟨0, 0, 0⟩
  obtain ⟨token', after', hread', rfl⟩ := hlongest.reads ⟨0, 0, 0⟩
  rw [happend, hread] at hread'
  cases hread'
  obtain rfl := List.append_cancel_right happend
  exact hlongest

theorem Shape.first {front rest : List Char} {l : Lexeme} (h : Shape front rest l) :
    (∃ c tail, front = c :: tail ∧ Text.isBlank c = false) ∧ l.kind ≠ .eof := by
  cases h with
  | word _ hne hletters =>
    obtain ⟨c, tail, rfl⟩ := List.exists_cons_of_ne_nil hne
    refine ⟨⟨c, tail, rfl, (unmarked_of_isLetter (hletters c (by simp))).blank⟩, fun heof => ?_⟩
    rcases spelling?_ofWord (String.ofList (c :: tail)) with hword | hword
    · cases hword.symm.trans heof
    · rw [show TokenKind.ofWord _ = .eof from heof] at hword
      cases hword
  | digits _ hne hdigits =>
    obtain ⟨c, tail, rfl⟩ := List.exists_cons_of_ne_nil hne
    exact ⟨⟨c, tail, rfl, (unmarked_of_isDigit (hdigits c (by simp))).blank⟩, by simp⟩
  | mark _ hmark => exact ⟨⟨_, [], rfl, (ofMark?_char hmark).1⟩, (ofMark?_char hmark).2.2.2⟩
  | alone _ hmark => exact ⟨⟨_, [], rfl, (ofGrowingMark?_char hmark).1⟩, (ofGrowingMark?_char hmark).2.2.1⟩
  | grown _ hmark => exact ⟨⟨_, _, rfl, (ofGrowingMark?_char hmark).1⟩, (ofGrowingMark?_char hmark).2.2.2⟩
  | literal => exact ⟨⟨_, _, rfl, by decide⟩, by simp⟩

/-! ## Every text is cut -/

theorem exists_literal (text : List Char) :
    (∃ inner rest decoded, text = inner ++ rest ∧ Literal inner rest decoded) ∨
      ∃ body decoded e rest, text = body ++ '\\' :: e :: rest ∧ Decodes body decoded ∧
        ∀ c, (e, c) ∉ escapes := by
  obtain ⟨body, decoded, rest, hbody, rfl, hrest⟩ := decodes_split text
  cases hrest with
  | stop => exact .inl ⟨body, [], decoded, rfl, .unclosed hbody⟩
  | quote rest => exact .inl ⟨body ++ ['"'], rest, decoded, by simp, .closed rest hbody⟩
  | backslash => exact .inl ⟨body ++ ['\\'], [], decoded, by simp, .dropped hbody⟩
  | invalid rest he => exact .inr ⟨body, decoded, _, rest, rfl, hbody, he⟩

theorem exists_cut (passed text : List Char) : ∃ lexemes ending, Cut passed text lexemes ending := by
  induction hn : text.length using Nat.strongRecOn generalizing passed text with
  | ind n ih =>
    subst hn
    rcases text with _ | ⟨c, text⟩
    · exact ⟨[], none, .stop passed⟩
    cases hblank : Text.isBlank c with
    | true =>
      obtain ⟨lexemes, ending, hcut⟩ := ih text.length (by simp) (passed ++ [c]) text rfl
      exact ⟨lexemes, ending, .blank hblank hcut⟩
    | false =>
      by_cases hlexical : ∃ front rest l, front ++ rest = c :: text ∧ Lexical front rest l
      · obtain ⟨front, rest, l, happend, hlexical⟩ := hlexical
        obtain ⟨front, rest, l, happend', hlongest⟩ := hlexical.exists_longest
        rw [← happend, ← happend'] at ih ⊢
        have hne := List.length_pos_iff.mpr hlongest.lexical.shape.ne_nil
        obtain ⟨lexemes, ending, hcut⟩ := ih rest.length (by simp; omega) (passed ++ front) rest rfl
        exact ⟨l :: lexemes, ending, .lexeme hlongest hcut⟩
      · by_cases hquote : c = '"'
        · subst hquote
          rcases exists_literal text with ⟨inner, rest, decoded, rfl, hliteral⟩ |
            ⟨body, decoded, e, rest, rfl, hbody, he⟩
          · by_cases hline : '\n' ∈ inner
            · exact ⟨[], _, .multiLine passed hliteral hline⟩
            · exact absurd ⟨_, _, _, rfl, .string hliteral hline⟩ hlexical
          · exact ⟨[], _, .invalidEscape passed rest hbody he⟩
        · exact ⟨[], _, .unsupported passed hblank hquote fun front back l happend h =>
            hlexical ⟨front, back, l, happend, h⟩⟩

/-! ## Reading follows the cut -/

def EndsIn (ending : Except LexError Token) : Option LexError → Prop
  | none => ∃ eof, ending = .ok eof ∧ eof.lexeme = ⟨.eof, ""⟩
  | some error => ending = .error error

theorem TokenStream.ofCursor_error {c : Char} (hc : Text.isBlank c = false) {text : List Char}
    {position : Position} {error : LexError} {after : Cursor}
    (hread : Cursor.read ⟨c :: text, position⟩ = (.error error, after)) :
    ofCursor ⟨c :: text, position⟩ = ⟨[], .error error⟩ := by
  rw [ofCursor_eq, Cursor.next_cons hc, hread]

theorem Cursor.read_unsupported {c : Char} {text : List Char} (hquote : c ≠ '"')
    (h : ∀ front back l, front ++ back = c :: text → ¬ Lexical front back l) (position : Position) :
    ∃ after, read ⟨c :: text, position⟩ =
      (.error (.unsupported c ⟨position.line, position.column, position.column + 1⟩), after) := by
  have hshape : ∀ front back l, front ++ back = c :: text → ¬ Shape front back l :=
    fun front back l happend hshape => h front back l happend hshape.lexical
  have hgrow : TokenKind.ofGrowingMark? c = none := by
    cases hmark : TokenKind.ofGrowingMark? c with
    | none => rfl
    | some kinds =>
      obtain ⟨alone, grown⟩ := kinds
      exact absurd (.alone text hmark) (hshape [c] text _ rfl)
  have hmark : TokenKind.ofMark? c = none := by
    cases hmark : TokenKind.ofMark? c with
    | none => rfl
    | some kind => exact absurd (.mark text hmark) (hshape [c] text _ rfl)
  have hletter : ¬ isLetter c = true := fun hc =>
    hshape [c] text _ rfl (.word text (by simp) (by simpa using hc))
  have hdigit : ¬ c.isDigit = true := fun hc =>
    hshape [c] text _ rfl (.digits text (by simp) (by simpa using hc))
  exact ⟨_, by simp only [read, hgrow, hmark, if_neg hquote, if_neg hletter, if_neg hdigit]; rfl⟩

theorem Cursor.read_invalidEscape {body text : List Char} (h : Decodes body text) {e : Char}
    (he : ∀ c, (e, c) ∉ escapes) (rest passed : List Char) :
    ∃ after, read ⟨'"' :: (body ++ '\\' :: e :: rest), .behind passed⟩ =
      (.error (.invalidEscape e (.behind (passed ++ '"' :: body ++ ['\\']))), after) := by
  have hplace : (body ++ ['\\']).foldl Position.after ((Position.behind passed).after '"') =
      Position.behind (passed ++ '"' :: body ++ ['\\']) := by
    rw [Position.after_behind, Position.foldl_behind]
    simp
  have hread := readText_invalid h he rest ((Position.behind passed).after '"')
  rw [hplace] at hread
  simp only [read, TokenKind.ofGrowingMark?, TokenKind.ofMark?, if_true, readString, advance, hread]
  exact ⟨_, rfl⟩

theorem Position.line_append (passed text : List Char) :
    (behind (passed ++ text)).line = (behind passed).line + text.count '\n' := by
  simp [behind]

theorem Cursor.read_multiLine {inner rest text : List Char} (h : Literal inner rest text)
    (hline : '\n' ∈ inner) (passed : List Char) :
    ∃ after, read ⟨'"' :: (inner ++ rest), .behind passed⟩ =
      (.error (.multiLine (Position.behind passed).line
        (Position.behind (passed ++ '"' :: inner)).line), after) := by
  have hplace : inner.foldl Position.after ((Position.behind passed).after '"') =
      Position.behind (passed ++ '"' :: inner) := by
    rw [Position.after_behind, Position.foldl_behind]
    simp
  have hlines : (Position.behind passed).line ≠ (Position.behind (passed ++ '"' :: inner)).line := by
    have := List.count_pos_iff.mpr (List.mem_cons_of_mem '"' hline)
    rw [Position.line_append]
    omega
  simp only [read, TokenKind.ofGrowingMark?, TokenKind.ofMark?, if_true, readString, advance,
    readText_literal h, skipTo, hplace, tokenTo, Span.within, if_neg hlines, Except.map]
  exact ⟨_, rfl⟩

theorem Cut.reads {passed text : List Char} {lexemes : List Lexeme} {ending : Option LexError}
    (h : Cut passed text lexemes ending) :
    ∃ tokens last, TokenStream.ofCursor ⟨text, .behind passed⟩ = ⟨tokens, last⟩ ∧
      tokens.map Token.lexeme = lexemes ∧ EndsIn last ending := by
  induction h with
  | stop passed =>
    obtain ⟨token, htoken, hlexeme⟩ := Cursor.tokenTo_of_line
      (rfl : (Cursor.mk [] (.behind passed)).position.line = (Cursor.mk [] (.behind passed)).position.line)
      .eof ""
    have hnext : (Cursor.mk [] (.behind passed)).next = (.ok token, ⟨[], .behind passed⟩) := by
      rw [← htoken]
      rfl
    have hkind : token.kind = .eof := congrArg Lexeme.kind hlexeme
    refine ⟨[], .ok token, ?_, rfl, token, rfl, hlexeme⟩
    rw [TokenStream.ofCursor_eq, hnext]
    exact if_pos hkind
  | @blank passed rest c lexemes ending hblank _ ih =>
    rw [TokenStream.ofCursor_blank hblank, Position.after_behind]
    exact ih
  | @lexeme passed front rest l lexemes ending hlongest _ ih =>
    obtain ⟨tokens, last, hstream, htokens, hends⟩ := ih
    obtain ⟨⟨c, tail, rfl, hblank⟩, hkind⟩ := hlongest.lexical.shape.first
    obtain ⟨token, after, hread, rfl⟩ := hlongest.reads (.behind passed)
    obtain ⟨front, hrest, hposition⟩ := Cursor.passes_read ⟨c :: tail ++ rest, .behind passed⟩
    rw [hread] at hrest hposition
    obtain rfl := List.append_cancel_right hrest
    obtain rfl : after = .behind (passed ++ c :: tail) := by
      rw [← Position.foldl_behind]
      exact hposition
    refine ⟨token :: tokens, last, ?_, by simp [htokens], hends⟩
    rw [List.cons_append] at hread ⊢
    rw [TokenStream.ofCursor_token hblank hread hkind, hstream]
    rfl
  | @unsupported passed c rest hblank hquote hlexical =>
    obtain ⟨after, hread⟩ := Cursor.read_unsupported hquote hlexical (.behind passed)
    exact ⟨[], _, TokenStream.ofCursor_error hblank hread, rfl, rfl⟩
  | invalidEscape passed rest hbody he =>
    obtain ⟨after, hread⟩ := Cursor.read_invalidEscape hbody he rest passed
    exact ⟨[], _, TokenStream.ofCursor_error (by decide) hread, rfl, rfl⟩
  | multiLine passed hliteral hline =>
    obtain ⟨after, hread⟩ := Cursor.read_multiLine hliteral hline passed
    exact ⟨[], _, TokenStream.ofCursor_error (by decide) hread, rfl, rfl⟩

theorem exists_cut_ofSource (source : String) : ∃ ending,
    Cut [] source.toList ((TokenStream.ofSource source).tokens.map Token.lexeme) ending ∧
      EndsIn (TokenStream.ofSource source).ending ending := by
  obtain ⟨lexemes, ending, hcut⟩ := exists_cut [] source.toList
  obtain ⟨tokens, last, hstream, rfl, hends⟩ := hcut.reads
  have hsource : TokenStream.ofSource source = ⟨tokens, last⟩ := hstream
  rw [hsource]
  exact ⟨ending, hcut, hends⟩

theorem Cut.tokenize {source : String} {lexemes : List Lexeme} {ending : Option LexError}
    (h : Cut [] source.toList lexemes ending) :
    match ending with
    | none => ∃ tokens, MonkeyLang.tokenize source = .ok tokens ∧
        tokens.map Token.lexeme = lexemes ++ [⟨.eof, ""⟩]
    | some error => MonkeyLang.tokenize source = .error error := by
  obtain ⟨tokens, last, hstream, rfl, hends⟩ := h.reads
  have hsource : TokenStream.ofSource source = ⟨tokens, last⟩ := hstream
  cases ending with
  | none =>
    obtain ⟨eof, rfl, heof⟩ := hends
    refine ⟨tokens ++ [eof], ?_, by simp [heof]⟩
    rw [MonkeyLang.tokenize, hsource]
    rfl
  | some error =>
    obtain rfl : last = .error error := hends
    rw [MonkeyLang.tokenize, hsource]
    rfl

/-- A source is tokenized just when it falls into blanks and longest lexemes, and the tokens are these
lexemes and the end of input. Otherwise the error is the one at the first place where it does not. -/
theorem tokenize_cut (source : String) :
    (∀ lexemes, (∃ tokens, tokenize source = .ok tokens ∧
        tokens.map Token.lexeme = lexemes ++ [⟨.eof, ""⟩]) ↔ Cut [] source.toList lexemes none) ∧
    (∀ error, tokenize source = .error error ↔
        ∃ lexemes, Cut [] source.toList lexemes (some error)) ∧
    ∃ lexemes ending, Cut [] source.toList lexemes ending := by
  obtain ⟨lexemes, ending, hcut⟩ := exists_cut [] source.toList
  have hresult := hcut.tokenize
  refine ⟨fun lexemes' => ⟨?_, Cut.tokenize⟩, fun error => ⟨?_, fun ⟨_, h⟩ => h.tokenize⟩,
    lexemes, ending, hcut⟩
  · rintro ⟨tokens, htokens, hlexemes⟩
    cases ending with
    | none =>
      obtain ⟨tokens', htokens', hlexemes'⟩ := hresult
      obtain rfl := Except.ok.inj (htokens.symm.trans htokens')
      obtain rfl := List.append_cancel_right (hlexemes.symm.trans hlexemes')
      exact hcut
    | some error => cases htokens.symm.trans hresult
  · intro herror
    cases ending with
    | none =>
      obtain ⟨tokens, htokens, -⟩ := hresult
      cases herror.symm.trans htokens
    | some error' =>
      obtain rfl := Except.error.inj (herror.symm.trans hresult)
      exact ⟨lexemes, hcut⟩

end MonkeyLang
