import MonkeyLang.Token.Lexer

namespace MonkeyLang

def escapes : List (Char × Char) :=
  [('n', '\n'), ('t', '\t'), ('"', '"'), ('\\', '\\')]

theorem mem_escapes_iff {e c : Char} : (e, c) ∈ escapes ↔ Text.unescape? e = some c := by
  unfold Text.unescape? escapes
  split <;> simp_all [eq_comm]

theorem unescape?_eq_none {e : Char} (h : ∀ c, (e, c) ∉ escapes) : Text.unescape? e = none := by
  cases he : Text.unescape? e with
  | none => rfl
  | some c => exact absurd (mem_escapes_iff.mpr he) (h c)

inductive Decodes : List Char → List Char → Prop where
  | nil : Decodes [] []
  | plain {c : Char} {body text : List Char} :
      c ≠ '"' → c ≠ '\\' → Decodes body text → Decodes (c :: body) (c :: text)
  | escape {e c : Char} {body text : List Char} :
      (e, c) ∈ escapes → Decodes body text → Decodes ('\\' :: e :: body) (c :: text)

/-- The characters between an opening quote and the rest complete a string literal, on one line or on
several. At the end of the source the closing quote may be missing, and a last lone backslash is
dropped. -/
inductive Literal : List Char → List Char → List Char → Prop where
  | closed {body text : List Char} (rest : List Char) :
      Decodes body text → Literal (body ++ ['"']) rest text
  | unclosed {body text : List Char} : Decodes body text → Literal body [] text
  | dropped {body text : List Char} : Decodes body text → Literal (body ++ ['\\']) [] text

inductive Undecoded : List Char → Prop where
  | stop : Undecoded []
  | quote (rest : List Char) : Undecoded ('"' :: rest)
  | backslash : Undecoded ['\\']
  | invalid {e : Char} (rest : List Char) : (∀ c, (e, c) ∉ escapes) → Undecoded ('\\' :: e :: rest)

theorem decodes_split (text : List Char) :
    ∃ body decoded rest, Decodes body decoded ∧ text = body ++ rest ∧ Undecoded rest := by
  -- The cases are those of reading, the position plays no part.
  fun_induction Cursor.readText text ⟨0, 0, 0⟩ with
  | case1 => exact ⟨[], [], [], .nil, rfl, .stop⟩
  | case2 rest => exact ⟨[], [], _, .nil, rfl, .quote rest⟩
  | case3 => exact ⟨[], [], _, .nil, rfl, .backslash⟩
  | case4 e rest _ _ c he ih =>
    obtain ⟨body, decoded, rest, hbody, rfl, hrest⟩ := ih
    exact ⟨_, _, rest, .escape (mem_escapes_iff.mpr he) hbody, rfl, hrest⟩
  | case5 e rest _ _ he =>
    refine ⟨[], [], _, .nil, rfl, .invalid rest fun c mem => ?_⟩
    rw [mem_escapes_iff.mp mem] at he
    cases he
  | case6 c rest _ hquote hlast hslash ih =>
    obtain ⟨body, decoded, more, hbody, rfl, hmore⟩ := ih
    refine ⟨_, _, more, .plain hquote ?_ hbody, rfl, hmore⟩
    rintro rfl
    cases hrest : body ++ more with
    | nil => exact hlast rfl hrest
    | cons e more => exact hslash e more rfl hrest

namespace Cursor

theorem readText_append {body text : List Char} (h : Decodes body text) (rest : List Char)
    (position : Position) :
    readText (body ++ rest) position =
      text.foldr consText (readText rest (body.foldl Position.after position)) := by
  induction h generalizing position with
  | nil => rfl
  | plain hquote hslash _ ih =>
    rw [List.cons_append, readText]
    · rw [ih]
      rfl
    · exact hquote
    · rintro rfl
      exact absurd rfl hslash
    · rintro e more rfl
      exact absurd rfl hslash
  | escape he _ ih =>
    rw [List.cons_append, List.cons_append, readText, mem_escapes_iff.mp he]
    simp only [ih]
    rfl

theorem foldr_consText_ok (text read : List Char) (cursor : Cursor) :
    text.foldr consText (.ok read, cursor) = (.ok (text ++ read), cursor) := by
  induction text with
  | nil => rfl
  | cons c text ih =>
    rw [List.foldr_cons, ih]
    rfl

theorem foldr_consText_error (text : List Char) (error : Char × Span) (cursor : Cursor) :
    text.foldr consText (.error error, cursor) = (.error error, cursor) := by
  induction text with
  | nil => rfl
  | cons c text ih =>
    rw [List.foldr_cons, ih]
    rfl

theorem readText_literal {inner rest text : List Char} (h : Literal inner rest text)
    (position : Position) :
    readText (inner ++ rest) position = (.ok text, skipTo position inner rest) := by
  cases h with
  | closed rest h =>
    rw [List.append_assoc, readText_append h, List.singleton_append, readText, foldr_consText_ok]
    simp [skipTo]
  | unclosed h =>
    rw [readText_append h, readText, foldr_consText_ok]
    simp [skipTo]
  | dropped h =>
    rw [List.append_assoc, readText_append h, List.append_nil, readText, foldr_consText_ok]
    simp [skipTo]

theorem readText_invalid {body text : List Char} (h : Decodes body text) {e : Char}
    (he : ∀ c, (e, c) ∉ escapes) (rest : List Char) (position : Position) :
    readText (body ++ '\\' :: e :: rest) position =
      let stop := (body ++ ['\\']).foldl Position.after position
      (.error (e, ⟨stop.line, stop.column, stop.column + 1⟩), ⟨e :: rest, stop⟩) := by
  rw [readText_append h, readText, unescape?_eq_none he, List.foldl_append]
  exact foldr_consText_error text _ _

end Cursor

theorem decodes_escapeChars (text : List Char) : Decodes (Text.escapeChars text) text := by
  induction text with
  | nil => exact .nil
  | cons c text ih =>
    rw [Text.escapeChars, List.flatMap_cons, Text.escapeChar]
    cases hc : Text.escapeLetter? c with
    | some e => exact .escape (mem_escapes_iff.mpr (Text.unescape?_of_escapeLetter? hc)) ih
    | none =>
      refine .plain ?_ ?_ ih
      · rintro rfl
        cases hc
      · rintro rfl
        cases hc

end MonkeyLang
