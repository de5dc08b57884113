import MonkeyLang.Text.Blank
import MonkeyLang.Text.Escape
import MonkeyLang.Token.Error

/-!
# Lexer

A cursor is what is left of a source and the position reached. `Cursor.next` reads one token and says
where the cursor then stands, also after an error: behind a token, on the character that forms no
escape, behind a string literal over two lines, on the character that starts no token. At the end it
keeps giving the token for the end of input.

`scan` reads to the first error or to the end. It ends because every other token shortens what is left
(`length_rest_next_lt`).
-/

namespace MonkeyLang

/-- How far into a source: characters passed, newlines passed, characters since the last of them. -/
structure Position where
  offset : Nat
  line : Nat
  column : Nat
deriving DecidableEq, Repr, Inhabited

def Position.after (position : Position) (c : Char) : Position :=
  if c = '\n' then ⟨position.offset + 1, position.line + 1, 0⟩
  else ⟨position.offset + 1, position.line, position.column + 1⟩

structure Cursor where
  rest : List Char
  position : Position
deriving DecidableEq, Repr, Inhabited

def isLetter (c : Char) : Bool :=
  c == '_' || c.isAlpha

namespace Cursor

def ofSource (source : String) : Cursor :=
  ⟨source.toList, ⟨0, 0, 0⟩⟩

def advance : Cursor → Cursor
  | ⟨[], position⟩ => ⟨[], position⟩
  | ⟨c :: rest, position⟩ => ⟨rest, position.after c⟩

def skipTo (position : Position) (text rest : List Char) : Cursor :=
  ⟨rest, text.foldl Position.after position⟩

def skipWhile (p : Char → Bool) (cursor : Cursor) : Cursor :=
  skipTo cursor.position (cursor.rest.takeWhile p) (cursor.rest.dropWhile p)

def tokenTo (start stop : Cursor) (kind : TokenKind) (literal : String) : Except LexError Token :=
  (Span.within start.position.column stop.position.column start.position.line stop.position.line).map
    (⟨kind, literal, ·⟩)

def consText (c : Char) :
    Except (Char × Span) (List Char) × Cursor → Except (Char × Span) (List Char) × Cursor
  | (text, cursor) => (text.map (c :: ·), cursor)

/-- Reads a string literal behind its opening quote: up to the first quote that is not escaped, or to
the end of the source, where a last lone backslash is dropped. -/
def readText : List Char → Position → Except (Char × Span) (List Char) × Cursor
  | [], position => (.ok [], ⟨[], position⟩)
  | '"' :: rest, position => (.ok [], ⟨rest, position.after '"'⟩)
  | ['\\'], position => (.ok [], ⟨[], position.after '\\'⟩)
  | '\\' :: e :: rest, position =>
    let behind := position.after '\\'
    match Text.unescape? e with
    | some c => consText c (readText rest (behind.after e))
    | none => (.error (e, ⟨behind.line, behind.column, behind.column + 1⟩), ⟨e :: rest, behind⟩)
  | c :: rest, position => consText c (readText rest (position.after c))

def readString (cursor : Cursor) : Except LexError Token × Cursor :=
  let opened := cursor.advance
  match readText opened.rest opened.position with
  | (.ok text, stop) => (cursor.tokenTo stop .string (String.ofList text), stop)
  | (.error (c, span), stop) => (.error (.invalidEscape c span), stop)

def readRun (cursor : Cursor) (p : Char → Bool) (kind : String → TokenKind) :
    Except LexError Token × Cursor :=
  let literal := String.ofList (cursor.rest.takeWhile p)
  let stop := cursor.skipWhile p
  (cursor.tokenTo stop (kind literal) literal, stop)

def readMark (cursor : Cursor) (kind : TokenKind) (mark rest : List Char) :
    Except LexError Token × Cursor :=
  let stop := skipTo cursor.position mark rest
  (cursor.tokenTo stop kind (String.ofList mark), stop)

def read (cursor : Cursor) : Except LexError Token × Cursor :=
  match cursor.rest with
  | [] => (cursor.tokenTo cursor .eof "", cursor)
  | c :: rest =>
    match TokenKind.ofGrowingMark? c, rest with
    | some (_, grown), '=' :: rest => readMark cursor grown [c, '='] rest
    | some (alone, _), rest => readMark cursor alone [c] rest
    | none, rest =>
      match TokenKind.ofMark? c with
      | some kind => readMark cursor kind [c] rest
      | none =>
        if c = '"' then cursor.readString
        else if isLetter c then cursor.readRun isLetter TokenKind.ofWord
        else if c.isDigit then cursor.readRun Char.isDigit fun _ => .integer
        else
          let ⟨_, line, column⟩ := cursor.position
          (.error (.unsupported c ⟨line, column, column + 1⟩), cursor)

def next (cursor : Cursor) : Except LexError Token × Cursor :=
  (cursor.skipWhile Text.isBlank).read

/-! ## Progress -/

theorem length_rest_skipWhile_le (p : Char → Bool) (cursor : Cursor) :
    (cursor.skipWhile p).rest.length ≤ cursor.rest.length :=
  (List.dropWhile_sublist p).length_le

theorem length_rest_readText_le (text : List Char) (position : Position) :
    (readText text position).2.rest.length ≤ text.length := by
  fun_induction readText text position <;> simp_all [consText] <;> omega

theorem length_rest_readString_lt {cursor : Cursor} {c : Char} {rest : List Char}
    (h : cursor.rest = c :: rest) : cursor.readString.2.rest.length < cursor.rest.length := by
  obtain ⟨_, position⟩ := cursor
  subst h
  have := length_rest_readText_le rest (position.after c)
  simp only [readString, advance, List.length_cons]
  split
  all_goals
    rename_i read
    rw [read] at this
    exact Nat.lt_succ_of_le this

theorem length_rest_readRun_lt {cursor : Cursor} {c : Char} {rest : List Char} {p : Char → Bool}
    {kind : String → TokenKind} (h : cursor.rest = c :: rest) (hc : p c = true) :
    (cursor.readRun p kind).2.rest.length < cursor.rest.length := by
  have := (List.dropWhile_sublist (l := rest) p).length_le
  rw [h]
  simp only [readRun, skipWhile, skipTo, h, List.dropWhile_cons_of_pos hc, List.length_cons]
  exact Nat.lt_succ_of_le this

theorem length_rest_read_lt {cursor : Cursor} (hrest : cursor.rest ≠ [])
    (h : ∀ c span, cursor.read.1 ≠ .error (.unsupported c span)) :
    cursor.read.2.rest.length < cursor.rest.length := by
  revert h
  fun_cases read cursor with
  | case1 hr => exact absurd hr hrest
  | case2 c _ _ rest _ hr =>
    intro
    simp only [readMark, skipTo, hr, List.length_cons]
    omega
  | case3 c _ _ _ _ _ hr =>
    intro
    simp only [readMark, skipTo, hr, List.length_cons]
    omega
  | case4 c rest _ _ _ hr =>
    intro
    simp only [readMark, skipTo, hr, List.length_cons]
    omega
  | case5 rest _ _ hr => intro; exact length_rest_readString_lt hr
  | case6 c rest _ _ _ hc hr => intro; exact length_rest_readRun_lt hr hc
  | case7 c rest _ _ _ _ hc hr => intro; exact length_rest_readRun_lt hr hc
  | case8 => exact fun h => absurd rfl (h _ _)

theorem rest_ne_nil_of_read {cursor : Cursor} {token : Token} (h : cursor.read.1 = .ok token)
    (hk : token.kind ≠ .eof) : cursor.rest ≠ [] := by
  intro hr
  simp [read, hr, tokenTo, Span.within, Except.map] at h
  exact absurd (by rw [← h]) hk

theorem length_rest_next_lt {cursor : Cursor} {token : Token} (h : cursor.next.1 = .ok token)
    (hk : token.kind ≠ .eof) : cursor.next.2.rest.length < cursor.rest.length := by
  refine Nat.lt_of_lt_of_le (length_rest_read_lt (rest_ne_nil_of_read h hk) fun c span hread => ?_)
    (length_rest_skipWhile_le Text.isBlank cursor)
  cases hread.symm.trans h

end Cursor

end MonkeyLang
