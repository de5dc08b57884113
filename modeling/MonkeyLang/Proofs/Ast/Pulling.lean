import MonkeyLang.Proofs.Ast.Depth
import MonkeyLang.Proofs.Ast.Failure
import MonkeyLang.Proofs.Token.Pulls

namespace MonkeyLang

namespace Parser

theorem pull_ofCursor (cursor : Cursor) :
    pull (.ofCursor cursor) =
      match cursor.next with
      | (.error error, _) => .error (.lexical error)
      | (.ok token, after) => .ok (token, .ofCursor after) := by
  rw [pull, TokenStream.next_ofCursor]
  rcases cursor.next with ⟨error | token, after⟩ <;> rfl

theorem run_advance_ofCursor (current peek : Token) (cursor : Cursor) :
    Parser.advance.run ⟨current, peek, .ofCursor cursor⟩ =
      match cursor.next with
      | (.error error, _) => .error (.lexical error)
      | (.ok token, after) => .ok ((), ⟨peek, token, .ofCursor after⟩) := by
  rw [run_advance_eq, pull_ofCursor]
  rcases cursor.next with ⟨error | token, after⟩ <;> rfl

/-- With these tokens the parser fails before it asks for another one, so it does not matter what the
answer would be. -/
def FailsOn (depth : Nat) (tokens : List Token) (error : ParseError) : Prop :=
  ∀ answer, parseStream depth ⟨tokens, answer⟩ = .error error

/-- The parser asks for one more token than these, so an error that it gets for an answer comes out. -/
def AsksBehind (depth : Nat) (tokens : List Token) : Prop :=
  ∀ error, parseStream depth ⟨tokens, .error error⟩ = .error (.lexical error)

def answerAlignment (error : LexError) (answer : Except LexError Token) : Alignment where
  related view other := view.current = other.current ∧ view.peek = other.peek ∧
    ∃ tokens, view.rest = ⟨tokens, .error error⟩ ∧ other.rest = ⟨tokens, answer⟩
  excused found := found = .lexical error
  current h := h.1
  peek h := h.2.1
  advance := by
    rintro ⟨current, peek, _⟩ ⟨_, _, _⟩ ⟨rfl, rfl, tokens, rfl, rfl⟩
    rw [run_advance_eq, run_advance_eq]
    cases tokens with
    | nil => exact .excused (by exact rfl) _
    | cons token tokens => exact .ok ⟨rfl, rfl, tokens, rfl, rfl⟩

theorem parseStream_answer (depth : Nat) (tokens : List Token) (error : LexError)
    (answer : Except LexError Token) :
    parseStream depth ⟨tokens, .error error⟩ = .error (.lexical error) ∨
      parseStream depth ⟨tokens, .error error⟩ = parseStream depth ⟨tokens, answer⟩ := by
  have hstart : Agree (answerAlignment error answer).excused (answerAlignment error answer).related
      (start ⟨tokens, .error error⟩) (start ⟨tokens, answer⟩) := by
    rcases tokens with _ | ⟨first, _ | ⟨second, tokens⟩⟩
    · exact .excused (by exact rfl) _
    · exact .excused (by exact rfl) _
    · exact .ok ⟨rfl, rfl, tokens, rfl, rfl⟩
  have hrun := parseBy_agrees (follows_within (tokens.length + 1) depth) hstart
  rw [parseStream_eq, parseStream_eq]
  generalize parseBy _ ⟨tokens, .error error⟩ = first at hrun ⊢
  generalize parseBy _ ⟨tokens, answer⟩ = second at hrun ⊢
  cases hrun with
  | excused herror => exact .inl (congrArg Except.error herror)
  | error error => exact .inr rfl
  | ok hvalue => exact .inr (congrArg Except.ok hvalue)

theorem failsOn_or_asksBehind {tokens : List Token} (htokens : ∀ token ∈ tokens, token.kind ≠ .eof)
    (depth : Nat) : (∃ error, FailsOn depth tokens error) ∨ AsksBehind depth tokens := by
  by_cases hasks : AsksBehind depth tokens
  · exact .inr hasks
  obtain ⟨error, herror⟩ := Classical.not_forall.mp hasks
  have hanswer := fun answer => (parseStream_answer depth tokens error answer).resolve_left herror
  cases hresult : parseStream depth ⟨tokens, .error error⟩ with
  | ok program =>
    obtain ⟨eof, heof⟩ := ending_of_parseStream htokens hresult
    cases heof
  | error found => exact .inl ⟨found, fun answer => (hanswer answer).symm.trans hresult⟩

theorem FailsOn.cases {depth : Nat} {tokens : List Token} {error : ParseError}
    (h : FailsOn depth tokens error) :
    (∃ expected, ∃ found ∈ tokens, error = .unexpected expected found) ∨
      (∃ token ∈ tokens, token.kind = .integer ∧ maxDigits < token.literal.length ∧
        error = .tooManyDigits token.literal.length) ∨
      ∃ found ∈ tokens, error = .nestingTooDeep found := by
  have habout (first : Nat) : error.About ⟨tokens, .error (.multiLine first first)⟩ :=
    about_of_parseStream (h _)
  have hholds {token : Token} (h : TokenStream.Holds ⟨tokens, .error (.multiLine 0 0)⟩ token) :
      token ∈ tokens := by
    rcases h with hmem | hending
    · exact hmem
    · cases hending
  cases error with
  | lexical lexical => cases (habout 0).trans (habout 1).symm
  | unexpected expected found => exact .inl ⟨expected, found, hholds (habout 0), rfl⟩
  | tooManyDigits digits =>
    obtain ⟨token, hmem, hkind, rfl, hdigits⟩ := habout 0
    exact .inr (.inl ⟨token, hholds hmem, hkind, hdigits, rfl⟩)
  | nestingTooDeep found => exact .inr (.inr ⟨found, hholds (habout 0), rfl⟩)

end Parser

/-- Reading a source token by token agrees with reading all of its tokens first. If the lexer comes to the
end of input, the source is read as its finished tokens are. If it comes to an error, the source is refused:
with that error if the parser asks for what stands behind the tokens, and otherwise with the error about one
of the tokens for which the parser does not ask any further. -/
theorem parseWithin_pulls (source : String) :
    ∃ tokens answer, (Cursor.ofSource source).Gives tokens answer ∧
      match answer with
      | .ok eof => tokenize source = .ok (tokens ++ [eof]) ∧
          ∀ depth, parseWithin depth source = Parser.parseStream depth ⟨tokens, .ok eof⟩
      | .error error => tokenize source = .error error ∧ ∀ depth,
          (∀ program, parseWithin depth source ≠ .ok program) ∧
          (tokens.length + 2 ≤ depth →
            Parser.AsksBehind depth tokens ∧ parseWithin depth source = .error (.lexical error) ∨
            ∃ found, Parser.FailsOn depth tokens found ∧ parseWithin depth source = .error found ∧
              ((∃ expected, ∃ token ∈ tokens, found = .unexpected expected token) ∨
                ∃ token ∈ tokens, token.kind = .integer ∧ maxDigits < token.literal.length ∧
                  found = .tooManyDigits token.literal.length)) := by
  have hgives := Cursor.gives_ofCursor (.ofSource source)
  have hends := TokenStream.wellEnded_ofSource source
  have hstream : TokenStream.ofSource source = _ := hgives.ofCursor_eq
  generalize (TokenStream.ofCursor (.ofSource source)).tokens = tokens at hgives hstream
  generalize (TokenStream.ofCursor (.ofSource source)).ending = answer at hgives hstream
  refine ⟨tokens, answer, hgives, ?_⟩
  have hparse (depth : Nat) : parseWithin depth source = Parser.parseStream depth ⟨tokens, answer⟩ :=
    congrArg (Parser.parseStream depth) hstream
  rw [hstream] at hends
  cases answer with
  | ok eof => exact ⟨tokenize_ok.mpr ⟨tokens, eof, hstream, rfl⟩, hparse⟩
  | error error =>
    refine ⟨congrArg TokenStream.toList hstream, fun depth => ⟨fun program hprogram => ?_, fun hdepth => ?_⟩⟩
    · obtain ⟨_, ⟨⟩⟩ := Parser.ending_of_parseStream hends.before ((hparse depth).symm.trans hprogram)
    rcases Parser.failsOn_or_asksBehind hends.before depth with ⟨found, hfound⟩ | hasks
    · have hresult : parseWithin depth source = .error found := (hparse depth).trans (hfound _)
      refine .inr ⟨found, hfound, hresult, ?_⟩
      rcases hfound.cases with hunexpected | hdigits | ⟨token, -, rfl⟩
      · exact .inl hunexpected
      · exact .inr hdigits
      · exact absurd (hfound _) (Parser.parseStream_ne_nestingTooDeep hends hdepth token)
    · exact .inl ⟨hasks, (hparse depth).trans (hasks error)⟩

/-- A closing parenthesis begins no expression, which is seen before the token behind the next one is asked
for; when only the parenthesis is there, the lexer's error comes first. -/
example : parseWithin 9 ") a $" = .error (.unexpected .expression ⟨.rightParen, ")", ⟨0, 0, 1⟩⟩) ∧
    parseWithin 9 ") $" = .error (.lexical (.unsupported '$' ⟨0, 2, 3⟩)) := by
  constructor
  · cbv
  · cbv

end MonkeyLang
