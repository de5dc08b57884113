import MonkeyLang.Ast.Parser

namespace MonkeyLang.Parser

variable {α β : Type} {eof : Token}

def window (eof : Token) (tokens : List Token) : Lookahead :=
  ⟨tokens.headD eof, tokens.tail.headD eof, ⟨tokens.drop 2, .ok eof⟩⟩

theorem start_eq_window (tokens : List Token) :
    start ⟨tokens, .ok eof⟩ = .ok (window eof tokens) := by
  rcases tokens with _ | ⟨a, _ | ⟨b, rest⟩⟩ <;> rfl

theorem run_bind_ok {p : Parser α} {f : α → Parser β} {view : Lookahead} {r : β × Lookahead} :
    (p >>= f).run view = .ok r ↔ ∃ a next, p.run view = .ok (a, next) ∧ (f a).run next = .ok r := by
  rw [StateT.run_bind]
  cases p.run view with
  | error error => simp [bind, Except.bind]
  | ok result =>
    obtain ⟨a, next⟩ := result
    simp [bind, Except.bind, and_assoc]

@[simp] theorem run_pure_ok {a b : α} {view next : Lookahead} :
    (pure a : Parser α).run view = .ok (b, next) ↔ a = b ∧ view = next := by
  change Except.ok (a, view) = Except.ok (b, next) ↔ _
  simp

@[simp] theorem run_unexpected_ne_ok {expected : Expectation} {found : Token} {view : Lookahead}
    {r : α × Lookahead} : (unexpected expected found : Parser α).run view ≠ .ok r := by
  rintro ⟨⟩

theorem run_nestingTooDeep (view : Lookahead) :
    (nestingTooDeep : Parser α).run view = .error (.nestingTooDeep view.current) := rfl

@[simp] theorem run_current_bind {f : Token → Parser α} {view : Lookahead} :
    (current >>= f).run view = (f view.current).run view := rfl

@[simp] theorem run_peek_bind {f : Token → Parser α} {view : Lookahead} :
    (peek >>= f).run view = (f view.peek).run view := rfl

theorem run_advance (tokens : List Token) :
    advance.run (window eof tokens) = .ok ((), window eof tokens.tail) := by
  rcases tokens with _ | ⟨a, _ | ⟨b, _ | ⟨c, rest⟩⟩⟩ <;> rfl

@[simp] theorem run_advance_bind {f : Unit → Parser α} (tokens : List Token) :
    (advance >>= f).run (window eof tokens) = (f ()).run (window eof tokens.tail) := by
  rw [StateT.run_bind, run_advance]
  rfl

@[simp] theorem current_window_cons (token : Token) (tokens : List Token) :
    (window eof (token :: tokens)).current = token := rfl

@[simp] theorem current_window_nil : (window eof []).current = eof := rfl

@[simp] theorem peek_window_cons (token : Token) (tokens : List Token) :
    (window eof (token :: tokens)).peek = tokens.headD eof := rfl

theorem expect_bind (kind : TokenKind) (f : Token → Parser α) :
    expect kind >>= f = peek >>= fun token =>
      if token.kind = kind then advance >>= fun _ => f token
      else unexpected (.token kind) token := by
  rw [expect, bind_assoc]
  congr 1
  funext token
  split
  · rw [bind_assoc]
    rfl
  · rfl

theorem run_expect_ok {kind : TokenKind} (heof : eof.kind = .eof) (hk : kind ≠ .eof)
    {first : Token} {tokens : List Token} {token : Token} {view : Lookahead} :
    (expect kind).run (window eof (first :: tokens)) = .ok (token, view) ↔
      ∃ rest, tokens = token :: rest ∧ token.kind = kind ∧ view = window eof (token :: rest) := by
  have hne : eof.kind ≠ kind := fun h => hk (h ▸ heof)
  unfold expect
  rw [run_peek_bind]
  rcases tokens with _ | ⟨second, rest⟩
  · simp [hne]
  · by_cases h : second.kind = kind
    · simp only [peek_window_cons, List.headD_cons, h, if_true, run_advance_bind, List.tail_cons,
        run_pure_ok]
      constructor
      · rintro ⟨rfl, rfl⟩
        exact ⟨rest, rfl, h, rfl⟩
      · rintro ⟨_, ⟨⟩, -, rfl⟩
        exact ⟨rfl, rfl⟩
    · simp only [peek_window_cons, List.headD_cons, h, if_false, run_unexpected_ne_ok, false_iff]
      rintro ⟨_, ⟨⟩, hkind, -⟩
      exact h hkind

end MonkeyLang.Parser
