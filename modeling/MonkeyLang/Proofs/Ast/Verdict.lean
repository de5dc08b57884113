import MonkeyLang.Proofs.Ast.Binding
import MonkeyLang.Proofs.Ast.Window

/-!
# Verdicts of parsers

What a run of a parser on some tokens says about its runs on other tokens that begin in the same way.
A run that gives a result has looked no further than one token behind what it passed, so it gives the
result on every other list that agrees up to that token. A run that stops at an unexpected token stops
on every list that agrees up to that token, while the lexemes in front of it can be completed to a
phrase that goes on with what was expected.

Parsers that are joined join their verdicts, so each production gets its verdict from its parts.
-/

namespace MonkeyLang
open Grammar

/-! ## Completions -/

def Lexeme.sample (kind : TokenKind) : Lexeme :=
  ⟨kind, if kind = .integer then "0" else kind.spelling?.getD "x"⟩

def Expectation.sample : Expectation → Lexeme
  | token kind => .sample kind
  | expression => .sample .identifier
  | smallInteger => .sample .integer

def Viable (L : List Lexeme → Prop) (ls : List Lexeme) : Prop :=
  ∃ kinds : List TokenKind, .eof ∉ kinds ∧ L (ls ++ kinds.map .sample)

variable {L M : List Lexeme → Prop}

theorem Viable.of {ls : List Lexeme} (h : L ls) : Viable L ls :=
  ⟨[], by simp, by simpa using h⟩

theorem Viable.bind {ls : List Lexeme} (h : Viable L ls) (hclose : ∀ ls, L ls → Viable M ls) :
    Viable M ls := by
  obtain ⟨kinds, hkinds, h⟩ := h
  obtain ⟨more, hmore, h⟩ := hclose _ h
  exact ⟨kinds ++ more, by simp [hkinds, hmore], by simpa using h⟩

theorem Viable.behind {front ls : List Lexeme} (h : Viable (fun ls => L (front ++ ls)) ls) :
    Viable L (front ++ ls) := by
  obtain ⟨kinds, hkinds, h⟩ := h
  exact ⟨kinds, hkinds, by simpa using h⟩

namespace Parser

variable {α β ι : Type} {eof : Token}

/-! ## Tokens that are left -/

structure Left (bound : Nat) (tokens : List Token) : Prop where
  length : tokens.length < bound
  free : ∀ token ∈ tokens, token.kind ≠ .eof

theorem Left.behind {bound : Nat} {front rest : List Token} (h : Left bound (front ++ rest)) :
    Left bound rest where
  length := by
    have := h.length
    simp at this
    omega
  free token mem := h.free token (List.mem_append_right front mem)

theorem Left.tail {bound : Nat} {token : Token} {tokens : List Token}
    (h : Left bound (token :: tokens)) : Left bound tokens :=
  @Left.behind bound [token] tokens h

theorem eq_of_headD (heof : eof.kind = .eof) {rest rest' : List Token}
    (hrest : ∀ token ∈ rest, token.kind ≠ .eof) (hrest' : ∀ token ∈ rest', token.kind ≠ .eof)
    (hhead : rest.headD eof = rest'.headD eof) (htail : rest.tail = rest'.tail) : rest = rest' := by
  rcases rest with _ | ⟨token, rest⟩ <;> rcases rest' with _ | ⟨token', rest'⟩
  · rfl
  · obtain rfl : eof = token' := hhead
    exact absurd heof (hrest' eof (by simp))
  · obtain rfl : token = eof := hhead
    exact absurd heof (hrest token (by simp))
  · obtain rfl : token = token' := hhead
    obtain rfl : rest = rest' := htail
    rfl

theorem rest_of_window (heof : eof.kind = .eof) {n : Nat} (hn : n ≤ 1)
    {last last' rest rest' : List Token} (hlast : last.length = n) (hlast' : last'.length = n)
    (hrest : ∀ token ∈ rest, token.kind ≠ .eof) (hrest' : ∀ token ∈ rest', token.kind ≠ .eof)
    (h : window eof (last ++ rest) = window eof (last' ++ rest')) : rest = rest' := by
  simp only [window, Lookahead.mk.injEq, TokenStream.mk.injEq, and_true] at h
  obtain ⟨hcurrent, hpeek, hbehind⟩ := h
  obtain rfl | rfl : n = 0 ∨ n = 1 := by omega
  · obtain rfl := List.length_eq_zero_iff.mp hlast
    obtain rfl := List.length_eq_zero_iff.mp hlast'
    refine eq_of_headD heof hrest hrest' hcurrent (eq_of_headD heof ?_ ?_ hpeek ?_)
    · exact fun token mem => hrest token (List.mem_of_mem_tail mem)
    · exact fun token mem => hrest' token (List.mem_of_mem_tail mem)
    · simp only [← List.drop_one, List.drop_drop]
      exact hbehind
  · obtain ⟨token, rfl⟩ := List.length_eq_one_iff.mp hlast
    obtain ⟨token', rfl⟩ := List.length_eq_one_iff.mp hlast'
    rw [List.singleton_append, List.singleton_append, List.drop_succ_cons, List.drop_succ_cons,
      List.drop_one, List.drop_one] at hbehind
    exact eq_of_headD heof hrest hrest' hpeek hbehind

/-- The view, in which the last `n` tokens passed are still to be seen, stands behind a first part of
the tokens, of which `P` holds. -/
def Stands (eof : Token) (n : Nat) (tokens : List Token) (view : Lookahead)
    (P : List Lexeme → List Token → Prop) : Prop :=
  ∃ front rest last, tokens = front ++ rest ∧ last.length = n ∧ view = window eof (last ++ rest) ∧
    P (front.map Token.lexeme) rest

theorem headD_append_congr {rest rest' : List Token} (h : rest'.headD eof = rest.headD eof)
    (front : List Token) : (front ++ rest').headD eof = (front ++ rest).headD eof := by
  cases front with
  | nil => exact h
  | cons => rfl

theorem run_bind_error {p : Parser α} {f : α → Parser β} {view : Lookahead} {error : ParseError} :
    (p >>= f).run view = .error error ↔ p.run view = .error error ∨
      ∃ a next, p.run view = .ok (a, next) ∧ (f a).run next = .error error := by
  rw [StateT.run_bind]
  cases p.run view with
  | error error => simp [bind, Except.bind]
  | ok result =>
    obtain ⟨a, next⟩ := result
    simp [bind, Except.bind, and_assoc]

/-! ## Verdicts -/

/-- What the run of `p` says about the runs of each `q` on other tokens. The tokens `seen` are in view
but passed, and `n` such tokens are in view at the end; `L` are the lexemes that may stand in the place
of the tokens. -/
structure Verdict (eof : Token) (n : Nat) (p : Parser α) (q : ι → Parser α) (seen tokens : List Token)
    (L : List Lexeme → Prop) : Prop where
  reads {a : α} {view : Lookahead} : p.run (window eof (seen ++ tokens)) = .ok (a, view) →
    ∃ front rest last, tokens = front ++ rest ∧ last.length = n ∧ view = window eof (last ++ rest) ∧
      ∀ i rest', rest'.headD eof = rest.headD eof →
        (q i).run (window eof (seen ++ (front ++ rest'))) = .ok (a, window eof (last ++ rest'))
  refuses {expected : Expectation} {found : Token} :
    p.run (window eof (seen ++ tokens)) = .error (.unexpected expected found) →
    ∃ front rest, tokens = front ++ rest ∧ found = rest.headD eof ∧ expected ≠ .token .eof ∧
      Viable L (front.map Token.lexeme ++ [expected.sample]) ∧
      ∀ i rest', rest'.headD eof = rest.headD eof →
        ∀ r, (q i).run (window eof (seen ++ (front ++ rest'))) ≠ .ok r

variable {m n : Nat} {p : Parser α} {q : ι → Parser α} {seen tokens : List Token}

theorem Verdict.imp (h : Verdict eof n p q seen tokens L) (hL : ∀ ls, L ls → Viable M ls) :
    Verdict eof n p q seen tokens M where
  reads := h.reads
  refuses hrun := by
    obtain ⟨front, rest, htokens, hfound, hexpected, hviable, hrefuses⟩ := h.refuses hrun
    exact ⟨front, rest, htokens, hfound, hexpected, hviable.bind hL, hrefuses⟩

theorem Verdict.congr {p' : Parser α} {q' : ι → Parser α} (h : Verdict eof n p' q' seen tokens L)
    (hp : p.run (window eof (seen ++ tokens)) = p'.run (window eof (seen ++ tokens)))
    (hq : ∀ i tokens', tokens'.headD eof = tokens.headD eof →
      (q i).run (window eof (seen ++ tokens')) = (q' i).run (window eof (seen ++ tokens'))) :
    Verdict eof n p q seen tokens L where
  reads hrun := by
    obtain ⟨front, rest, last, rfl, hlast, hview, hreads⟩ := h.reads (hp.symm.trans hrun)
    refine ⟨front, rest, last, rfl, hlast, hview, fun i rest' hnext => ?_⟩
    rw [hq i _ (headD_append_congr hnext front)]
    exact hreads i rest' hnext
  refuses hrun := by
    obtain ⟨front, rest, rfl, hfound, hexpected, hviable, hrefuses⟩ := h.refuses (hp.symm.trans hrun)
    refine ⟨front, rest, rfl, hfound, hexpected, hviable, fun i rest' hnext => ?_⟩
    rw [hq i _ (headD_append_congr hnext front)]
    exact hrefuses i rest' hnext

theorem Verdict.pure (a : α) (hseen : seen.length = n) :
    Verdict eof n (Pure.pure a) (fun _ : ι => Pure.pure a) seen tokens L where
  reads hrun := by
    obtain ⟨rfl, rfl⟩ := run_pure_ok.mp hrun
    exact ⟨[], tokens, seen, rfl, hseen, rfl, fun _ rest' _ => rfl⟩
  refuses hrun := by cases hrun

theorem Verdict.throw {error : ParseError} (h : ∀ expected found, error ≠ .unexpected expected found) :
    Verdict eof n (MonadExcept.throw error) q seen tokens L where
  reads hrun := by cases hrun
  refuses hrun := by
    cases hrun
    exact absurd rfl (h _ _)

theorem Verdict.nestingTooDeep : Verdict eof n nestingTooDeep q seen tokens L where
  reads hrun := by cases hrun
  refuses hrun := by cases hrun

theorem Verdict.unexpected {expected : Expectation} (hexpected : expected ≠ .token .eof)
    (hL : Viable L [expected.sample]) {found : Token} (hfound : found = tokens.headD eof) :
    Verdict eof n (unexpected expected found : Parser α)
      (fun _ : ι => Parser.unexpected expected found) seen tokens L where
  reads hrun := absurd hrun run_unexpected_ne_ok
  refuses hrun := by
    cases hrun
    exact ⟨[], tokens, rfl, hfound, hexpected, hL, fun _ _ _ _ => run_unexpected_ne_ok⟩

theorem Verdict.ite {c : Prop} [Decidable c] {p' : Parser α} {q' : ι → Parser α}
    (hp : c → Verdict eof n p q seen tokens L)
    (hp' : ¬ c → Verdict eof n p' q' seen tokens L) :
    Verdict eof n (if c then p else p') (fun i => if c then q i else q' i) seen tokens L := by
  by_cases hc : c
  · simp only [if_pos hc]
    exact hp hc
  · simp only [if_neg hc]
    exact hp' hc

theorem Verdict.consume {token : Token}
    (h : Verdict eof n p q [token] tokens fun ls => L (token.lexeme :: ls)) :
    Verdict eof n p q [] (token :: tokens) L where
  reads hrun := by
    obtain ⟨front, rest, last, rfl, hlast, hview, hreads⟩ := h.reads hrun
    exact ⟨token :: front, rest, last, rfl, hlast, hview, hreads⟩
  refuses hrun := by
    obtain ⟨front, rest, rfl, hfound, hexpected, hviable, hrefuses⟩ := h.refuses hrun
    refine ⟨token :: front, rest, rfl, hfound, hexpected, ?_, hrefuses⟩
    exact @Viable.behind L [token.lexeme] _ hviable

section Continuations

variable {f : Token → Parser α} {g : ι → Token → Parser α}

theorem Verdict.current_seen {token : Token}
    (h : Verdict eof n (f token) (fun i => g i token) [token] tokens L) :
    Verdict eof n (current >>= f) (fun i => current >>= g i) [token] tokens L :=
  h.congr rfl fun _ _ _ => rfl

theorem Verdict.current
    (h : Verdict eof n (f (tokens.headD eof)) (fun i => g i (tokens.headD eof)) [] tokens L) :
    Verdict eof n (Parser.current >>= f) (fun i => Parser.current >>= g i) [] tokens L :=
  h.congr rfl fun _ tokens' hhead => by
    rw [← hhead]
    rfl

theorem Verdict.peek {last : Token}
    (h : Verdict eof n (f (tokens.headD eof)) (fun i => g i (tokens.headD eof)) [last] tokens L) :
    Verdict eof n (Parser.peek >>= f) (fun i => Parser.peek >>= g i) [last] tokens L :=
  h.congr rfl fun _ tokens' hhead => by
    rw [← hhead]
    rfl

theorem Verdict.advance {f : Unit → Parser α} {g : ι → Unit → Parser α} {last : Token}
    (h : Verdict eof n (f ()) (fun i => g i ()) [] tokens L) :
    Verdict eof n (Parser.advance >>= f) (fun i => Parser.advance >>= g i) [last] tokens L where
  reads hrun := by
    obtain ⟨front, rest, last', htokens, hlast, hview, hreads⟩ :=
      h.reads ((run_advance_bind _).symm.trans hrun)
    exact ⟨front, rest, last', htokens, hlast, hview, fun i rest' hnext =>
      (run_advance_bind _).trans (hreads i rest' hnext)⟩
  refuses hrun := by
    obtain ⟨front, rest, htokens, hfound, hexpected, hviable, hrefuses⟩ :=
      h.refuses ((run_advance_bind _).symm.trans hrun)
    exact ⟨front, rest, htokens, hfound, hexpected, hviable, fun i rest' hnext r hr =>
      hrefuses i rest' hnext r ((run_advance_bind _).symm.trans hr)⟩

theorem Verdict.expect (heof : eof.kind = .eof) {kind : TokenKind} (hkind : kind ≠ .eof) {last : Token}
    (hL : Viable L [.sample kind])
    (h : ∀ token rest, tokens = token :: rest → token.kind = kind →
      Verdict eof n (f token) (fun i => g i token) [token] rest fun ls => L (token.lexeme :: ls)) :
    Verdict eof n (Parser.expect kind >>= f) (fun i => Parser.expect kind >>= g i) [last] tokens L := by
  simp only [expect_bind]
  refine .peek (.ite (fun hnext => .advance ?_) fun _ => .unexpected ?_ hL rfl)
  · rcases tokens with _ | ⟨token, rest⟩
    · exact absurd (hnext.symm.trans heof) hkind
    · exact .consume (h token rest rfl hnext)
  · rintro ⟨⟩
    exact hkind rfl

end Continuations

theorem Verdict.reads_stands (heof : eof.kind = .eof) {bound : Nat} (hleft : Left bound tokens)
    (hn : n ≤ 1) (h : Verdict eof n p q seen tokens L) {a : α} {view : Lookahead}
    (hrun : p.run (window eof (seen ++ tokens)) = .ok (a, view)) {P : List Lexeme → List Token → Prop}
    (hstands : Stands eof n tokens view P) :
    ∃ front rest last, tokens = front ++ rest ∧ last.length = n ∧ view = window eof (last ++ rest) ∧
      P (front.map Token.lexeme) rest ∧ ∀ i rest', rest'.headD eof = rest.headD eof →
        (q i).run (window eof (seen ++ (front ++ rest'))) = .ok (a, window eof (last ++ rest')) := by
  obtain ⟨front, rest, last, htokens, hlast, hview, hreads⟩ := h.reads hrun
  obtain ⟨front', rest', last', htokens', hlast', hview', hP⟩ := hstands
  obtain rfl := rest_of_window heof hn hlast hlast' (htokens ▸ hleft).behind.free
    (htokens' ▸ hleft).behind.free (hview.symm.trans hview')
  obtain rfl := List.append_cancel_right (htokens.symm.trans htokens')
  exact ⟨front, rest, last, htokens, hlast, hview, hP, hreads⟩

variable {f : α → Parser β} {g : ι → α → Parser β}

theorem Verdict.bind (heof : eof.kind = .eof) {bound : Nat} (hleft : Left bound tokens) (hm : m ≤ 1)
    {K : α → List Lexeme → List Token → Prop} (h : Verdict eof m p q seen tokens L)
    (hK : ∀ a view, p.run (window eof (seen ++ tokens)) = .ok (a, view) →
      Stands eof m tokens view (K a))
    (hclose : ∀ ls, L ls → Viable M ls)
    (hf : ∀ a front rest last, tokens = front ++ rest → last.length = m → Left bound rest →
      K a (front.map Token.lexeme) rest →
      Verdict eof n (f a) (fun i => g i a) last rest fun ls => M (front.map Token.lexeme ++ ls)) :
    Verdict eof n (p >>= f) (fun i => q i >>= g i) seen tokens M := by
  have hp := fun {a view} hrun => h.reads_stands heof hleft hm hrun (hK a view hrun)
  constructor
  · intro b view hrun
    obtain ⟨a, next, hfirst, hrun⟩ := run_bind_ok.mp hrun
    obtain ⟨front, rest, last, rfl, hlast, rfl, hKa, hreads⟩ := hp hfirst
    obtain ⟨front', rest', last', rfl, hlast', hview, hreads'⟩ :=
      (hf a front rest last rfl hlast hleft.behind hKa).reads hrun
    refine ⟨front ++ front', rest', last', by simp, hlast', hview, fun i rest'' hnext => ?_⟩
    rw [List.append_assoc]
    refine run_bind_ok.mpr ⟨a, _, hreads i _ (headD_append_congr hnext front'), ?_⟩
    exact hreads' i rest'' hnext
  · intro expected found hrun
    rcases run_bind_error.mp hrun with hfirst | ⟨a, next, hfirst, hrun⟩
    · obtain ⟨front, rest, htokens, hfound, hexpected, hviable, hrefuses⟩ := h.refuses hfirst
      refine ⟨front, rest, htokens, hfound, hexpected, hviable.bind hclose, fun i rest' hnext r hr => ?_⟩
      obtain ⟨a, next, hq, -⟩ := run_bind_ok.mp hr
      exact hrefuses i rest' hnext _ hq
    · obtain ⟨front, rest, last, rfl, hlast, rfl, hKa, hreads⟩ := hp hfirst
      obtain ⟨front', rest', rfl, hfound, hexpected, hviable, hrefuses⟩ :=
        (hf a front rest last rfl hlast hleft.behind hKa).refuses hrun
      refine ⟨front ++ front', rest', by simp, hfound, hexpected, ?_, fun i rest'' hnext r hr => ?_⟩
      · rw [List.map_append, List.append_assoc]
        exact hviable.behind
      · rw [List.append_assoc] at hr
        obtain ⟨b, next, hq, hr⟩ := run_bind_ok.mp hr
        rw [hreads i _ (headD_append_congr hnext front')] at hq
        cases hq
        exact hrefuses i rest'' hnext r hr

theorem Verdict.andThen (heof : eof.kind = .eof) {bound : Nat} (hleft : Left bound tokens)
    {K : α → List Lexeme → List Token → Prop} (h : Verdict eof 1 p q seen tokens L)
    (hK : ∀ a view, p.run (window eof (seen ++ tokens)) = .ok (a, view) →
      Stands eof 1 tokens view (K a))
    (hclose : ∀ ls, L ls → Viable M ls)
    (hf : ∀ a front rest last, tokens = front ++ rest → Left bound rest →
      K a (front.map Token.lexeme) rest →
      Verdict eof n (f a) (fun i => g i a) [last] rest fun ls => M (front.map Token.lexeme ++ ls)) :
    Verdict eof n (p >>= f) (fun i => q i >>= g i) seen tokens M := by
  refine h.bind heof hleft (Nat.le_refl 1) hK hclose fun a front rest last htokens hlast => ?_
  obtain ⟨token, rfl⟩ := List.length_eq_one_iff.mp hlast
  exact hf a front rest token htokens

theorem Verdict.map (f : α → β) (h : Verdict eof n p q seen tokens L) :
    Verdict eof n (p >>= fun a => Pure.pure (f a)) (fun i => q i >>= fun a => Pure.pure (f a)) seen tokens
      L where
  reads hrun := by
    obtain ⟨a, next, hfirst, hrun⟩ := run_bind_ok.mp hrun
    obtain ⟨rfl, rfl⟩ := run_pure_ok.mp hrun
    obtain ⟨front, rest, last, htokens, hlast, hview, hreads⟩ := h.reads hfirst
    exact ⟨front, rest, last, htokens, hlast, hview, fun i rest' hnext =>
      run_bind_ok.mpr ⟨a, _, hreads i rest' hnext, rfl⟩⟩
  refuses hrun := by
    rcases run_bind_error.mp hrun with hfirst | ⟨a, next, -, hrun⟩
    · obtain ⟨front, rest, htokens, hfound, hexpected, hviable, hrefuses⟩ := h.refuses hfirst
      refine ⟨front, rest, htokens, hfound, hexpected, hviable, fun i rest' hnext r hr => ?_⟩
      obtain ⟨a, next, hq, -⟩ := run_bind_ok.mp hr
      exact hrefuses i rest' hnext _ hq
    · cases hrun

end Parser
end MonkeyLang
