import MonkeyLang.Proofs.Ast.Simulation

namespace MonkeyLang

def TokenStream.Holds (stream : TokenStream) (token : Token) : Prop :=
  token ∈ stream.tokens ∨ stream.ending = .ok token

def ParseError.About (stream : TokenStream) : ParseError → Prop
  | .lexical error => stream.ending = .error error
  | .unexpected _ found | .nestingTooDeep found => stream.Holds found
  | .tooManyDigits digits => ∃ token, stream.Holds token ∧ token.kind = .integer ∧
      digits = token.literal.length ∧ maxDigits < digits

namespace Parser

variable {α β : Type} {stream : TokenStream}

structure Sees (stream : TokenStream) (view : Lookahead) : Prop where
  current : stream.Holds view.current
  peek : stream.Holds view.peek
  tokens : ∀ token ∈ view.rest.tokens, token ∈ stream.tokens
  ending : view.rest.ending = stream.ending

theorem pull_sourced {rest : TokenStream} (htokens : ∀ token ∈ rest.tokens, token ∈ stream.tokens)
    (hending : rest.ending = stream.ending) :
    (∃ error : ParseError, pull rest = .error error ∧ error.About stream) ∨
      ∃ token last, pull rest = .ok (token, last) ∧ stream.Holds token ∧
        (∀ token ∈ last.tokens, token ∈ stream.tokens) ∧ last.ending = stream.ending := by
  obtain ⟨tokens, ending⟩ := rest
  rcases tokens with _ | ⟨token, tokens⟩
  · cases ending with
    | error error => exact .inl ⟨.lexical error, rfl, hending.symm⟩
    | ok eof => exact .inr ⟨eof, ⟨[], .ok eof⟩, rfl, .inr hending.symm, htokens, hending⟩
  · obtain ⟨htoken, hrest⟩ := List.forall_mem_cons.mp htokens
    exact .inr ⟨token, ⟨tokens, ending⟩, rfl, .inl htoken, hrest, hending⟩

def Sourced (stream : TokenStream) (p : Parser α) : Prop :=
  ∀ view, Sees stream view →
    match p.run view with
    | .ok (_, next) => Sees stream next
    | .error error => error.About stream

namespace Sourced

theorem pure (a : α) : Sourced stream (Pure.pure a) :=
  fun _ h => h

theorem throw {error : ParseError} (h : error.About stream) :
    Sourced stream (MonadExcept.throw error : Parser α) :=
  fun _ _ => h

theorem unexpected (expected : Expectation) {found : Token} (h : stream.Holds found) :
    Sourced stream (unexpected expected found : Parser α) :=
  .throw h

theorem bind {p : Parser α} {f : α → Parser β} (h : Sourced stream p) (hf : ∀ a, Sourced stream (f a)) :
    Sourced stream (p >>= f) := by
  intro view hview
  have hrun := h view hview
  rw [StateT.run_bind]
  generalize p.run view = result at hrun ⊢
  cases result with
  | error error => exact hrun
  | ok result => exact hf result.1 result.2 hrun

theorem ite {c : Prop} [Decidable c] {p q : Parser α} (hp : c → Sourced stream p)
    (hq : ¬ c → Sourced stream q) : Sourced stream (if c then p else q) := by
  by_cases hc : c
  · rw [if_pos hc]
    exact hp hc
  · rw [if_neg hc]
    exact hq hc

theorem current {f : Token → Parser α} (h : ∀ token, stream.Holds token → Sourced stream (f token)) :
    Sourced stream (Parser.current >>= f) :=
  fun view hview => h view.current hview.current view hview

theorem nestingTooDeep : Sourced stream (Parser.nestingTooDeep : Parser α) :=
  .current fun _ htoken => .throw htoken

theorem peek {f : Token → Parser α} (h : ∀ token, stream.Holds token → Sourced stream (f token)) :
    Sourced stream (Parser.peek >>= f) :=
  fun view hview => h view.peek hview.peek view hview

theorem advance : Sourced stream Parser.advance := by
  intro view hview
  rw [run_advance_eq]
  rcases pull_sourced hview.tokens hview.ending with ⟨error, hpull, herror⟩ | ⟨token, rest, hpull, h⟩
  · rw [hpull]
    exact herror
  · obtain ⟨htoken, hrest, hending⟩ := h
    rw [hpull]
    exact ⟨hview.peek, htoken, hrest, hending⟩

theorem expect (kind : TokenKind) : Sourced stream (expect kind) :=
  .peek fun _ htoken => .ite (fun _ => .bind .advance fun _ => .pure _) fun _ => .unexpected _ htoken

end Sourced

section Loops

variable {item : Parser α} (h : Sourced stream item)
include h

theorem sourced_moreItems (rounds : Nat) : Sourced stream (moreItems item rounds) := by
  induction rounds with
  | zero => exact .pure _
  | succ rounds ih =>
    refine .peek fun _ _ => .ite (fun _ => .bind .advance fun _ => ?_) fun _ => .pure _
    exact .bind h fun _ => .bind ih fun _ => .pure _

theorem sourced_items (rounds : Nat) (close : TokenKind) : Sourced stream (items rounds item close) := by
  refine .peek fun _ _ => .ite (fun _ => .bind .advance fun _ => .pure _) fun _ => ?_
  exact .bind h fun _ => .bind (sourced_moreItems h rounds) fun _ => .bind (.expect _) fun _ => .pure _

end Loops

theorem sourced_skipSemicolons (rounds : Nat) : Sourced stream (skipSemicolons rounds) := by
  induction rounds with
  | zero => exact .pure _
  | succ rounds ih =>
    exact .current fun _ _ => .ite (fun _ => .bind .advance fun _ => ih) fun _ => .pure _

theorem sourced_statements {statement : Parser Stmt} (h : Sourced stream statement) (rounds : Nat) :
    Sourced stream (statements statement rounds) := by
  induction rounds with
  | zero => exact .pure _
  | succ rounds ih =>
    refine .current fun _ _ => .ite (fun _ => .pure _) fun _ => .bind h fun _ => .bind .advance fun _ => ?_
    exact .bind (sourced_skipSemicolons rounds) fun _ => .bind ih fun _ => .pure _

theorem sourced_block {program : Parser Block} (h : Sourced stream program) : Sourced stream (block program) :=
  .bind .advance fun _ => .bind h fun _ => .current fun _ hlast =>
    .ite (fun _ => .pure _) fun _ => .unexpected _ hlast

theorem sourced_integer {token : Token} (h : stream.Holds token) (hkind : token.kind = .integer) :
    Sourced stream (integer token) :=
  .ite (fun hdigits => .throw ⟨token, h, hkind, rfl, hdigits⟩) fun _ =>
    .ite (fun _ => .unexpected _ h) fun _ => .pure _

theorem sourced_ident : Sourced stream ident :=
  .bind (.expect _) fun _ => .pure _

section Productions

variable {expression : Precedence → Parser Expr} {program : Parser Block}
  (he : ∀ precedence, Sourced stream (expression precedence)) (hp : Sourced stream program)

include he

theorem sourced_nextExpression : Sourced stream (nextExpression expression) :=
  .bind .advance fun _ => he .lowest

theorem sourced_pair : Sourced stream (pair expression) :=
  .bind (sourced_nextExpression he) fun _ => .bind (.expect _) fun _ =>
    .bind (sourced_nextExpression he) fun _ => .pure _

theorem sourced_suffix (rounds : Nat) (left : Expr) (next : Suffix) :
    Sourced stream (suffix rounds expression left next) := by
  have hnext := sourced_nextExpression he
  cases next with
  | operator operator precedence =>
    exact .current fun _ _ => .bind .advance fun _ => .bind (he precedence) fun _ => .pure _
  | call => exact .current fun _ _ => .bind (sourced_items hnext _ _) fun _ => .pure _
  | index => exact .current fun _ _ => .bind hnext fun _ => .bind (.expect _) fun _ => .pure _

theorem sourced_extend (rounds : Nat) (precedence : Precedence) (fuel : Nat) (left : Expr) :
    Sourced stream (extend rounds expression precedence fuel left) := by
  induction fuel generalizing left with
  | zero => exact .pure _
  | succ fuel ih =>
    refine .peek fun token _ => ?_
    cases Suffix.ofKind? token.kind with
    | none => exact .pure _
    | some next =>
      refine .ite (fun _ => ?_) fun _ => .pure _
      exact .bind .advance fun _ => .bind (sourced_suffix he rounds left next) ih

include hp

theorem sourced_operand (rounds : Nat) : Sourced stream (operand rounds expression program) := by
  have hnext := sourced_nextExpression he
  refine .current fun token htoken => ?_
  split
  case h_2 hkind => exact sourced_integer htoken hkind
  case h_6 | h_7 => exact .bind .advance fun _ => .bind (he .unary) fun _ => .pure _
  case h_8 => exact .bind hnext fun _ => .bind (.expect _) fun _ => .pure _
  case h_9 =>
    refine .bind (.expect _) fun _ => .bind (sourced_items sourced_ident _ _) fun _ => ?_
    exact .bind (.expect _) fun _ => .bind (sourced_block hp) fun _ => .pure _
  case h_10 => exact .bind (sourced_items hnext _ _) fun _ => .pure _
  case h_11 => exact .bind (sourced_items (sourced_pair he) _ _) fun _ => .pure _
  case h_12 => exact .unexpected _ htoken
  all_goals exact .pure _

theorem sourced_branch : Sourced stream (branch expression program) := by
  have hblock := sourced_block hp
  refine .current fun _ _ => .bind (.expect _) fun _ => .bind (sourced_nextExpression he) fun _ => ?_
  refine .bind (.expect _) fun _ => .bind (.expect _) fun _ => .bind hblock fun _ => .peek fun _ _ => ?_
  refine .ite (fun _ => .bind .advance fun _ => .bind (.expect _) fun _ => ?_) fun _ => .pure _
  exact .bind hblock fun _ => .pure _

theorem sourced_statement : Sourced stream (statement expression program) := by
  have hnext := sourced_nextExpression he
  refine .current fun token _ => ?_
  split
  case h_1 =>
    refine .bind sourced_ident fun _ => .bind (.expect _) fun _ => ?_
    exact .bind hnext fun _ => .pure _
  case h_2 => exact .bind hnext fun _ => .pure _
  case h_3 => exact sourced_branch he hp
  case h_4 => exact .bind (he .lowest) fun _ => .pure _

end Productions

theorem sourced_within (rounds depth : Nat) :
    (∀ precedence, Sourced stream (expressionWithin rounds depth precedence)) ∧
      Sourced stream (programWithin rounds depth) := by
  induction depth with
  | zero =>
    constructor
    · intro precedence
      rw [expressionWithin]
      exact .nestingTooDeep
    · rw [programWithin]
      exact .nestingTooDeep
  | succ depth ih =>
    obtain ⟨he, hp⟩ := ih
    constructor
    · intro precedence
      rw [expressionWithin]
      exact .bind (sourced_operand he hp rounds) fun left => sourced_extend he rounds precedence rounds left
    · rw [programWithin]
      refine .current fun _ _ => ?_
      exact .bind (sourced_statements (sourced_statement he hp) rounds) fun _ => .pure _

theorem start_sourced (stream : TokenStream) :
    match start stream with
    | .ok view => Sees stream view
    | .error error => error.About stream := by
  unfold start
  rcases @pull_sourced stream stream (fun _ mem => mem) rfl with
    ⟨error, hpull, herror⟩ | ⟨first, rest, hpull, h⟩
  · rw [hpull]
    exact herror
  obtain ⟨hfirst, htokens, hending⟩ := h
  simp only [hpull, bind, Except.bind]
  rcases pull_sourced htokens hending with ⟨error, hpull', herror⟩ | ⟨second, rest', hpull', h⟩
  · rw [hpull']
    exact herror
  · obtain ⟨hsecond, htokens', hending'⟩ := h
    rw [hpull']
    exact ⟨hfirst, hsecond, htokens', hending'⟩

theorem about_of_parseStream {depth : Nat} {stream : TokenStream} {error : ParseError}
    (h : parseStream depth stream = .error error) : error.About stream := by
  have hstart := start_sourced stream
  simp only [parseStream, bind, Except.bind] at h
  generalize start stream = first at h hstart
  cases first with
  | error error' =>
    cases h
    exact hstart
  | ok view =>
    have hrun := (sourced_within (stream.tokens.length + 1) depth).2 view hstart
    simp only at h
    generalize (programWithin (stream.tokens.length + 1) depth).run view = result at h hrun
    cases result with
    | error error' =>
      cases h
      exact hrun
    | ok result =>
      simp only at h
      split at h
      · cases h
      · cases h
        exact hrun.current

end Parser

theorem about_of_parseWithin {depth : Nat} {source : String} {error : ParseError}
    (h : parseWithin depth source = .error error) : error.About (.ofSource source) :=
  Parser.about_of_parseStream h

end MonkeyLang
