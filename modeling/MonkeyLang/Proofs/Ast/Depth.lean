import MonkeyLang.Proofs.Ast.Simulation
import MonkeyLang.Proofs.Ast.Unbounded
import MonkeyLang.Proofs.Ast.Window

namespace MonkeyLang.Parser

variable {α β : Type}

/-- A view that requests to a lexer can give: the end of input is answered by itself ever after. -/
structure Lawful (view : Lookahead) : Prop where
  current : view.current.kind = .eof → view.peek = view.current
  peek : view.peek.kind = .eof → view.rest = ⟨[], .ok view.peek⟩
  rest : view.rest.WellEnded

def front (tokens : List Token) : List Token :=
  tokens.takeWhile (·.kind ≠ .eof)

theorem front_cons {token : Token} (h : token.kind ≠ .eof) (tokens : List Token) :
    front (token :: tokens) = token :: front tokens := by
  simp [front, h]

theorem front_eof {token : Token} (h : token.kind = .eof) (tokens : List Token) :
    front (token :: tokens) = [] := by
  simp [front, h]

theorem front_of_before {tokens : List Token} (h : ∀ token ∈ tokens, token.kind ≠ .eof) :
    front tokens = tokens := by
  induction tokens with
  | nil => rfl
  | cons token tokens ih =>
    obtain ⟨htoken, htokens⟩ := List.forall_mem_cons.mp h
    rw [front_cons htoken, ih htokens]

theorem kind_of_mem_front {tokens : List Token} : ∀ token ∈ front tokens, token.kind ≠ .eof := by
  induction tokens with
  | nil => exact fun _ mem => absurd mem List.not_mem_nil
  | cons token tokens ih =>
    by_cases h : token.kind = .eof
    · rw [front_eof h]
      exact fun _ mem => absurd mem List.not_mem_nil
    · rw [front_cons h]
      exact List.forall_mem_cons.mpr ⟨h, ih⟩

def upcoming (view : Lookahead) : List Token :=
  front (view.current :: view.peek :: view.rest.tokens)

theorem upcoming_eq_nil {view : Lookahead} : upcoming view = [] ↔ view.current.kind = .eof := by
  by_cases h : view.current.kind = .eof
  · exact iff_of_true (front_eof h _) h
  · rw [upcoming, front_cons h]
    simp [h]

namespace Lawful

variable {view : Lookahead} (hview : Lawful view)
include hview

theorem upcoming_of_peek (hpeek : view.peek.kind ≠ .eof) :
    upcoming view = view.current :: view.peek :: view.rest.tokens := by
  have hcurrent : view.current.kind ≠ .eof := by
    intro heof
    rw [hview.current heof] at hpeek
    exact hpeek heof
  rw [upcoming, front_cons hcurrent, front_cons hpeek, front_of_before hview.rest.before]

theorem tail_upcoming : (upcoming view).tail = front (view.peek :: view.rest.tokens) := by
  by_cases hcurrent : view.current.kind = .eof
  · have hpeek : view.peek.kind = .eof := by rw [hview.current hcurrent, hcurrent]
    rw [upcoming, front_eof hcurrent, front_eof hpeek]
    rfl
  · rw [upcoming, front_cons hcurrent]
    rfl

theorem peek_of_length (h : (upcoming view).length ≤ 1) : view.peek.kind = .eof := by
  refine Decidable.byContradiction fun hpeek => ?_
  rw [hview.upcoming_of_peek hpeek] at h
  simp at h

end Lawful

theorem pull_ok {stream rest : TokenStream} {token : Token} (hstream : stream.WellEnded)
    (h : pull stream = .ok (token, rest)) :
    rest.WellEnded ∧ front (token :: rest.tokens) = stream.tokens ∧
      (token.kind = .eof → stream = ⟨[], .ok token⟩ ∧ rest = stream) := by
  obtain ⟨tokens, ending⟩ := stream
  rcases tokens with _ | ⟨first, tokens⟩
  · cases ending with
    | error error => cases h
    | ok eof =>
      cases h
      exact ⟨hstream, front_eof (hstream.ending _ rfl) _, fun _ => ⟨rfl, rfl⟩⟩
  · cases h
    obtain ⟨hfirst, htokens⟩ := List.forall_mem_cons.mp hstream.before
    exact ⟨⟨htokens, hstream.ending⟩, front_of_before hstream.before, fun heof => absurd heof hfirst⟩

theorem pull_ne_nestingTooDeep (stream : TokenStream) (found : Token) :
    pull stream ≠ .error (.nestingTooDeep found) := by
  intro h
  unfold pull at h
  cases hnext : stream.next with
  | error error =>
    rw [hnext] at h
    cases h
  | ok next =>
    rw [hnext] at h
    cases h

theorem start_ne_nestingTooDeep (stream : TokenStream) (found : Token) :
    start stream ≠ .error (.nestingTooDeep found) := by
  intro h
  simp only [start, bind, Except.bind] at h
  split at h
  next hfirst =>
    cases h
    exact pull_ne_nestingTooDeep _ found hfirst
  next =>
    split at h
    next hsecond =>
      cases h
      exact pull_ne_nestingTooDeep _ found hsecond
    next => cases h

theorem lawful_pulled {stream rest : TokenStream} {current token : Token} (hstream : stream.WellEnded)
    (hcurrent : current.kind = .eof → stream = ⟨[], .ok current⟩)
    (h : pull stream = .ok (token, rest)) : Lawful ⟨current, token, rest⟩ ∧
      upcoming ⟨current, token, rest⟩ = front (current :: stream.tokens) := by
  obtain ⟨hends, htokens, heof⟩ := pull_ok hstream h
  refine ⟨⟨fun hkind => ?_, fun hkind => ?_, hends⟩, ?_⟩
  · rw [hcurrent hkind] at h
    cases h
    rfl
  · obtain ⟨rfl, rfl⟩ := heof hkind
    rfl
  · by_cases hkind : current.kind = .eof
    · rw [upcoming, front_eof hkind, front_eof hkind]
    · rw [upcoming, front_cons hkind, front_cons hkind, htokens, front_of_before hstream.before]

theorem start_ok {stream : TokenStream} {view : Lookahead} (hstream : stream.WellEnded)
    (h : start stream = .ok view) : Lawful view ∧ upcoming view = stream.tokens := by
  simp only [start, bind, Except.bind] at h
  split at h
  · cases h
  next first hfirst =>
    obtain ⟨hends, htokens, heof⟩ := pull_ok hstream hfirst
    split at h
    · cases h
    next second hsecond =>
      cases h
      rw [← htokens]
      refine lawful_pulled hends (fun hkind => ?_) hsecond
      obtain ⟨hempty, hrest⟩ := heof hkind
      exact hrest.trans hempty

theorem pull_of_advance {view next : Lookahead} (h : Parser.advance.run view = .ok ((), next)) :
    pull view.rest = .ok (next.peek, next.rest) ∧ next.current = view.peek := by
  rw [run_advance_eq] at h
  cases hpull : pull view.rest with
  | error error =>
    rw [hpull] at h
    cases h
  | ok result =>
    rw [hpull] at h
    cases h
    exact ⟨rfl, rfl⟩

/-- With no more than `n` tokens ahead the reader without bounds ends as the bounded one does, which does
not fail at the limit of nesting. As many blocks are open as before, and reading only moves on. -/
def Ends (blocks n : Nat) (p : Parser α) (q : Unbounded α) : Prop :=
  ∀ view, Lawful view → (upcoming view).length ≤ n →
    match p.run view with
    | .ok (a, next) => q.runFrom ⟨view, blocks⟩ = some (.ok a, ⟨next, blocks⟩) ∧
        Lawful next ∧ upcoming next <:+ upcoming view
    | .error error => (∀ found, error ≠ .nestingTooDeep found) ∧
        ∃ next, q.runFrom ⟨view, blocks⟩ = some (.error error, ⟨next, blocks⟩)

theorem runFrom_bind_ok {q : Unbounded α} {f : α → Unbounded β} {s after : Situation} {a : α}
    (h : q.runFrom s = some (.ok a, after)) : (q >>= f).runFrom s = (f a).runFrom after := by
  simp only [Unbounded.runFrom] at h ⊢
  rw [ExceptT.run_bind, StateT.run_bind, h]
  rfl

theorem runFrom_bind_error {q : Unbounded α} {f : α → Unbounded β} {s after : Situation}
    {error : ParseError} (h : q.runFrom s = some (.error error, after)) :
    (q >>= f).runFrom s = some (.error error, after) := by
  simp only [Unbounded.runFrom] at h ⊢
  rw [ExceptT.run_bind, StateT.run_bind, h]
  rfl

theorem runFrom_advance (s : Situation) : Unbounded.advance.runFrom s =
    match pull s.view.rest with
    | .error error => some (.error error, { s with view.current := s.view.peek })
    | .ok (token, rest) => some (.ok (), { s with view := ⟨s.view.peek, token, rest⟩ }) := by
  change Unbounded.runFrom { s with view.current := s.view.peek } (match pull s.view.rest with
    | .error error => throw error
    | .ok (token, rest) => set { s with view := ⟨s.view.peek, token, rest⟩ }) = _
  cases pull s.view.rest with
  | error error => rfl
  | ok result => rfl

namespace Ends

variable {blocks n : Nat}

theorem mono {m : Nat} {p : Parser α} {q : Unbounded α} (h : Ends blocks n p q) (hmn : m ≤ n) :
    Ends blocks m p q :=
  fun view hview hlength => h view hview (Nat.le_trans hlength hmn)

theorem pure (a : α) : Ends blocks n (Pure.pure a) (Pure.pure a) :=
  fun _ hview _ => ⟨rfl, hview, List.suffix_refl _⟩

theorem throw {error : ParseError} (h : ∀ found, error ≠ .nestingTooDeep found) :
    Ends blocks n (MonadExcept.throw error : Parser α) (MonadExcept.throw error) :=
  fun view _ _ => ⟨h, view, rfl⟩

theorem unexpected (expected : Expectation) (found : Token) :
    Ends blocks n (unexpected expected found : Parser α) (Unbounded.unexpected expected found) :=
  throw (by simp)

theorem bind {p : Parser α} {q : Unbounded α} {f : α → Parser β} {g : α → Unbounded β}
    (h : Ends blocks n p q) (hf : ∀ a, Ends blocks n (f a) (g a)) : Ends blocks n (p >>= f) (q >>= g) := by
  intro view hview hlength
  have hrun := h view hview hlength
  rw [StateT.run_bind]
  generalize p.run view = result at hrun ⊢
  cases result with
  | error error =>
    obtain ⟨herror, next, hq⟩ := hrun
    exact ⟨herror, next, runFrom_bind_error hq⟩
  | ok result =>
    obtain ⟨a, next⟩ := result
    obtain ⟨hq, hnext, hsuffix⟩ := hrun
    have hrest := hf a next hnext (Nat.le_trans hsuffix.length_le hlength)
    rw [runFrom_bind_ok hq]
    simp only [Bind.bind, Except.bind]
    generalize (f a).run next = last at hrest ⊢
    cases last with
    | error error => exact hrest
    | ok last => exact ⟨hrest.1, hrest.2.1, hrest.2.2.trans hsuffix⟩

theorem ite {c : Prop} [Decidable c] {p p' : Parser α} {q q' : Unbounded α}
    (h : c → Ends blocks n p q) (h' : ¬ c → Ends blocks n p' q') :
    Ends blocks n (if c then p else p') (if c then q else q') := by
  by_cases hc : c
  · rw [if_pos hc, if_pos hc]
    exact h hc
  · rw [if_neg hc, if_neg hc]
    exact h' hc

theorem current {f : Token → Parser α} {g : Token → Unbounded α}
    (h : ∀ token, (n = 0 → token.kind = .eof) → Ends blocks n (f token) (g token)) :
    Ends blocks n (Parser.current >>= f) (Unbounded.current >>= g) := by
  intro view hview hlength
  refine h view.current (fun hn => ?_) view hview hlength
  rw [hn] at hlength
  exact upcoming_eq_nil.mp (List.length_eq_zero_iff.mp (Nat.le_zero.mp hlength))

theorem peek {f : Token → Parser α} {g : Token → Unbounded α}
    (h : ∀ token, (n ≤ 1 → token.kind = .eof) → Ends blocks n (f token) (g token)) :
    Ends blocks n (Parser.peek >>= f) (Unbounded.peek >>= g) :=
  fun view hview hlength =>
    h view.peek (fun hn => hview.peek_of_length (Nat.le_trans hlength hn)) view hview hlength

theorem behind {f : Unit → Parser α} {g : Unit → Unbounded α} (h : Ends blocks (n - 1) (f ()) (g ())) :
    Ends blocks n (Parser.advance >>= f) (Unbounded.advance >>= g) := by
  intro view hview hlength
  have hadvance := runFrom_advance ⟨view, blocks⟩
  rw [StateT.run_bind, run_advance_eq]
  cases hpull : pull view.rest with
  | error error =>
    rw [hpull] at hadvance
    refine ⟨?_, _, runFrom_bind_error hadvance⟩
    rintro found rfl
    exact pull_ne_nestingTooDeep _ found hpull
  | ok result =>
    rw [hpull] at hadvance
    obtain ⟨hnext, htail⟩ := lawful_pulled hview.rest hview.peek hpull
    rw [← hview.tail_upcoming] at htail
    have hsuffix := htail ▸ List.tail_suffix (upcoming view)
    have hrest := h ⟨view.peek, result.1, result.2⟩ hnext (by rw [htail, List.length_tail]; omega)
    rw [runFrom_bind_ok hadvance]
    simp only [Bind.bind, Except.bind, Except.map]
    generalize (f ()).run _ = last at hrest ⊢
    cases last with
    | error error => exact hrest
    | ok last => exact ⟨hrest.1, hrest.2.1, hrest.2.2.trans hsuffix⟩

theorem advance : Ends blocks n Parser.advance Unbounded.advance := by
  rw [← bind_pure Parser.advance, ← bind_pure Unbounded.advance]
  exact behind (pure _)

theorem expect (kind : TokenKind) : Ends blocks n (expect kind) (Unbounded.expect kind) :=
  peek fun _ _ => ite (fun _ => bind advance fun _ => pure _) fun _ => unexpected _ _

end Ends

theorem unbounded_expect_bind (kind : TokenKind) (f : Token → Unbounded α) :
    Unbounded.expect kind >>= f = Unbounded.peek >>= fun token =>
      if token.kind = kind then Unbounded.advance >>= fun _ => f token
      else Unbounded.unexpected (.token kind) token := by
  rw [Unbounded.expect, bind_assoc]
  congr 1
  funext token
  split
  · rw [bind_assoc]
    rfl
  · rfl

theorem Ends.behindExpected {blocks n : Nat} {kind : TokenKind} {f : Token → Parser α}
    {g : Token → Unbounded α} (hkind : kind ≠ .eof)
    (h : ∀ m, n = m + 2 → ∀ token, Ends blocks (m + 1) (f token) (g token)) :
    Ends blocks n (Parser.expect kind >>= f) (Unbounded.expect kind >>= g) := by
  rw [expect_bind, unbounded_expect_bind]
  refine .peek fun token htoken => .ite (fun hfound => ?_) fun _ => .unexpected _ _
  match n with
  | 0 | 1 => exact absurd (hfound.symm.trans (htoken (by omega))) hkind
  | m + 2 => exact behind (h m rfl token)

variable {blocks n rounds : Nat}

section Items

variable {listing : Unbounded.Listing} {item : Parser listing.Item}

theorem ends_moreItems (h : Ends blocks n item (Unbounded.item listing)) (hrounds : n ≤ rounds) :
    Ends blocks n (moreItems item rounds) (Unbounded.moreItems listing) := by
  induction rounds generalizing n with
  | zero =>
    rw [Unbounded.moreItems, Unbounded.Phrase.read]
    change Ends blocks n (Parser.peek >>= fun _ => Pure.pure []) _
    refine .peek fun token htoken => ?_
    rw [htoken (by omega)]
    exact .pure _
  | succ rounds ih =>
    rw [moreItems, Unbounded.moreItems, Unbounded.Phrase.read]
    refine .peek fun _ _ => .ite (fun _ => .behind ?_) fun _ => .pure _
    have hitem := h.mono (Nat.sub_le n 1)
    exact .bind hitem fun _ => .bind (ih hitem (by omega)) fun _ => .pure _

theorem ends_items (h : Ends blocks n item (Unbounded.item listing)) (hrounds : n ≤ rounds)
    (close : TokenKind) : Ends blocks n (items rounds item close) (Unbounded.items listing close) := by
  rw [items, Unbounded.items, Unbounded.Phrase.read]
  refine .peek fun _ _ => .ite (fun _ => .bind .advance fun _ => .pure _) fun _ => ?_
  exact .bind h fun _ => .bind (ends_moreItems h hrounds) fun _ => .bind (.expect _) fun _ => .pure _

end Items

theorem ends_skipSemicolons (hrounds : n ≤ rounds) :
    Ends blocks n (skipSemicolons rounds) Unbounded.skipSemicolons := by
  induction rounds generalizing n with
  | zero =>
    rw [Unbounded.skipSemicolons, Unbounded.Phrase.read]
    change Ends blocks n (Parser.current >>= fun _ => Pure.pure ()) _
    refine .current fun token htoken => ?_
    rw [htoken (by omega)]
    exact .pure _
  | succ rounds ih =>
    rw [skipSemicolons, Unbounded.skipSemicolons, Unbounded.Phrase.read]
    exact .current fun _ _ => .ite (fun _ => .behind (ih (by omega))) fun _ => .pure _

theorem ends_statements {statement : Parser Stmt} (h : Ends blocks n statement Unbounded.statement)
    (hrounds : n ≤ rounds) : Ends blocks n (statements statement rounds) Unbounded.statements := by
  induction rounds generalizing n with
  | zero =>
    rw [Unbounded.statements, Unbounded.Phrase.read]
    change Ends blocks n (Parser.current >>= fun _ => Pure.pure []) _
    refine .current fun token htoken => ?_
    rw [endsBlock, htoken (by omega)]
    exact .pure _
  | succ rounds ih =>
    rw [statements, Unbounded.statements, Unbounded.Phrase.read]
    refine .current fun _ _ => .ite (fun _ => .pure _) fun _ => .bind h fun _ => .behind ?_
    refine .bind (ends_skipSemicolons (by omega)) fun _ => ?_
    exact .bind (ih (h.mono (Nat.sub_le n 1)) (by omega)) fun _ => .pure _

theorem ends_integer (token : Token) : Ends blocks n (integer token) (Unbounded.integer token) :=
  .ite (fun _ => .throw (by simp)) fun _ => .ite (fun _ => .unexpected _ _) fun _ => .pure _

theorem ends_ident : Ends blocks n ident Unbounded.ident :=
  .bind (.expect _) fun _ => .pure _

theorem ends_parameters (hrounds : n ≤ rounds) (close : TokenKind) :
    Ends blocks n (items rounds ident close) (Unbounded.items .parameters close) := by
  refine @ends_items blocks n rounds .parameters _ ?_ hrounds close
  rw [Unbounded.item, Unbounded.Phrase.read]
  exact ends_ident

theorem runFrom_inside {view next : Lookahead} {outcome : Except ParseError Block}
    (h : Unbounded.program.runFrom ⟨view, blocks + 1⟩ = some (outcome, ⟨next, blocks + 1⟩)) :
    Unbounded.runFrom ⟨view, blocks⟩ Unbounded.inside = some (outcome, ⟨next, blocks⟩) := by
  rw [Unbounded.inside, Unbounded.Phrase.read]
  change (Unbounded.program.runFrom ⟨view, blocks + 1⟩).bind
    (fun result => some (result.1, { result.2 with blocks := result.2.blocks - 1 })) = _
  rw [h]
  rfl

theorem ends_inside {program : Parser Block} (h : Ends (blocks + 1) n program Unbounded.program) :
    Ends blocks n program Unbounded.inside := by
  intro view hview hlength
  have hrun := h view hview hlength
  generalize program.run view = result at hrun ⊢
  cases result with
  | error error => exact ⟨hrun.1, hrun.2.imp fun _ => runFrom_inside⟩
  | ok result => exact ⟨runFrom_inside hrun.1, hrun.2⟩

theorem ends_block {program : Parser Block} (h : Ends (blocks + 1) (n - 1) program Unbounded.program) :
    Ends blocks n (block program) Unbounded.block := by
  rw [block, Unbounded.block, Unbounded.Phrase.read]
  refine .behind <| .bind (ends_inside h) fun _ => ?_
  exact .current fun _ _ => .ite (fun _ => .pure _) fun _ => .unexpected _ _

section Expressions

variable {expression : Precedence → Parser Expr}
  (he : ∀ precedence, Ends blocks (n - 1) (expression precedence) (Unbounded.expression precedence))
include he

theorem ends_nextExpression : Ends blocks n (nextExpression expression) Unbounded.nextExpression := by
  rw [Unbounded.nextExpression, Unbounded.Phrase.read]
  exact .behind (he .lowest)

theorem ends_pair : Ends blocks n (pair expression) Unbounded.pair := by
  have hnext := ends_nextExpression he
  rw [Unbounded.pair, Unbounded.Phrase.read]
  exact .bind hnext fun _ => .bind (.expect _) fun _ => .bind hnext fun _ => .pure _

theorem ends_values (hrounds : n ≤ rounds) (close : TokenKind) :
    Ends blocks n (items rounds (nextExpression expression) close) (Unbounded.items .values close) := by
  refine @ends_items blocks n rounds .values _ ?_ hrounds close
  rw [Unbounded.item, Unbounded.Phrase.read]
  exact ends_nextExpression he

theorem ends_entries (hrounds : n ≤ rounds) (close : TokenKind) :
    Ends blocks n (items rounds (pair expression) close) (Unbounded.items .entries close) := by
  refine @ends_items blocks n rounds .entries _ ?_ hrounds close
  rw [Unbounded.item, Unbounded.Phrase.read]
  exact ends_pair he

theorem ends_suffix (hrounds : n ≤ rounds) (left : Expr) (next : Suffix) :
    Ends blocks n (suffix rounds expression left next) (Unbounded.suffix left next) := by
  rw [Unbounded.suffix]
  cases next with
  | operator operator precedence =>
    rw [Unbounded.Phrase.read]
    exact .current fun _ _ => .behind <| .bind (he precedence) fun _ => .pure _
  | call =>
    rw [Unbounded.Phrase.read]
    exact .current fun _ _ => .bind (ends_values he hrounds _) fun _ => .pure _
  | index =>
    rw [Unbounded.Phrase.read]
    refine .current fun _ _ => .bind (ends_nextExpression he) fun _ => ?_
    exact .bind (.expect _) fun _ => .pure _

end Expressions

section Productions

variable {expression : Precedence → Parser Expr} {program : Parser Block} (hrounds : n ≤ rounds)
  (he : ∀ m < n, ∀ precedence, Ends blocks m (expression precedence) (Unbounded.expression precedence))

include hrounds he

theorem ends_extend {fuel : Nat} (hfuel : n ≤ fuel) (precedence : Precedence) (left : Expr) :
    Ends blocks n (extend rounds expression precedence fuel left) (Unbounded.extend precedence left) := by
  induction fuel generalizing n left with
  | zero =>
    rw [Unbounded.extend, Unbounded.Phrase.read]
    change Ends blocks n (Parser.peek >>= fun _ => Pure.pure left) _
    refine .peek fun token htoken => ?_
    rw [htoken (by omega)]
    exact .pure _
  | succ fuel ih =>
    rw [extend, Unbounded.extend, Unbounded.Phrase.read]
    refine .peek fun token htoken => ?_
    cases hnext : Suffix.ofKind? token.kind with
    | none => exact .pure _
    | some next =>
      -- A suffix begins at a token, which is not the end of input.
      have hn : 1 < n := by
        refine Nat.lt_of_not_le fun hn => ?_
        rw [htoken hn] at hnext
        cases hnext
      refine .ite (fun _ => .behind ?_) fun _ => .pure _
      have hless : n - 1 ≤ rounds := by omega
      have hsuffix := ends_suffix (he (n - 1 - 1) (by omega)) hless left next
      exact .bind hsuffix fun left => ih (by omega) (fun m hm => he m (by omega)) (by omega) left

variable (hp : ∀ m, m + 2 ≤ n → Ends (blocks + 1) m program Unbounded.program)
include hp

theorem ends_operand : Ends blocks n (operand rounds expression program) Unbounded.operand := by
  rw [operand, Unbounded.operand, Unbounded.Phrase.read]
  refine .current fun token htoken => ?_
  by_cases hn : n = 0
  · -- No operand begins with the end of input, so nothing is read a level further down.
    rw [htoken hn]
    exact .unexpected _ _
  have hexpression := he (n - 1) (by omega)
  have hnext := ends_nextExpression hexpression
  cases token.kind with
  | identifier | trueWord | falseWord | string => exact .pure _
  | integer => exact ends_integer _
  | bang | minus => exact .behind <| .bind (hexpression .unary) fun _ => .pure _
  | leftParen => exact .bind hnext fun _ => .bind (.expect _) fun _ => .pure _
  | fnWord =>
    refine .behindExpected (by decide) fun m hm _ => .bind (ends_parameters (by omega) _) fun _ => ?_
    refine .behindExpected (by decide) fun m' hm' _ => .bind (ends_block (hp _ ?_)) fun _ => .pure _
    omega
  | leftBracket => exact .bind (ends_values hexpression hrounds _) fun _ => .pure _
  | leftBrace => exact .bind (ends_entries hexpression hrounds _) fun _ => .pure _
  | _ => exact .unexpected _ _

end Productions

section Statements

variable {expression : Precedence → Parser Expr} {program : Parser Block}
  (he : ∀ precedence, Ends blocks n (expression precedence) (Unbounded.expression precedence))
  (hp : ∀ m, m + 2 ≤ n → Ends (blocks + 1) m program Unbounded.program)

include he hp

theorem ends_branch : Ends blocks n (branch expression program) Unbounded.branch := by
  rw [branch, Unbounded.branch, Unbounded.Phrase.read]
  refine .current fun _ _ => .behindExpected (by decide) fun m hm _ => ?_
  have hblock : Ends blocks (m + 1) (block program) Unbounded.block := ends_block (hp _ (by omega))
  have hexpression : ∀ precedence, Ends blocks m (expression precedence) (Unbounded.expression precedence) :=
    fun precedence => (he precedence).mono (by omega)
  refine .bind (ends_nextExpression hexpression) fun _ => .bind (.expect _) fun _ => ?_
  refine .bind (.expect _) fun _ => .bind hblock fun _ => .peek fun _ _ => ?_
  refine .ite (fun _ => .bind .advance fun _ => .bind (.expect _) fun _ => ?_) fun _ => .pure _
  exact .bind hblock fun _ => .pure _

theorem ends_statement : Ends blocks n (statement expression program) Unbounded.statement := by
  have hnext : Ends blocks n (nextExpression expression) Unbounded.nextExpression :=
    ends_nextExpression fun precedence => (he precedence).mono (Nat.sub_le n 1)
  rw [statement, Unbounded.statement, Unbounded.Phrase.read]
  refine .current fun token _ => ?_
  cases token.kind with
  | letWord =>
    refine .bind ends_ident fun _ => .bind (.expect _) fun _ => ?_
    exact .bind hnext fun _ => .pure _
  | returnWord => exact .bind hnext fun _ => .pure _
  | ifWord => exact ends_branch he hp
  | _ => exact .bind (he .lowest) fun _ => .pure _

end Statements

theorem ends_finish_inside (program : Block) :
    Ends (blocks + 1) n (pure program) (Unbounded.finish program) :=
  fun _ hview _ => ⟨rfl, hview, List.suffix_refl _⟩

def atEnd (program : Block) : Parser Block := do
  let last ← current
  if last.kind = .eof then return program
  else unexpected (.token .eof) last

theorem ends_finish_outside (program : Block) : Ends 0 n (atEnd program) (Unbounded.finish program) := by
  refine .current fun last _ => ?_
  change Ends 0 n _ (get >>= fun s : Situation => if s.blocks = 0 ∧ last.kind ≠ .eof then _ else _)
  by_cases heof : last.kind = .eof
  · rw [if_pos heof]
    intro view hview _
    refine ⟨?_, hview, List.suffix_refl _⟩
    change Unbounded.runFrom ⟨view, 0⟩ (if 0 = 0 ∧ last.kind ≠ .eof then _ else _) = _
    rw [if_neg fun h => h.2 heof]
    rfl
  · rw [if_neg heof]
    intro view hview _
    refine ⟨by simp, view, ?_⟩
    change Unbounded.runFrom ⟨view, 0⟩ (if 0 = 0 ∧ last.kind ≠ .eof then _ else _) = _
    rw [if_pos ⟨rfl, heof⟩]
    rfl

theorem ends_program {depth : Nat} {f : Block → Parser Block}
    (h : Ends blocks n (statement (expressionWithin rounds depth) (programWithin rounds depth))
      Unbounded.statement) (hrounds : n ≤ rounds)
    (hf : ∀ program, Ends blocks n (f program) (Unbounded.finish program)) :
    Ends blocks n (programWithin rounds (depth + 1) >>= f) Unbounded.program := by
  rw [programWithin, Unbounded.program, Unbounded.Phrase.read, bind_assoc]
  refine .current fun _ _ => ?_
  rw [bind_assoc]
  exact .bind (ends_statements h hrounds) fun _ => hf _

theorem ends_within (rounds depth : Nat) :
    (∀ blocks, ∀ n ≤ rounds, n < depth → ∀ precedence,
      Ends blocks n (expressionWithin rounds depth precedence) (Unbounded.expression precedence)) ∧
    ∀ blocks, ∀ n ≤ rounds, n + 2 ≤ depth →
      Ends (blocks + 1) n (programWithin rounds depth) Unbounded.program := by
  induction depth with
  | zero => exact ⟨fun _ _ _ hn => absurd hn (Nat.not_lt_zero _), fun _ _ _ hn => absurd hn (by omega)⟩
  | succ depth ih =>
    obtain ⟨ihe, ihp⟩ := ih
    constructor
    · intro blocks n hrounds hn precedence
      -- What stands inside an expression has a token less, and a block inside it two.
      have he : ∀ m < n, ∀ precedence,
          Ends blocks m (expressionWithin rounds depth precedence) (Unbounded.expression precedence) :=
        fun m hm => ihe blocks m (by omega) (by omega)
      have hp : ∀ m, m + 2 ≤ n → Ends (blocks + 1) m (programWithin rounds depth) Unbounded.program :=
        fun m hm => ihp blocks m (by omega) (by omega)
      rw [expressionWithin, Unbounded.expression, Unbounded.Phrase.read]
      refine .bind (ends_operand hrounds he hp) fun left => ?_
      exact ends_extend hrounds he hrounds precedence left
    · intro blocks n hrounds hn
      have hp : ∀ m, m + 2 ≤ n → Ends (blocks + 1 + 1) m (programWithin rounds depth) Unbounded.program :=
        fun m hm => ihp (blocks + 1) m (by omega) (by omega)
      have hstatement := ends_statement (ihe (blocks + 1) n hrounds (by omega)) hp
      rw [← bind_pure (programWithin rounds (depth + 1))]
      exact ends_program hstatement hrounds ends_finish_inside

theorem ends_outermost {depth : Nat} (hrounds : n ≤ rounds) (hdepth : n + 2 ≤ depth) :
    Ends 0 n (programWithin rounds depth >>= atEnd) Unbounded.program := by
  obtain ⟨depth, rfl⟩ : ∃ below, depth = below + 1 := ⟨depth - 1, by omega⟩
  obtain ⟨he, hp⟩ := ends_within rounds depth
  have hstatement := ends_statement (he 0 n hrounds (by omega)) fun m hm => hp 0 m (by omega) (by omega)
  exact ends_program hstatement hrounds ends_finish_outside

theorem parseStream_eq_atEnd (depth : Nat) (stream : TokenStream) :
    parseStream depth stream = (start stream).bind fun view =>
      ((programWithin (stream.tokens.length + 1) depth >>= atEnd).run view).map (·.1) := by
  unfold parseStream
  cases start stream with
  | error error => rfl
  | ok view =>
    rw [Except.bind, StateT.run_bind]
    simp only [bind, Except.bind]
    cases (programWithin (stream.tokens.length + 1) depth).run view with
    | error error => rfl
    | ok result =>
      change (if result.2.current.kind = .eof then _ else _) =
        Except.map _ (StateT.run (if result.2.current.kind = .eof then _ else _) result.2)
      split <;> rfl

theorem parseStream_ends {stream : TokenStream} {depth : Nat} (hstream : stream.WellEnded)
    (hdepth : stream.tokens.length + 2 ≤ depth) :
    Unbounded.parseStream stream = some (parseStream depth stream, 0) ∧
      ∀ found, parseStream depth stream ≠ .error (.nestingTooDeep found) := by
  rw [parseStream_eq_atEnd, Unbounded.parseStream]
  cases hstart : start stream with
  | error error =>
    refine ⟨rfl, ?_⟩
    rintro found ⟨rfl⟩
    exact start_ne_nestingTooDeep _ found hstart
  | ok view =>
    obtain ⟨hview, hupcoming⟩ := start_ok hstream hstart
    have hlength := Nat.le_of_eq (congrArg List.length hupcoming)
    have hrun := ends_outermost (Nat.le_succ _) hdepth view hview hlength
    simp only [Except.bind]
    generalize (programWithin _ depth >>= atEnd).run view = result at hrun ⊢
    cases result with
    | error error =>
      obtain ⟨herror, next, hnext⟩ := hrun
      rw [hnext]
      exact ⟨rfl, fun found h => herror found (Except.error.inj h)⟩
    | ok result =>
      obtain ⟨hnext, -⟩ := hrun
      rw [hnext]
      exact ⟨rfl, by simp [Except.map]⟩

/-- The end of input closes neither the block nor what is open around it. -/
example : Unbounded.parseStream (.ofSource "fn() \x7b1") =
    some (.error (.unexpected (.token .rightBrace) ⟨.eof, "", ⟨0, 7, 7⟩⟩), 0) := by
  have hparse : parseStream 9 (.ofSource "fn() \x7b1") =
      .error (.unexpected (.token .rightBrace) ⟨.eof, "", ⟨0, 7, 7⟩⟩) := by cbv
  have hdepth : (TokenStream.ofSource "fn() \x7b1").tokens.length + 2 ≤ 9 := by cbv
  rw [(parseStream_ends (TokenStream.wellEnded_ofSource _) hdepth).1, hparse]

theorem parseStream_ne_nestingTooDeep {stream : TokenStream} {depth : Nat} (hstream : stream.WellEnded)
    (hdepth : stream.tokens.length + 2 ≤ depth) (found : Token) :
    parseStream depth stream ≠ .error (.nestingTooDeep found) :=
  (parseStream_ends hstream hdepth).2 found

end MonkeyLang.Parser
