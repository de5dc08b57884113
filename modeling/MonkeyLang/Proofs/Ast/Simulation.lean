import MonkeyLang.Ast.Parser
import MonkeyLang.Proofs.Token.Stream

/-!
# Parsers side by side

Two runs of the parser on views that belong together. A parser looks at nothing but the two tokens in
view and changes its view by moving on only, so whatever relation of views survives moving on survives
every production. The first run may also stop by itself, with an error that is excused.
-/

namespace MonkeyLang.Parser

variable {α β : Type}

inductive Agree (excused : ParseError → Prop) (related : α → β → Prop) :
    Except ParseError α → Except ParseError β → Prop where
  | excused {error : ParseError} (h : excused error) (result : Except ParseError β) :
      Agree excused related (.error error) result
  | error (error : ParseError) : Agree excused related (.error error) (.error error)
  | ok {a : α} {b : β} : related a b → Agree excused related (.ok a) (.ok b)

/-- Which views belong together, and which errors may end the first run alone. -/
structure Alignment where
  related : Lookahead → Lookahead → Prop
  excused : ParseError → Prop
  current : ∀ {view other}, related view other → view.current = other.current
  peek : ∀ {view other}, related view other → view.peek = other.peek
  advance : ∀ {view other}, related view other →
    Agree excused (fun r s => related r.2 s.2) (Parser.advance.run view) (Parser.advance.run other)

variable {A : Alignment}

/-- From views that belong together the parsers give the same, in views that belong together. -/
def Follows (A : Alignment) (p q : Parser α) : Prop :=
  ∀ view other, A.related view other →
    Agree A.excused (fun r s => r.1 = s.1 ∧ A.related r.2 s.2) (p.run view) (q.run other)

theorem Follows.pure (a : α) : Follows A (Pure.pure a) (Pure.pure a) :=
  fun _ _ h => .ok ⟨rfl, h⟩

theorem Follows.throw (error : ParseError) :
    Follows A (MonadExcept.throw error : Parser α) (MonadExcept.throw error) :=
  fun _ _ _ => .error error

theorem Follows.unexpected (expected : Expectation) (found : Token) :
    Follows A (unexpected expected found : Parser α) (unexpected expected found) :=
  .throw _

theorem Follows.excused {q : Parser α} (h : ∀ found, A.excused (.nestingTooDeep found)) :
    Follows A nestingTooDeep q :=
  fun view _ _ => .excused (h view.current) _

theorem Follows.bind {p q : Parser α} {f g : α → Parser β} (h : Follows A p q)
    (hf : ∀ a, Follows A (f a) (g a)) : Follows A (p >>= f) (q >>= g) := by
  intro view other hviews
  have hrun := h view other hviews
  rw [StateT.run_bind, StateT.run_bind]
  generalize p.run view = first at hrun ⊢
  generalize q.run other = second at hrun ⊢
  cases hrun with
  | excused hexcused => exact .excused hexcused _
  | error error => exact .error error
  | @ok r s hresults =>
    obtain ⟨a, next⟩ := r
    obtain ⟨_, next'⟩ := s
    obtain ⟨rfl, hnext⟩ := hresults
    exact hf a next next' hnext

theorem Follows.ite {c : Prop} [Decidable c] {p p' q q' : Parser α} (hp : Follows A p p')
    (hq : Follows A q q') : Follows A (if c then p else q) (if c then p' else q') := by
  split
  · exact hp
  · exact hq

theorem Follows.current {f g : Token → Parser α} (h : ∀ token, Follows A (f token) (g token)) :
    Follows A (Parser.current >>= f) (Parser.current >>= g) := by
  intro view other hviews
  have := h view.current view other hviews
  change Agree _ _ ((f view.current).run view) ((g other.current).run other)
  rwa [← A.current hviews]

theorem Follows.nestingTooDeep : Follows A (Parser.nestingTooDeep : Parser α) Parser.nestingTooDeep :=
  .current fun _ => .throw _

theorem Follows.peek {f g : Token → Parser α} (h : ∀ token, Follows A (f token) (g token)) :
    Follows A (Parser.peek >>= f) (Parser.peek >>= g) := by
  intro view other hviews
  have := h view.peek view other hviews
  change Agree _ _ ((f view.peek).run view) ((g other.peek).run other)
  rwa [← A.peek hviews]

theorem Follows.advance : Follows A Parser.advance Parser.advance := by
  intro view other hviews
  have hrun := A.advance hviews
  generalize Parser.advance.run view = first at hrun ⊢
  generalize Parser.advance.run other = second at hrun ⊢
  cases hrun with
  | excused hexcused => exact .excused hexcused _
  | error error => exact .error error
  | ok hresults => exact .ok ⟨rfl, hresults⟩

theorem Follows.expect (kind : TokenKind) : Follows A (expect kind) (expect kind) :=
  .peek fun _ => .ite (.bind .advance fun _ => .pure _) (.unexpected _ _)

/-! ## Loops -/

section Loops

variable {item item' : Parser α} (h : Follows A item item')
include h

theorem follows_moreItems (rounds : Nat) : Follows A (moreItems item rounds) (moreItems item' rounds) := by
  induction rounds with
  | zero => exact .pure _
  | succ rounds ih =>
    refine .peek fun _ => .ite (.bind .advance fun _ => ?_) (.pure _)
    exact .bind h fun _ => .bind ih fun _ => .pure _

theorem follows_items (rounds : Nat) (close : TokenKind) :
    Follows A (items rounds item close) (items rounds item' close) := by
  refine .peek fun _ => .ite (.bind .advance fun _ => .pure _) ?_
  exact .bind h fun _ => .bind (follows_moreItems h rounds) fun _ => .bind (.expect _) fun _ => .pure _

end Loops

theorem follows_skipSemicolons (rounds : Nat) :
    Follows A (skipSemicolons rounds) (skipSemicolons rounds) := by
  induction rounds with
  | zero => exact .pure _
  | succ rounds ih => exact .current fun _ => .ite (.bind .advance fun _ => ih) (.pure _)

theorem follows_statements {statement statement' : Parser Stmt} (h : Follows A statement statement')
    (rounds : Nat) : Follows A (statements statement rounds) (statements statement' rounds) := by
  induction rounds with
  | zero => exact .pure _
  | succ rounds ih =>
    refine .current fun _ => .ite (.pure _) (.bind h fun _ => .bind .advance fun _ => ?_)
    exact .bind (follows_skipSemicolons rounds) fun _ => .bind ih fun _ => .pure _

/-! ## Productions -/

theorem follows_block {program program' : Parser Block} (h : Follows A program program') :
    Follows A (block program) (block program') :=
  .bind .advance fun _ => .bind h fun _ => .current fun _ => .ite (.pure _) (.unexpected _ _)

theorem follows_integer (token : Token) : Follows A (integer token) (integer token) :=
  .ite (.throw _) (.ite (.unexpected _ _) (.pure _))

theorem follows_ident : Follows A ident ident :=
  .bind (.expect _) fun _ => .pure _

section Productions

variable {expression expression' : Precedence → Parser Expr} {program program' : Parser Block}
  (he : ∀ precedence, Follows A (expression precedence) (expression' precedence))
  (hp : Follows A program program')

include he

theorem follows_nextExpression :
    Follows A (nextExpression expression) (nextExpression expression') :=
  .bind .advance fun _ => he .lowest

theorem follows_pair : Follows A (pair expression) (pair expression') := by
  refine .bind (follows_nextExpression he) fun _ => .bind (.expect _) fun _ => ?_
  exact .bind (follows_nextExpression he) fun _ => .pure _

theorem follows_suffix (rounds : Nat) (left : Expr) (next : Suffix) :
    Follows A (suffix rounds expression left next) (suffix rounds expression' left next) := by
  have hnext := follows_nextExpression he
  cases next with
  | operator operator precedence =>
    exact .current fun _ => .bind .advance fun _ => .bind (he precedence) fun _ => .pure _
  | call => exact .current fun _ => .bind (follows_items hnext _ _) fun _ => .pure _
  | index => exact .current fun _ => .bind hnext fun _ => .bind (.expect _) fun _ => .pure _

theorem follows_extend (rounds : Nat) (precedence : Precedence) (fuel : Nat) (left : Expr) :
    Follows A (extend rounds expression precedence fuel left)
      (extend rounds expression' precedence fuel left) := by
  induction fuel generalizing left with
  | zero => exact .pure _
  | succ fuel ih =>
    refine .peek fun token => ?_
    cases Suffix.ofKind? token.kind with
    | none => exact .pure _
    | some next =>
      exact .ite (.bind .advance fun _ => .bind (follows_suffix he rounds left next) ih) (.pure _)

include hp

theorem follows_operand (rounds : Nat) :
    Follows A (operand rounds expression program) (operand rounds expression' program') := by
  have hnext := follows_nextExpression he
  refine .current fun token => ?_
  split
  case h_2 => exact follows_integer _
  case h_6 | h_7 => exact .bind .advance fun _ => .bind (he .unary) fun _ => .pure _
  case h_8 => exact .bind hnext fun _ => .bind (.expect _) fun _ => .pure _
  case h_9 =>
    refine .bind (.expect _) fun _ => .bind (follows_items follows_ident _ _) fun _ => ?_
    exact .bind (.expect _) fun _ => .bind (follows_block hp) fun _ => .pure _
  case h_10 => exact .bind (follows_items hnext _ _) fun _ => .pure _
  case h_11 => exact .bind (follows_items (follows_pair he) _ _) fun _ => .pure _
  case h_12 => exact .unexpected _ _
  all_goals exact .pure _

theorem follows_branch : Follows A (branch expression program) (branch expression' program') := by
  have hblock := follows_block hp
  refine .current fun _ => .bind (.expect _) fun _ => .bind (follows_nextExpression he) fun _ => ?_
  refine .bind (.expect _) fun _ => .bind (.expect _) fun _ => .bind hblock fun _ => .peek fun _ => ?_
  refine .ite (.bind .advance fun _ => .bind (.expect _) fun _ => ?_) (.pure _)
  exact .bind hblock fun _ => .pure _

theorem follows_statement :
    Follows A (statement expression program) (statement expression' program') := by
  have hnext := follows_nextExpression he
  refine .current fun token => ?_
  split
  case h_1 =>
    refine .bind follows_ident fun _ => .bind (.expect _) fun _ => ?_
    exact .bind hnext fun _ => .pure _
  case h_2 => exact .bind hnext fun _ => .pure _
  case h_3 => exact follows_branch he hp
  case h_4 => exact .bind (he .lowest) fun _ => .pure _

end Productions

/-! ## All nestings -/

/-- What is read in the place of an expression or a program that nests too deeply. -/
structure Beyond where
  expression : Precedence → Parser Expr
  program : Parser Block

def Beyond.refused : Beyond :=
  ⟨fun _ => nestingTooDeep, nestingTooDeep⟩

def Beyond.within (rounds depth : Nat) : Beyond :=
  ⟨expressionWithin rounds depth, programWithin rounds depth⟩

mutual

def expressionOver (beyond : Beyond) (rounds : Nat) : (depth : Nat) → Precedence → Parser Expr
  | 0, precedence => beyond.expression precedence
  | depth + 1, precedence => do
    let left ← operand rounds (expressionOver beyond rounds depth) (programOver beyond rounds depth)
    extend rounds (expressionOver beyond rounds depth) precedence rounds left

def programOver (beyond : Beyond) (rounds : Nat) : (depth : Nat) → Parser Block
  | 0 => beyond.program
  | depth + 1 => do
    let first ← current
    let body ← statements
      (statement (expressionOver beyond rounds depth) (programOver beyond rounds depth)) rounds
    return .mk first.span body

end

theorem over_within (rounds more depth : Nat) :
    expressionOver (.within rounds more) rounds depth = expressionWithin rounds (more + depth) ∧
      programOver (.within rounds more) rounds depth = programWithin rounds (more + depth) := by
  induction depth with
  | zero => exact ⟨rfl, rfl⟩
  | succ depth ih =>
    constructor
    · funext precedence
      rw [expressionOver, ih.1, ih.2, ← Nat.add_assoc, expressionWithin]
    · rw [programOver, ih.1, ih.2, ← Nat.add_assoc, programWithin]

theorem Beyond.within_zero (rounds : Nat) : within rounds 0 = refused := by
  have hexpression : expressionWithin rounds 0 = fun _ => nestingTooDeep := by
    funext precedence
    rw [expressionWithin]
  rw [within, hexpression, programWithin]
  rfl

theorem over_refused (rounds depth : Nat) :
    expressionOver .refused rounds depth = expressionWithin rounds depth ∧
      programOver .refused rounds depth = programWithin rounds depth := by
  rw [← Beyond.within_zero rounds]
  simpa using over_within rounds 0 depth

theorem follows_over {beyond beyond' : Beyond}
    (he : ∀ precedence, Follows A (beyond.expression precedence) (beyond'.expression precedence))
    (hp : Follows A beyond.program beyond'.program) (rounds depth : Nat) :
    (∀ precedence, Follows A (expressionOver beyond rounds depth precedence)
      (expressionOver beyond' rounds depth precedence)) ∧
    Follows A (programOver beyond rounds depth) (programOver beyond' rounds depth) := by
  induction depth with
  | zero => exact ⟨he, hp⟩
  | succ depth ih =>
    obtain ⟨ihe, ihp⟩ := ih
    constructor
    · intro precedence
      rw [expressionOver, expressionOver]
      exact .bind (follows_operand ihe ihp rounds) fun left => follows_extend ihe rounds precedence rounds left
    · rw [programOver, programOver]
      refine .current fun _ => ?_
      exact .bind (follows_statements (follows_statement ihe ihp) rounds) fun _ => .pure _

/-- If meeting the limit is excused, anything else may stand there in the second run. -/
theorem follows_beyond (hexcused : ∀ found, A.excused (.nestingTooDeep found)) (beyond : Beyond) (rounds depth : Nat) :
    Follows A (programWithin rounds depth) (programOver beyond rounds depth) := by
  rw [← (over_refused rounds depth).2]
  exact (follows_over (fun _ => .excused hexcused) (.excused hexcused) rounds depth).2

theorem follows_within (rounds depth : Nat) :
    Follows A (programWithin rounds depth) (programWithin rounds depth) := by
  rw [← (over_refused rounds depth).2]
  exact (follows_over (fun _ => .nestingTooDeep) .nestingTooDeep rounds depth).2

def parseBy (program : Parser Block) (stream : TokenStream) : Except ParseError Block := do
  let (program, view) ← program.run (← start stream)
  if view.current.kind = .eof then return program
  else throw (.unexpected (.token .eof) view.current)

theorem parseStream_eq (depth : Nat) (stream : TokenStream) :
    parseStream depth stream = parseBy (programWithin (stream.tokens.length + 1) depth) stream := rfl

theorem parseBy_agrees {p q : Parser Block} (h : Follows A p q) {stream other : TokenStream}
    (hstart : Agree A.excused A.related (start stream) (start other)) :
    Agree A.excused (· = ·) (parseBy p stream) (parseBy q other) := by
  unfold parseBy
  simp only [bind, Except.bind]
  generalize start stream = first at hstart ⊢
  generalize start other = second at hstart ⊢
  cases hstart with
  | excused herror => exact .excused herror _
  | error error => exact .error error
  | @ok view view' hviews =>
    have hrun := h view view' hviews
    simp only
    generalize p.run view = first at hrun ⊢
    generalize q.run view' = second at hrun ⊢
    cases hrun with
    | excused herror => exact .excused herror _
    | error error => exact .error error
    | @ok result result' hresults =>
      obtain ⟨hvalue, hnext⟩ := hresults
      simp only [hvalue, A.current hnext]
      split
      · exact .ok rfl
      · exact .error _

/-! ## Bounds of the nesting -/

def nestingAlignment : Alignment where
  related view other := view = other
  excused error := ∃ found, error = .nestingTooDeep found
  current h := congrArg Lookahead.current h
  peek h := congrArg Lookahead.peek h
  advance := by
    rintro view _ rfl
    cases Parser.advance.run view with
    | error error => exact .error error
    | ok result => exact .ok rfl

def parseStreamOver (beyond : Beyond) (depth : Nat) (stream : TokenStream) : Except ParseError Block :=
  parseBy (programOver beyond (stream.tokens.length + 1) depth) stream

theorem parseStream_beyond (beyond : Beyond) (depth : Nat) (stream : TokenStream) :
    (∃ found, parseStream depth stream = .error (.nestingTooDeep found)) ∨
      parseStream depth stream = parseStreamOver beyond depth stream := by
  have hstart : Agree nestingAlignment.excused nestingAlignment.related (start stream) (start stream) := by
    cases start stream with
    | error error => exact .error error
    | ok view => exact .ok rfl
  have hexcused (found : Token) : nestingAlignment.excused (.nestingTooDeep found) := ⟨found, rfl⟩
  have hrun := parseBy_agrees (follows_beyond hexcused beyond (stream.tokens.length + 1) depth) hstart
  rw [parseStream_eq, parseStreamOver]
  generalize parseBy (programWithin _ depth) stream = first at hrun ⊢
  generalize parseBy (programOver _ _ depth) stream = second at hrun ⊢
  cases hrun with
  | excused herror =>
    obtain ⟨found, rfl⟩ := herror
    exact .inl ⟨found, rfl⟩
  | error error => exact .inr rfl
  | ok hvalue => exact .inr (congrArg Except.ok hvalue)

theorem parseStream_deepens {shallow deep : Nat} (h : shallow ≤ deep) (stream : TokenStream) :
    (∃ found, parseStream shallow stream = .error (.nestingTooDeep found)) ∨
      parseStream shallow stream = parseStream deep stream := by
  obtain ⟨more, rfl⟩ : ∃ more, deep = more + shallow := ⟨deep - shallow, by omega⟩
  have hbeyond := parseStream_beyond (.within (stream.tokens.length + 1) more) shallow stream
  rwa [parseStreamOver, (over_within _ more shallow).2] at hbeyond

/-! ## Streams that an error ends -/

structure Endless (view : Lookahead) : Prop where
  current : view.current.kind ≠ .eof
  peek : view.peek.kind ≠ .eof
  rest : ∀ token ∈ view.rest.tokens, token.kind ≠ .eof
  ending : ∀ eof, view.rest.ending ≠ .ok eof

theorem pull_endless {tokens : List Token} {ending : Except LexError Token}
    (htokens : ∀ token ∈ tokens, token.kind ≠ .eof) (hending : ∀ eof, ending ≠ .ok eof) :
    (∃ error, pull ⟨tokens, ending⟩ = .error error) ∨
      ∃ token rest, tokens = token :: rest ∧ pull ⟨tokens, ending⟩ = .ok (token, ⟨rest, ending⟩) := by
  rcases tokens with _ | ⟨token, rest⟩
  · cases ending with
    | error error => exact .inl ⟨_, rfl⟩
    | ok eof => exact absurd rfl (hending eof)
  · exact .inr ⟨token, rest, rfl, rfl⟩

theorem run_advance_eq (view : Lookahead) :
    Parser.advance.run view =
      (pull view.rest).map fun result => ((), ⟨view.peek, result.1, result.2⟩) := by
  have hrun : Parser.advance.run view = (liftM (pull view.rest) >>= fun result : Token × TokenStream =>
      set (⟨view.peek, result.1, result.2⟩ : Lookahead) : Parser Unit).run view := rfl
  rw [hrun, StateT.run_bind, StateT.run_monadLift]
  cases pull view.rest <;> rfl

def endlessAlignment : Alignment where
  related view other := view = other ∧ Endless view
  excused _ := False
  current h := congrArg Lookahead.current h.1
  peek h := congrArg Lookahead.peek h.1
  advance := by
    rintro ⟨current, peek, ⟨tokens, ending⟩⟩ _ ⟨rfl, h⟩
    rw [run_advance_eq]
    rcases pull_endless h.rest h.ending with ⟨error, herror⟩ | ⟨token, rest, rfl, hpull⟩
    · rw [herror]
      exact .error error
    · obtain ⟨htoken, hrest⟩ := List.forall_mem_cons.mp h.rest
      rw [hpull]
      exact .ok ⟨rfl, h.peek, htoken, hrest, h.ending⟩

theorem endless_of_start {tokens : List Token} {ending : Except LexError Token}
    (htokens : ∀ token ∈ tokens, token.kind ≠ .eof) (hending : ∀ eof, ending ≠ .ok eof)
    {view : Lookahead} (h : start ⟨tokens, ending⟩ = .ok view) : Endless view := by
  unfold start at h
  rcases pull_endless htokens hending with ⟨error, herror⟩ | ⟨token, rest, rfl, hpull⟩
  · rw [herror] at h
    cases h
  obtain ⟨htoken, hrest⟩ := List.forall_mem_cons.mp htokens
  simp only [hpull, bind, Except.bind] at h
  rcases pull_endless hrest hending with ⟨error, herror⟩ | ⟨token', rest', rfl, hpull'⟩
  · rw [herror] at h
    cases h
  obtain ⟨htoken', hrest'⟩ := List.forall_mem_cons.mp hrest
  rw [hpull'] at h
  cases h
  exact ⟨htoken, htoken', hrest', hending⟩

theorem ending_of_parseStream {depth : Nat} {tokens : List Token} {ending : Except LexError Token}
    (htokens : ∀ token ∈ tokens, token.kind ≠ .eof) {program : Block}
    (h : parseStream depth ⟨tokens, ending⟩ = .ok program) : ∃ eof, ending = .ok eof := by
  cases ending with
  | ok eof => exact ⟨eof, rfl⟩
  | error error =>
    exfalso
    simp only [parseStream, bind, Except.bind] at h
    split at h
    next => cases h
    next view hstart =>
      have hview := endless_of_start htokens (by simp) hstart
      have hrun := @follows_within endlessAlignment (tokens.length + 1) depth view view ⟨rfl, hview⟩
      split at h
      next => cases h
      next result hresult =>
        rw [hresult] at hrun
        cases hrun with
        | ok hnext =>
          rw [if_neg hnext.2.2.current] at h
          cases h

end MonkeyLang.Parser

namespace MonkeyLang

theorem parseWithin_deepens {shallow deep : Nat} (h : shallow ≤ deep) (source : String) :
    (∃ found, parseWithin shallow source = .error (.nestingTooDeep found)) ∨
      parseWithin shallow source = parseWithin deep source :=
  Parser.parseStream_deepens h _

theorem tokenize_of_parseWithin {source : String} {depth : Nat} {program : Block}
    (h : parseWithin depth source = .ok program) : ∃ tokens, tokenize source = .ok tokens := by
  have hends := TokenStream.wellEnded_ofSource source
  unfold parseWithin at h
  cases hstream : TokenStream.ofSource source with
  | mk body ending =>
    rw [hstream] at h hends
    obtain ⟨eof, rfl⟩ := Parser.ending_of_parseStream hends.before h
    exact ⟨body ++ [eof], tokenize_ok.mpr ⟨body, eof, hstream, rfl⟩⟩

end MonkeyLang
