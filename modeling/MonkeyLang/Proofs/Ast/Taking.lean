import MonkeyLang.Proofs.Ast.Binding
import MonkeyLang.Proofs.Ast.Window
import MonkeyLang.Proofs.Ast.Written

/-!
# What the productions take

Each production takes some tokens itself and leaves others to the readers inside it. That is said here
once, for readers of which anything may be known: `E` relates an expression to the tokens taken for it
and those behind them, and `B` does for blocks. That the tokens taken spell the tree, up to spans and
with them, are two choices of `E` and `B`.
-/

namespace MonkeyLang.Parser
open Grammar

variable {α : Type} {eof : Token} {bound rounds : Nat}

/-- The view stands on the last token of a first part of the tokens; `P` holds of that part and the
tokens behind it. -/
def Takes (eof : Token) (tokens : List Token) (view : Lookahead) (P : List Token → List Token → Prop) :
    Prop :=
  ∃ taken rest last, tokens = taken ++ rest ∧ view = window eof (last :: rest) ∧ P taken rest

theorem Takes.imp {tokens : List Token} {view : Lookahead} {P Q : List Token → List Token → Prop}
    (h : Takes eof tokens view P) (hPQ : ∀ ts rest, P ts rest → Q ts rest) : Takes eof tokens view Q := by
  obtain ⟨taken, rest, last, htokens, hview, hP⟩ := h
  exact ⟨taken, rest, last, htokens, hview, hPQ _ _ hP⟩

def TakesItem (eof : Token) (bound : Nat) (item : Parser α) (Q : α → List Token → Prop) : Prop :=
  ∀ before tokens a view, tokens.length ≤ bound →
    item.run (window eof (before :: tokens)) = .ok (a, view) → Takes eof tokens view fun ts _ => Q a ts

def TakesExpression (eof : Token) (bound : Nat) (expression : Precedence → Parser Expr)
    (E : Precedence → Expr → List Token → List Token → Prop) : Prop :=
  ∀ precedence tokens e view, tokens.length ≤ bound →
    (expression precedence).run (window eof tokens) = .ok (e, view) →
    Takes eof tokens view (E precedence e)

def TakesProgram (eof : Token) (bound : Nat) (program : Parser Block)
    (B : Block → List Token → List Token → Prop) : Prop :=
  ∀ tokens body view, tokens.length ≤ bound → program.run (window eof tokens) = .ok (body, view) →
    ∃ taken rest, tokens = taken ++ rest ∧ view = window eof rest ∧ B body taken rest

/-! ## Items between commas -/

theorem moreItems_takes {item : Parser α} {Q : α → List Token → Prop} (heof : eof.kind = .eof)
    (hitem : TakesItem eof bound item Q) (fuel : Nat) (last : Token) (tokens : List Token)
    (as : List α) (view : Lookahead) (hlength : tokens.length ≤ bound)
    (h : (moreItems item fuel).run (window eof (last :: tokens)) = .ok (as, view)) :
    Takes eof tokens view fun ts _ => ∃ parts : List (α × List Token), as = parts.map (·.1) ∧
      (∀ part ∈ parts, Q part.1 part.2) ∧ ∀ first, Separated (first :: parts.map (·.2)) (first ++ ts) := by
  induction fuel generalizing last tokens as view with
  | zero =>
    simp only [moreItems, run_pure_ok] at h
    obtain ⟨rfl, rfl⟩ := h
    exact ⟨[], tokens, last, rfl, rfl, [], rfl, by simp, fun first => by simpa using .one first⟩
  | succ fuel ih =>
    rw [moreItems, run_peek_bind, peek_window_cons] at h
    split at h
    next hcomma =>
      rcases tokens with _ | ⟨comma, tokens⟩
      · simp [heof] at hcomma
      rw [run_advance_bind, List.tail_cons, run_bind_ok] at h
      obtain ⟨a, next, hfirst, h⟩ := h
      rw [run_bind_ok] at h
      obtain ⟨more, _, hmore, h⟩ := h
      obtain ⟨rfl, rfl⟩ := run_pure_ok.mp h
      obtain ⟨taken, rest, last', rfl, rfl, hQ⟩ :=
        hitem comma tokens a next (by simp at hlength; omega) hfirst
      obtain ⟨taken', rest', last'', rfl, rfl, parts, rfl, hparts, hseparated⟩ :=
        ih last' rest more _ (by simp at hlength; omega) hmore
      refine ⟨comma :: taken ++ taken', rest', last'', by simp, rfl, (a, taken) :: parts, rfl,
        List.forall_mem_cons.mpr ⟨hQ, hparts⟩, fun first => ?_⟩
      simpa using @Separated.more first _ _ _ _ hcomma (hseparated taken)
    next =>
      obtain ⟨rfl, rfl⟩ := run_pure_ok.mp h
      exact ⟨[], tokens, last, rfl, rfl, [], rfl, by simp, fun first => by simpa using .one first⟩

theorem items_takes {item : Parser α} {Q : α → List Token → Prop} {close : TokenKind}
    (heof : eof.kind = .eof) (hclose : close ≠ .eof) (hitem : TakesItem eof bound item Q)
    {opening : Token} {tokens : List Token} {as : List α} {view : Lookahead}
    (hlength : tokens.length ≤ bound)
    (h : (items rounds item close).run (window eof (opening :: tokens)) = .ok (as, view)) :
    Takes eof tokens view fun ts _ => ∃ (parts : List (α × List Token)) (inner : List Token)
      (closing : Token), ts = inner ++ [closing] ∧ closing.kind = close ∧ as = parts.map (·.1) ∧
        (∀ part ∈ parts, Q part.1 part.2) ∧ Separated (parts.map (·.2)) inner := by
  rw [items, run_peek_bind, peek_window_cons] at h
  split at h
  next hkind =>
    rcases tokens with _ | ⟨closing, tokens⟩
    · exact absurd (hkind.symm.trans heof) hclose
    rw [run_advance_bind] at h
    obtain ⟨rfl, rfl⟩ := run_pure_ok.mp h
    exact ⟨[closing], tokens, closing, rfl, rfl, [], [], closing, rfl, hkind, rfl, by simp, .none⟩
  next =>
    rw [run_bind_ok] at h
    obtain ⟨a, next, hfirst, h⟩ := h
    rw [run_bind_ok] at h
    obtain ⟨more, next', hmore, h⟩ := h
    rw [run_bind_ok] at h
    obtain ⟨closing, _, hexpect, h⟩ := h
    obtain ⟨rfl, rfl⟩ := run_pure_ok.mp h
    obtain ⟨taken, rest, last, rfl, rfl, hQ⟩ := hitem opening tokens a next hlength hfirst
    obtain ⟨taken', rest', last', rfl, rfl, parts, rfl, hparts, hseparated⟩ :=
      moreItems_takes heof hitem rounds last rest more _ (by simp at hlength; omega) hmore
    obtain ⟨rest'', rfl, hkind, rfl⟩ := (run_expect_ok heof hclose).mp hexpect
    exact ⟨taken ++ taken' ++ [closing], rest'', closing, by simp, rfl, (a, taken) :: parts,
      taken ++ taken', closing, rfl, hkind, rfl, List.forall_mem_cons.mpr ⟨hQ, hparts⟩, hseparated taken⟩

theorem exists_map_eq {β : Type} {f : β → α} {P : β → Prop} {as : List α}
    (h : ∀ a ∈ as, ∃ b, P b ∧ f b = a) : ∃ bs : List β, (∀ b ∈ bs, P b) ∧ bs.map f = as := by
  induction as with
  | nil => exact ⟨[], by simp, rfl⟩
  | cons a as ih =>
    obtain ⟨⟨b, hb, rfl⟩, has⟩ := List.forall_mem_cons.mp h
    obtain ⟨bs, hbs, rfl⟩ := ih has
    exact ⟨b :: bs, List.forall_mem_cons.mpr ⟨hb, hbs⟩, rfl⟩

theorem ident_takes (heof : eof.kind = .eof) :
    TakesItem eof bound ident fun name ts =>
      ∃ word : Token, word.kind = .identifier ∧ (word.ident, [word]) = (name, ts) := by
  intro before tokens name view _ h
  rw [ident, run_bind_ok] at h
  obtain ⟨word, _, hexpect, h⟩ := h
  obtain ⟨rfl, rfl⟩ := run_pure_ok.mp h
  obtain ⟨rest, rfl, hkind, rfl⟩ := (run_expect_ok heof (by decide)).mp hexpect
  exact ⟨[word], rest, word, rfl, rfl, word, hkind, rfl⟩

/-! ## One layer of the grammar -/

section Layers

variable (E : Precedence → Expr → List Token → List Token → Prop)
  (B : Block → List Token → List Token → Prop)

def Inner (e : Expr) (ts : List Token) : Prop :=
  ∃ rest, E .lowest e ts rest

def Body (body : Block) (ts : List Token) (closed : Token) : Prop :=
  closed.kind = .rightBrace ∧ ∃ rest, B body ts (closed :: rest)

inductive OperandOf : Expr → List Token → List Token → Prop where
  | name {word : Token} {rest : List Token} :
      word.kind = .identifier → OperandOf (.name word.ident) [word] rest
  | integer {digits : Token} {value : Nat} {rest : List Token} :
      digits.kind = .integer → digits.literal.length ≤ maxDigits →
      value = Nat.ofDigitChars 10 digits.literal.toList 0 → value ≤ maxInteger →
      OperandOf (.integer digits.span value) [digits] rest
  | trueWord {word : Token} {rest : List Token} :
      word.kind = .trueWord → OperandOf (.boolean word.span true) [word] rest
  | falseWord {word : Token} {rest : List Token} :
      word.kind = .falseWord → OperandOf (.boolean word.span false) [word] rest
  | string {text : Token} {rest : List Token} :
      text.kind = .string → OperandOf (.string text.span text.literal) [text] rest
  | unary {operator : Operator} {right : Expr} {sign : Token} {rs rest : List Token} :
      unary? sign.kind = some operator → E .unary right rs rest →
      OperandOf (.unary sign.span operator right) (sign :: rs) rest
  | group {e : Expr} {ts rest : List Token} {opening closing : Token} :
      opening.kind = .leftParen → closing.kind = .rightParen → Inner E e ts →
      OperandOf e (opening :: ts ++ [closing]) rest
  | function {params : List Token} {body : Block} {ps bs rest : List Token}
      {word opening closing opened closed : Token} :
      word.kind = .fnWord → opening.kind = .leftParen → closing.kind = .rightParen →
      opened.kind = .leftBrace → (∀ param ∈ params, param.kind = .identifier) →
      Separated (params.map ([·])) ps → Body B body bs closed →
      OperandOf (.function word.span (params.map Token.ident) body)
        (word :: opening :: ps ++ closing :: opened :: bs ++ [closed]) rest
  | array {elements : List (Expr × List Token)} {es rest : List Token} {opening closing : Token} :
      opening.kind = .leftBracket → closing.kind = .rightBracket →
      (∀ element ∈ elements, Inner E element.1 element.2) → Separated (elements.map (·.2)) es →
      OperandOf (.array opening.span (elements.map (·.1))) (opening :: es ++ [closing]) rest
  | hash {entries : List Entry} {es rest : List Token} {opening closing : Token} :
      opening.kind = .leftBrace → closing.kind = .rightBrace →
      (∀ entry ∈ entries, Inner E entry.key entry.keyTokens ∧ entry.colon.kind = .colon ∧
        Inner E entry.value entry.valueTokens) →
      Separated (entries.map Entry.tokens) es →
      OperandOf (.hash opening.span (entries.map Entry.pair)) (opening :: es ++ [closing]) rest

inductive SuffixOf (left : Expr) (sign : Token) : Suffix → Expr → List Token → List Token → Prop where
  | operator {operator : Operator} {precedence : Precedence} {right : Expr} {rs rest : List Token} :
      E precedence right rs rest →
      SuffixOf left sign (.operator operator precedence) (.binary sign.span operator left right) rs rest
  | call {arguments : List (Expr × List Token)} {as rest : List Token} {closing : Token} :
      closing.kind = .rightParen → (∀ argument ∈ arguments, Inner E argument.1 argument.2) →
      Separated (arguments.map (·.2)) as →
      SuffixOf left sign .call (.call sign.span left (arguments.map (·.1))) (as ++ [closing]) rest
  | index {index : Expr} {is rest : List Token} {closing : Token} :
      closing.kind = .rightBracket → Inner E index is →
      SuffixOf left sign .index (.index sign.span left index) (is ++ [closing]) rest

inductive StatementOf : Stmt → List Token → List Token → Prop where
  | bind {word name sign : Token} {value : Expr} {vs rest : List Token} :
      word.kind = .letWord → name.kind = .identifier → sign.kind = .assign → E .lowest value vs rest →
      StatementOf (.bind word.span name.ident value) (word :: name :: sign :: vs) rest
  | ret {word : Token} {value : Expr} {vs rest : List Token} :
      word.kind = .returnWord → E .lowest value vs rest →
      StatementOf (.ret word.span value) (word :: vs) rest
  | branch {condition : Expr} {consequence : Block} {cs bs rest : List Token}
      {word opening closing opened closed : Token} :
      word.kind = .ifWord → opening.kind = .leftParen → closing.kind = .rightParen →
      opened.kind = .leftBrace → Inner E condition cs → Body B consequence bs closed →
      StatementOf (.branch word.span condition consequence none)
        (word :: opening :: cs ++ closing :: opened :: bs ++ [closed]) rest
  | branchElse {condition : Expr} {consequence alternative : Block} {cs bs as rest : List Token}
      {word opening closing opened closed otherwise reopened reclosed : Token} :
      word.kind = .ifWord → opening.kind = .leftParen → closing.kind = .rightParen →
      opened.kind = .leftBrace → otherwise.kind = .elseWord → reopened.kind = .leftBrace →
      Inner E condition cs → Body B consequence bs closed → Body B alternative as reclosed →
      StatementOf (.branch word.span condition consequence (some alternative))
        (word :: opening :: cs ++ closing :: opened :: bs ++ closed :: otherwise :: reopened :: as ++
          [reclosed]) rest
  | expr {value : Expr} {vs rest : List Token} {eof : Token} :
      E .lowest value vs rest → StatementOf (.expr ((vs ++ rest).headD eof).span value) vs rest

end Layers

/-! ## Productions -/

section Productions

variable {expression : Precedence → Parser Expr} {program : Parser Block}
  {E : Precedence → Expr → List Token → List Token → Prop} {B : Block → List Token → List Token → Prop}

theorem run_nextExpression (before : Token) (tokens : List Token) :
    (nextExpression expression).run (window eof (before :: tokens)) =
      (expression .lowest).run (window eof tokens) := by
  rw [nextExpression, run_advance_bind, List.tail_cons]

theorem nextExpression_takes (hE : TakesExpression eof bound expression E) :
    TakesItem eof bound (nextExpression expression) (Inner E) := by
  intro before tokens e view hlength h
  rw [run_nextExpression] at h
  exact (hE .lowest tokens e view hlength h).imp fun _ rest he => ⟨rest, he⟩

theorem pair_takes (heof : eof.kind = .eof) (hE : TakesExpression eof bound expression E) :
    TakesItem eof bound (pair expression) fun pair ts => ∃ entry : Entry,
      (Inner E entry.key entry.keyTokens ∧ entry.colon.kind = .colon ∧
        Inner E entry.value entry.valueTokens) ∧ (entry.pair, entry.tokens) = (pair, ts) := by
  intro before tokens entry view hlength h
  rw [pair, run_bind_ok] at h
  obtain ⟨key, _, hkey, h⟩ := h
  rw [run_bind_ok] at h
  obtain ⟨colon, _, hexpect, h⟩ := h
  rw [run_bind_ok] at h
  obtain ⟨value, _, hvalue, h⟩ := h
  obtain ⟨rfl, rfl⟩ := run_pure_ok.mp h
  obtain ⟨ks, rest, last, rfl, rfl, hks⟩ := nextExpression_takes hE _ _ _ _ hlength hkey
  obtain ⟨rest', rfl, hcolon, rfl⟩ := (run_expect_ok heof (by decide)).mp hexpect
  obtain ⟨vs, rest'', last', rfl, rfl, hvs⟩ :=
    nextExpression_takes hE _ _ _ _ (by simp at hlength; omega) hvalue
  exact ⟨ks ++ colon :: vs, rest'', last', by simp, rfl, ⟨key, ks, colon, value, vs⟩,
    ⟨hks, hcolon, hvs⟩, rfl⟩

theorem block_takes (heof : eof.kind = .eof) (hP : TakesProgram eof bound program B) :
    TakesItem eof bound (block program) fun body ts =>
      ∃ inner closed, ts = inner ++ [closed] ∧ Body B body inner closed := by
  intro opened tokens body view hlength h
  rw [block, run_advance_bind, List.tail_cons, run_bind_ok] at h
  obtain ⟨body', _, hbody, h⟩ := h
  obtain ⟨taken, rest, rfl, rfl, hB⟩ := hP _ _ _ hlength hbody
  rw [run_current_bind] at h
  split at h
  next hclosed =>
    obtain ⟨rfl, rfl⟩ := run_pure_ok.mp h
    rcases rest with _ | ⟨closed, rest⟩
    · simp [heof] at hclosed
    exact ⟨taken ++ [closed], rest, closed, by simp, rfl, taken, closed, rfl, hclosed, rest, hB⟩
  next => exact absurd h run_unexpected_ne_ok

theorem integer_takes {token : Token} (hkind : token.kind = .integer) {tokens : List Token} {e : Expr}
    {view : Lookahead} (h : (integer token).run (window eof (token :: tokens)) = .ok (e, view)) :
    Takes eof (token :: tokens) view (OperandOf E B e) := by
  unfold integer at h
  split at h
  next => cases h
  next hdigits =>
    simp only at h
    split at h
    next => exact absurd h run_unexpected_ne_ok
    next hvalue =>
      obtain ⟨rfl, rfl⟩ := run_pure_ok.mp h
      exact ⟨[token], tokens, token, rfl, rfl,
        .integer hkind (Nat.le_of_not_lt hdigits) rfl (Nat.le_of_not_lt hvalue)⟩

theorem function_takes (heof : eof.kind = .eof) (hP : TakesProgram eof bound program B)
    {word : Token} (hword : word.kind = .fnWord) {tokens : List Token} {e : Expr} {view : Lookahead}
    (hlength : tokens.length ≤ bound)
    (h : (do
      let _ ← expect .leftParen
      let params ← items rounds ident .rightParen
      let _ ← expect .leftBrace
      return Expr.function word.span params (← block program)).run (window eof (word :: tokens)) =
        .ok (e, view)) :
    Takes eof (word :: tokens) view (OperandOf E B e) := by
  rw [run_bind_ok] at h
  obtain ⟨opening, _, hexpect, h⟩ := h
  rw [run_bind_ok] at h
  obtain ⟨params, _, hitems, h⟩ := h
  rw [run_bind_ok] at h
  obtain ⟨opened, _, hexpect', h⟩ := h
  rw [run_bind_ok] at h
  obtain ⟨body, _, hbody, h⟩ := h
  obtain ⟨rfl, rfl⟩ := run_pure_ok.mp h
  obtain ⟨rest, rfl, hopening, rfl⟩ := (run_expect_ok heof (by decide)).mp hexpect
  have hshort : rest.length ≤ bound := by simp at hlength; omega
  obtain ⟨_, rest', last, rfl, rfl, parts, ps, closing, rfl, hclosing, rfl, hparts, hps⟩ :=
    items_takes heof (by decide) (ident_takes heof) hshort hitems
  obtain ⟨rest'', rfl, hopened, rfl⟩ := (run_expect_ok heof (by decide)).mp hexpect'
  obtain ⟨_, rest''', last', rfl, rfl, bs, closed, rfl, hB⟩ :=
    block_takes heof hP _ _ _ _ (by simp at hlength; omega) hbody
  obtain ⟨words, hwords, rfl⟩ := exists_map_eq hparts
  rw [List.map_map] at hps ⊢
  exact ⟨word :: opening :: ps ++ closing :: opened :: bs ++ [closed], rest''', last', by simp, rfl,
    .function hword hopening hclosing hopened hwords hps hB⟩

theorem unary_takes (hE : TakesExpression eof bound expression E) {sign : Token} {operator : Operator}
    (hsign : unary? sign.kind = some operator) {tokens : List Token} {e : Expr} {view : Lookahead}
    (hlength : tokens.length ≤ bound)
    (h : (do
      advance
      return Expr.unary sign.span operator (← expression .unary)).run (window eof (sign :: tokens)) =
        .ok (e, view)) :
    Takes eof (sign :: tokens) view (OperandOf E B e) := by
  rw [run_advance_bind, List.tail_cons, run_bind_ok] at h
  obtain ⟨right, _, hright, h⟩ := h
  obtain ⟨rfl, rfl⟩ := run_pure_ok.mp h
  obtain ⟨rs, rest, last, rfl, rfl, hrs⟩ := hE _ _ _ _ hlength hright
  exact ⟨sign :: rs, rest, last, rfl, rfl, .unary hsign hrs⟩

theorem group_takes (heof : eof.kind = .eof) (hE : TakesExpression eof bound expression E)
    {opening : Token} (hopening : opening.kind = .leftParen) {tokens : List Token} {e : Expr}
    {view : Lookahead} (hlength : tokens.length ≤ bound)
    (h : (do
      let inner ← nextExpression expression
      let _ ← expect .rightParen
      return inner).run (window eof (opening :: tokens)) = .ok (e, view)) :
    Takes eof (opening :: tokens) view (OperandOf E B e) := by
  rw [run_bind_ok] at h
  obtain ⟨inner, _, hinner, h⟩ := h
  rw [run_bind_ok] at h
  obtain ⟨closing, _, hexpect, h⟩ := h
  obtain ⟨rfl, rfl⟩ := run_pure_ok.mp h
  obtain ⟨ts, rest, last, rfl, rfl, hts⟩ := nextExpression_takes hE _ _ _ _ hlength hinner
  obtain ⟨rest', rfl, hclosing, rfl⟩ := (run_expect_ok heof (by decide)).mp hexpect
  exact ⟨opening :: ts ++ [closing], rest', closing, by simp, rfl, .group hopening hclosing hts⟩

theorem array_takes (heof : eof.kind = .eof) (hE : TakesExpression eof bound expression E)
    {opening : Token} (hopening : opening.kind = .leftBracket) {tokens : List Token} {e : Expr}
    {view : Lookahead} (hlength : tokens.length ≤ bound)
    (h : (do
      return Expr.array opening.span (← items rounds (nextExpression expression) .rightBracket)).run
        (window eof (opening :: tokens)) = .ok (e, view)) :
    Takes eof (opening :: tokens) view (OperandOf E B e) := by
  rw [run_bind_ok] at h
  obtain ⟨elements, _, hitems, h⟩ := h
  obtain ⟨rfl, rfl⟩ := run_pure_ok.mp h
  obtain ⟨_, rest, last, rfl, rfl, parts, es, closing, rfl, hclosing, rfl, hparts, hes⟩ :=
    items_takes heof (by decide) (nextExpression_takes hE) hlength hitems
  exact ⟨opening :: es ++ [closing], rest, last, rfl, rfl, .array hopening hclosing hparts hes⟩

theorem hash_takes (heof : eof.kind = .eof) (hE : TakesExpression eof bound expression E)
    {opening : Token} (hopening : opening.kind = .leftBrace) {tokens : List Token} {e : Expr}
    {view : Lookahead} (hlength : tokens.length ≤ bound)
    (h : (do
      return Expr.hash opening.span (← items rounds (pair expression) .rightBrace)).run
        (window eof (opening :: tokens)) = .ok (e, view)) :
    Takes eof (opening :: tokens) view (OperandOf E B e) := by
  rw [run_bind_ok] at h
  obtain ⟨pairs, _, hitems, h⟩ := h
  obtain ⟨rfl, rfl⟩ := run_pure_ok.mp h
  obtain ⟨_, rest, last, rfl, rfl, parts, es, closing, rfl, hclosing, rfl, hparts, hes⟩ :=
    items_takes heof (by decide) (pair_takes heof hE) hlength hitems
  obtain ⟨entries, hentries, rfl⟩ := exists_map_eq hparts
  rw [List.map_map] at hes ⊢
  exact ⟨opening :: es ++ [closing], rest, last, rfl, rfl, .hash hopening hclosing hentries hes⟩

theorem operand_takes (heof : eof.kind = .eof) (hE : TakesExpression eof bound expression E)
    (hP : TakesProgram eof bound program B) {tokens : List Token} {e : Expr} {view : Lookahead}
    (hlength : tokens.length ≤ bound)
    (h : (operand rounds expression program).run (window eof tokens) = .ok (e, view)) :
    Takes eof tokens view (OperandOf E B e) := by
  rw [operand, run_current_bind] at h
  rcases tokens with _ | ⟨token, tokens⟩
  · simp only [current_window_nil, heof] at h
    exact absurd h run_unexpected_ne_ok
  have hrest : tokens.length ≤ bound := by simp at hlength; omega
  have single {found : Expr} (h : OperandOf E B found [token] tokens) :
      Takes eof (token :: tokens) (window eof (token :: tokens)) (OperandOf E B found) :=
    ⟨[token], tokens, token, rfl, rfl, h⟩
  simp only [current_window_cons] at h
  split at h
  next hkind =>
    obtain ⟨rfl, rfl⟩ := run_pure_ok.mp h
    exact single (.name hkind)
  next hkind => exact integer_takes hkind h
  next hkind =>
    obtain ⟨rfl, rfl⟩ := run_pure_ok.mp h
    exact single (.trueWord hkind)
  next hkind =>
    obtain ⟨rfl, rfl⟩ := run_pure_ok.mp h
    exact single (.falseWord hkind)
  next hkind =>
    obtain ⟨rfl, rfl⟩ := run_pure_ok.mp h
    exact single (.string hkind)
  next hkind => exact unary_takes hE (congrArg unary? hkind) hrest h
  next hkind => exact unary_takes hE (congrArg unary? hkind) hrest h
  next hkind => exact group_takes heof hE hkind hrest h
  next hkind => exact function_takes heof hP hkind hrest h
  next hkind => exact array_takes heof hE hkind hrest h
  next hkind => exact hash_takes heof hE hkind hrest h
  next => exact absurd h run_unexpected_ne_ok

theorem suffix_takes (heof : eof.kind = .eof) (hE : TakesExpression eof bound expression E)
    {sign : Token} {tokens : List Token} {next : Suffix} {left e : Expr} {view : Lookahead}
    (hlength : tokens.length ≤ bound)
    (h : (suffix rounds expression left next).run (window eof (sign :: tokens)) = .ok (e, view)) :
    Takes eof tokens view (SuffixOf E left sign next e) := by
  cases next with
  | operator operator precedence =>
    rw [suffix, run_current_bind, run_advance_bind, List.tail_cons, run_bind_ok] at h
    obtain ⟨right, _, hright, h⟩ := h
    obtain ⟨rfl, rfl⟩ := run_pure_ok.mp h
    exact (hE _ _ _ _ hlength hright).imp fun _ _ hrs => .operator hrs
  | call =>
    rw [suffix, run_current_bind, run_bind_ok] at h
    obtain ⟨arguments, _, hitems, h⟩ := h
    obtain ⟨rfl, rfl⟩ := run_pure_ok.mp h
    obtain ⟨_, rest, last, rfl, rfl, parts, as, closing, rfl, hclosing, rfl, hparts, has⟩ :=
      items_takes heof (by decide) (nextExpression_takes hE) hlength hitems
    exact ⟨as ++ [closing], rest, last, rfl, rfl, .call hclosing hparts has⟩
  | index =>
    rw [suffix, run_current_bind, run_bind_ok] at h
    obtain ⟨index, _, hindex, h⟩ := h
    rw [run_bind_ok] at h
    obtain ⟨closing, _, hexpect, h⟩ := h
    obtain ⟨rfl, rfl⟩ := run_pure_ok.mp h
    obtain ⟨is, rest, last, rfl, rfl, his⟩ := nextExpression_takes hE _ _ _ _ hlength hindex
    obtain ⟨rest', rfl, hclosing, rfl⟩ := (run_expect_ok heof (by decide)).mp hexpect
    exact ⟨is ++ [closing], rest', closing, by simp, rfl, .index hclosing his⟩

/-- What each suffix keeps of the expression so far and the tokens taken for it, the whole loop keeps. If
the loop is not cut short, no suffix is left that binds more tightly. -/
theorem extend_takes (heof : eof.kind = .eof) (precedence : Precedence)
    {L : Expr → List Token → List Token → Prop}
    (step : ∀ {sign : Token} {next : Suffix} {left e : Expr} {ts tokens : List Token} {view : Lookahead},
      Suffix.ofKind? sign.kind = some next → precedence.rank < next.precedence.rank →
      tokens.length ≤ bound → L left ts (sign :: tokens) →
      (suffix rounds expression left next).run (window eof (sign :: tokens)) = .ok (e, view) →
      Takes eof tokens view fun us rest => L e (ts ++ sign :: us) rest)
    (fuel : Nat) {left e : Expr} {ts : List Token} {last : Token} {tokens : List Token}
    {view : Lookahead} (hlength : tokens.length ≤ bound) (hleft : L left ts tokens)
    (h : (extend rounds expression precedence fuel left).run (window eof (last :: tokens)) =
      .ok (e, view)) :
    Takes eof tokens view fun us rest =>
      L e (ts ++ us) rest ∧ (tokens.length ≤ fuel → Settled precedence rest) := by
  induction fuel generalizing left ts last tokens with
  | zero =>
    obtain ⟨rfl, rfl⟩ := run_pure_ok.mp h
    -- The fuel ends the loop, and only where no token is left was it enough.
    refine ⟨[], tokens, last, rfl, rfl, by simpa using hleft, fun hfuel => ?_⟩
    rw [List.length_eq_zero_iff.mp (Nat.le_zero.mp hfuel)]
    exact settled_nil _
  | succ fuel ih =>
    rw [extend, run_peek_bind, peek_window_cons] at h
    rcases tokens with _ | ⟨sign, tokens⟩
    · simp only [List.headD_nil, heof, Suffix.ofKind?] at h
      obtain ⟨rfl, rfl⟩ := run_pure_ok.mp h
      exact ⟨[], [], last, rfl, rfl, by simpa using hleft, fun _ => settled_nil _⟩
    rw [List.headD_cons] at h
    split at h
    next hnone =>
      obtain ⟨rfl, rfl⟩ := run_pure_ok.mp h
      exact ⟨[], sign :: tokens, last, rfl, rfl, by simpa using hleft,
        fun _ => settled_of_none hnone _ _⟩
    next next hnext =>
      have hrest : tokens.length ≤ bound := by simp at hlength; omega
      split at h
      next hlt =>
        rw [run_advance_bind, List.tail_cons, run_bind_ok] at h
        obtain ⟨left', _, hsuffix, h⟩ := h
        obtain ⟨us, rest, last', rfl, rfl, hL⟩ := step hnext hlt hrest hleft hsuffix
        obtain ⟨vs, rest', last'', rfl, rfl, hL', settled⟩ :=
          ih (by simp at hrest; omega) hL h
        exact ⟨sign :: us ++ vs, rest', last'', by simp, rfl, by simpa using hL',
          fun hfuel => settled (by simp at hfuel ⊢; omega)⟩
      next hge =>
        obtain ⟨rfl, rfl⟩ := run_pure_ok.mp h
        refine ⟨[], sign :: tokens, last, rfl, rfl, by simpa using hleft, fun _ => ?_⟩
        rintro _ ⟨⟩ suffix hs
        obtain rfl := Option.some.inj (hnext.symm.trans hs)
        exact Nat.le_of_not_lt hge

theorem branch_takes (heof : eof.kind = .eof) (hE : TakesExpression eof bound expression E)
    (hP : TakesProgram eof bound program B) {word : Token} (hword : word.kind = .ifWord)
    {tokens : List Token} {s : Stmt} {view : Lookahead} (hlength : tokens.length ≤ bound)
    (h : (branch expression program).run (window eof (word :: tokens)) = .ok (s, view)) :
    Takes eof (word :: tokens) view (StatementOf E B s) := by
  rw [branch, run_current_bind, run_bind_ok] at h
  obtain ⟨opening, _, hexpect, h⟩ := h
  rw [run_bind_ok] at h
  obtain ⟨condition, _, hcondition, h⟩ := h
  rw [run_bind_ok] at h
  obtain ⟨closing, _, hexpect', h⟩ := h
  rw [run_bind_ok] at h
  obtain ⟨opened, _, hexpect'', h⟩ := h
  rw [run_bind_ok] at h
  obtain ⟨consequence, _, hconsequence, h⟩ := h
  obtain ⟨rest, rfl, hopening, rfl⟩ := (run_expect_ok heof (by decide)).mp hexpect
  obtain ⟨cs, rest, last, rfl, rfl, hcs⟩ :=
    nextExpression_takes hE _ _ _ _ (by simp at hlength; omega) hcondition
  obtain ⟨rest', rfl, hclosing, rfl⟩ := (run_expect_ok heof (by decide)).mp hexpect'
  obtain ⟨rest', rfl, hopened, rfl⟩ := (run_expect_ok heof (by decide)).mp hexpect''
  obtain ⟨_, rest, last', rfl, rfl, bs, closed, rfl, hbs⟩ :=
    block_takes heof hP _ _ _ _ (by simp at hlength; omega) hconsequence
  rw [run_peek_bind, peek_window_cons] at h
  split at h
  next helse =>
    rcases rest with _ | ⟨otherwise, rest⟩
    · simp [heof] at helse
    rw [run_advance_bind, List.tail_cons, run_bind_ok] at h
    obtain ⟨reopened, _, hexpect, h⟩ := h
    rw [run_bind_ok] at h
    obtain ⟨alternative, _, halternative, h⟩ := h
    obtain ⟨rfl, rfl⟩ := run_pure_ok.mp h
    obtain ⟨rest', rfl, hreopened, rfl⟩ := (run_expect_ok heof (by decide)).mp hexpect
    obtain ⟨_, rest, last'', rfl, rfl, as, reclosed, rfl, has⟩ :=
      block_takes heof hP _ _ _ _ (by simp at hlength; omega) halternative
    exact ⟨word :: opening :: cs ++ closing :: opened :: bs ++ closed :: otherwise :: reopened :: as ++
      [reclosed], rest, last'', by simp, rfl,
      .branchElse hword hopening hclosing hopened helse hreopened hcs hbs has⟩
  next =>
    obtain ⟨rfl, rfl⟩ := run_pure_ok.mp h
    exact ⟨word :: opening :: cs ++ closing :: opened :: bs ++ [closed], rest, last', by simp, rfl,
      .branch hword hopening hclosing hopened hcs hbs⟩

theorem bind_takes (heof : eof.kind = .eof) (hE : TakesExpression eof bound expression E)
    {word : Token} (hword : word.kind = .letWord) {tokens : List Token} {s : Stmt} {view : Lookahead}
    (hlength : tokens.length ≤ bound)
    (h : (do
      let name ← ident
      let _ ← expect .assign
      return Stmt.bind word.span name (← nextExpression expression)).run (window eof (word :: tokens)) =
        .ok (s, view)) :
    Takes eof (word :: tokens) view (StatementOf E B s) := by
  rw [run_bind_ok] at h
  obtain ⟨name, _, hname, h⟩ := h
  rw [run_bind_ok] at h
  obtain ⟨sign, _, hexpect, h⟩ := h
  rw [run_bind_ok] at h
  obtain ⟨value, _, hvalue, h⟩ := h
  obtain ⟨rfl, rfl⟩ := run_pure_ok.mp h
  obtain ⟨_, rest, last, rfl, rfl, name, hkind, ⟨⟩⟩ := ident_takes heof _ _ _ _ hlength hname
  obtain ⟨rest', rfl, hsign, rfl⟩ := (run_expect_ok heof (by decide)).mp hexpect
  rw [run_nextExpression] at hvalue
  obtain ⟨vs, rest, last', rfl, rfl, hvs⟩ := hE _ _ _ _ (by simp at hlength; omega) hvalue
  exact ⟨word :: name :: sign :: vs, rest, last', by simp, rfl, .bind hword hkind hsign hvs⟩

theorem statement_takes (heof : eof.kind = .eof) (hE : TakesExpression eof bound expression E)
    (hP : TakesProgram eof bound program B) {tokens : List Token} {s : Stmt} {view : Lookahead}
    (hlength : tokens.length ≤ bound)
    (h : (statement expression program).run (window eof tokens) = .ok (s, view)) :
    Takes eof tokens view (StatementOf E B s) := by
  rw [statement, run_current_bind] at h
  split at h
  next hword =>
    rcases tokens with _ | ⟨word, tokens⟩
    · simp [heof] at hword
    exact bind_takes heof hE hword (by simp at hlength; omega) h
  next hword =>
    rcases tokens with _ | ⟨word, tokens⟩
    · simp [heof] at hword
    rw [run_bind_ok] at h
    obtain ⟨value, _, hvalue, h⟩ := h
    obtain ⟨rfl, rfl⟩ := run_pure_ok.mp h
    rw [run_nextExpression] at hvalue
    obtain ⟨vs, rest, last, rfl, rfl, hvs⟩ := hE _ _ _ _ (by simp at hlength; omega) hvalue
    exact ⟨word :: vs, rest, last, rfl, rfl, .ret hword hvs⟩
  next hword =>
    rcases tokens with _ | ⟨word, tokens⟩
    · simp [heof] at hword
    exact branch_takes heof hE hP hword (by simp at hlength; omega) h
  next =>
    rw [run_bind_ok] at h
    obtain ⟨value, _, hvalue, h⟩ := h
    obtain ⟨rfl, rfl⟩ := run_pure_ok.mp h
    obtain ⟨vs, rest, last, rfl, rfl, hvs⟩ := hE _ _ _ _ hlength hvalue
    exact ⟨vs, rest, last, rfl, rfl, .expr hvs⟩

end Productions

/-! ## Blocks -/

theorem skipSemicolons_takes (heof : eof.kind = .eof) {fuel : Nat} {tokens : List Token}
    {view : Lookahead} (h : (skipSemicolons fuel).run (window eof tokens) = .ok ((), view)) :
    ∃ semicolons rest, tokens = semicolons ++ rest ∧ view = window eof rest ∧
      ∀ token ∈ semicolons, token.kind = .semicolon := by
  induction fuel generalizing tokens with
  | zero => exact ⟨[], tokens, rfl, (run_pure_ok.mp h).2.symm, by simp⟩
  | succ fuel ih =>
    rw [skipSemicolons, run_current_bind] at h
    split at h
    next hkind =>
      rcases tokens with _ | ⟨semicolon, tokens⟩
      · simp [heof] at hkind
      rw [run_advance_bind] at h
      obtain ⟨semicolons, rest, heq, hview, hall⟩ := ih h
      exact ⟨semicolon :: semicolons, rest, by simpa using heq, hview,
        List.forall_mem_cons.mpr ⟨hkind, hall⟩⟩
    next => exact ⟨[], tokens, rfl, (run_pure_ok.mp h).2.symm, by simp⟩

theorem statements_takes (heof : eof.kind = .eof) {statement : Parser Stmt}
    {S : Stmt → List Token → List Token → Prop} {T : List Stmt → List Token → List Token → Prop}
    (hS : ∀ tokens s view, tokens.length ≤ bound → statement.run (window eof tokens) = .ok (s, view) →
      Takes eof tokens view (S s))
    (empty : ∀ rest, T [] [] rest)
    (cons : ∀ {s ss ts semicolons us rest}, S s ts (semicolons ++ us ++ rest) →
      (∀ token ∈ semicolons, token.kind = .semicolon) → T ss us rest →
      T (s :: ss) (ts ++ semicolons ++ us) rest)
    {fuel : Nat} {tokens : List Token} {ss : List Stmt} {view : Lookahead}
    (hlength : tokens.length ≤ bound)
    (h : (statements statement fuel).run (window eof tokens) = .ok (ss, view)) :
    ∃ taken rest, tokens = taken ++ rest ∧ view = window eof rest ∧ T ss taken rest := by
  induction fuel generalizing tokens ss with
  | zero =>
    obtain ⟨rfl, rfl⟩ := run_pure_ok.mp h
    exact ⟨[], tokens, rfl, rfl, empty tokens⟩
  | succ fuel ih =>
    rw [statements, run_current_bind] at h
    split at h
    · obtain ⟨rfl, rfl⟩ := run_pure_ok.mp h
      exact ⟨[], tokens, rfl, rfl, empty tokens⟩
    rw [run_bind_ok] at h
    obtain ⟨s, _, hs, h⟩ := h
    obtain ⟨ts, rest, last, rfl, rfl, hts⟩ := hS _ _ _ hlength hs
    rw [run_advance_bind, List.tail_cons, run_bind_ok] at h
    obtain ⟨⟨⟩, _, hskip, h⟩ := h
    obtain ⟨semicolons, rest, rfl, rfl, hsemicolons⟩ := skipSemicolons_takes heof hskip
    rw [run_bind_ok] at h
    obtain ⟨ss, _, hss, h⟩ := h
    obtain ⟨rfl, rfl⟩ := run_pure_ok.mp h
    obtain ⟨us, rest, rfl, rfl, hus⟩ := ih (by simp at hlength; omega) hss
    rw [← List.append_assoc] at hts
    exact ⟨ts ++ semicolons ++ us, rest, by simp, rfl, cons hts hsemicolons hus⟩

theorem parseStream_takes {tokens : List Token} (htokens : ∀ token ∈ tokens, token.kind ≠ .eof) {depth : Nat}
    {B : Block → List Token → List Token → Prop}
    (hP : TakesProgram eof (tokens.length + 1) (programWithin (tokens.length + 1) depth) B)
    {program : Block} (h : parseStream depth ⟨tokens, .ok eof⟩ = .ok program) : B program tokens [] := by
  simp only [parseStream, start_eq_window, bind, Except.bind] at h
  split at h
  next => cases h
  next result hrun =>
    obtain ⟨body, view⟩ := result
    obtain ⟨taken, rest, htaken, rfl, hbody⟩ := hP _ _ _ (Nat.le_succ _) hrun
    simp only at h
    split at h
    next hkind =>
      cases h
      rcases rest with _ | ⟨token, rest⟩
      · rw [htaken, List.append_nil]
        exact hbody
      · exact absurd hkind (htokens token (by simp [htaken]))
    next => cases h

end MonkeyLang.Parser
