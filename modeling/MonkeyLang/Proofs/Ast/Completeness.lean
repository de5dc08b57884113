import MonkeyLang.Proofs.Ast.Binding
import MonkeyLang.Proofs.Ast.Window

namespace MonkeyLang.Parser
open Grammar

variable {α β : Type} {eof : Token}

theorem run_bind_of {p : Parser α} {f : α → Parser β} {view next : Lookahead} {a : α}
    (h : p.run view = .ok (a, next)) : (p >>= f).run view = (f a).run next := by
  rw [StateT.run_bind, h]
  rfl

theorem run_expect (kind : TokenKind) (first : Token) {token : Token} (rest : List Token)
    (h : token.kind = kind) :
    (expect kind).run (window eof (first :: token :: rest)) = .ok (token, window eof (token :: rest)) := by
  rw [expect, run_peek_bind, peek_window_cons, List.headD_cons, if_pos h, run_advance_bind]
  rfl

theorem lexemes_cons {tokens : List Token} {l : Lexeme} {ls : List Lexeme}
    (h : tokens.map Token.lexeme = l :: ls) :
    ∃ token rest, tokens = token :: rest ∧ token.lexeme = l ∧ rest.map Token.lexeme = ls :=
  List.map_eq_cons_iff.mp h

theorem lexemes_append {tokens : List Token} {ls rs : List Lexeme}
    (h : tokens.map Token.lexeme = ls ++ rs) :
    ∃ front back, tokens = front ++ back ∧ front.map Token.lexeme = ls ∧ back.map Token.lexeme = rs :=
  List.map_eq_append_iff.mp h

theorem lexemes_delimited {tokens : List Token} {opening closing : Lexeme} {ls : List Lexeme}
    (h : tokens.map Token.lexeme = opening :: ls ++ [closing]) :
    ∃ first inner last, tokens = first :: (inner ++ [last]) ∧ first.lexeme = opening ∧
      inner.map Token.lexeme = ls ∧ last.lexeme = closing := by
  obtain ⟨first, rest, rfl, hfirst, hrest⟩ := lexemes_cons h
  obtain ⟨inner, _, rfl, hinner, hback⟩ := lexemes_append hrest
  obtain ⟨last, _, rfl, hlast, hnil⟩ := lexemes_cons hback
  obtain rfl := List.map_eq_nil_iff.mp hnil
  exact ⟨first, inner, last, rfl, hfirst, hinner, hlast⟩

section Loop

variable {rounds : Nat} {expression : Precedence → Parser Expr}

theorem extend_settled (heof : eof.kind = .eof) {precedence : Precedence} (fuel : Nat) (left : Expr)
    (last : Token) {tokens : List Token} (settled : Settled precedence tokens) :
    (extend rounds expression precedence fuel left).run (window eof (last :: tokens)) =
      .ok (left, window eof (last :: tokens)) := by
  cases fuel with
  | zero => rfl
  | succ fuel =>
    rw [extend, run_peek_bind, peek_window_cons]
    rcases tokens with _ | ⟨token, tokens⟩
    · simp only [List.headD_nil, heof, Suffix.ofKind?]
      rfl
    rw [List.headD_cons]
    split
    · rfl
    next next hnext =>
      rw [if_neg (Nat.not_lt_of_le (settled token rfl next hnext))]
      rfl

theorem extend_suffix {precedence : Precedence} (fuel : Nat) (left : Expr) (last : Token)
    {sign : Token} (tokens : List Token) {next : Suffix} (hnext : Suffix.ofKind? sign.kind = some next)
    (hlt : precedence.rank < next.precedence.rank) :
    (extend rounds expression precedence (fuel + 1) left).run (window eof (last :: sign :: tokens)) =
      (suffix rounds expression left next >>= extend rounds expression precedence fuel).run
        (window eof (sign :: tokens)) := by
  rw [extend, run_peek_bind, peek_window_cons, List.headD_cons]
  simp only [hnext, if_pos hlt]
  rw [run_advance_bind]
  rfl

end Loop

def EndsItem (close : TokenKind) (tokens : List Token) : Prop :=
  ∃ token rest, tokens = token :: rest ∧ (token.kind = .comma ∨ token.kind = close)

def CompleteItem (eof : Token) (limit : Nat) (close : TokenKind) (item : Parser α) (forget : α → β)
    (part : β × List Lexeme) : Prop :=
  ∀ before tokens rest, tokens.map Token.lexeme = part.2 → EndsItem close rest →
    (tokens ++ rest).length ≤ limit →
    ∃ a last, forget a = part.1 ∧
      item.run (window eof (before :: (tokens ++ rest))) = .ok (a, window eof (last :: rest))

theorem items_loop {limit : Nat} {close : TokenKind} {item : Parser α} {forget : α → β}
    (hclose : close ≠ .comma) {closing : Token} (hclosing : closing.kind = close) (rest : List Token)
    (parts : List (β × List Lexeme)) (first : β × List Lexeme)
    (hitems : ∀ part ∈ first :: parts, CompleteItem eof limit close item forget part)
    (before : Token) (tokens : List Token)
    (hcommas : Commas (first.2 :: parts.map (·.2)) (tokens.map Token.lexeme)) (fuel : Nat)
    (hfuel : tokens.length ≤ fuel) (hlimit : (tokens ++ closing :: rest).length ≤ limit) :
    ∃ a as last next, forget a = first.1 ∧ as.map forget = parts.map (·.1) ∧
      item.run (window eof (before :: (tokens ++ closing :: rest))) = .ok (a, next) ∧
      (moreItems item fuel).run next = .ok (as, window eof (last :: closing :: rest)) := by
  obtain ⟨hfirst, hparts⟩ := List.forall_mem_cons.mp hitems
  induction parts generalizing first before tokens fuel with
  | nil =>
    obtain ⟨a, last, ha, hrun⟩ := hfirst before tokens (closing :: rest)
      (commas_singleton hcommas) ⟨closing, rest, rfl, .inr hclosing⟩ hlimit
    refine ⟨a, [], last, _, ha, rfl, hrun, ?_⟩
    cases fuel with
    | zero => rfl
    | succ fuel =>
      rw [moreItems, run_peek_bind, peek_window_cons, List.headD_cons, if_neg (hclosing ▸ hclose)]
      rfl
  | cons second parts ih =>
    obtain ⟨_, _, hls, hcomma, hmore⟩ := commas_cons_cons hcommas
    obtain ⟨front, back, rfl, hfront, hback⟩ := lexemes_append hls
    obtain ⟨comma, tokens, rfl, rfl, rfl⟩ := lexemes_cons hback
    obtain ⟨a, last, ha, hrun⟩ := hfirst before front (comma :: tokens ++ closing :: rest) hfront
      ⟨comma, _, rfl, .inl hcomma⟩ (by simpa using hlimit)
    rw [List.append_assoc]
    rcases fuel with _ | fuel
    · simp at hfuel
    obtain ⟨hsecond, hparts'⟩ := List.forall_mem_cons.mp hparts
    obtain ⟨a', as, last', next, ha', has, hrun', hloop⟩ := ih second hparts comma tokens hmore fuel
      (by simp at hfuel; omega) (by simp at hlimit ⊢; omega) hsecond hparts'
    refine ⟨a, a' :: as, last', _, ha, by simp [ha', has], hrun, ?_⟩
    rw [Token.lexeme_kind] at hcomma
    rw [moreItems, run_peek_bind, List.cons_append, peek_window_cons, List.headD_cons, if_pos hcomma,
      run_advance_bind, List.tail_cons, run_bind_of hrun', run_bind_of hloop]
    rfl

theorem items_complete {limit : Nat} {close : TokenKind} {item : Parser α} {forget : α → β}
    (hclose : close ≠ .comma) {closing : Token} (hclosing : closing.kind = close) (rest : List Token)
    {parts : List (β × List Lexeme)}
    (hitems : ∀ part ∈ parts, CompleteItem eof limit close item forget part)
    (hbegins : ∀ part ∈ parts, ∃ l ls, part.2 = l :: ls ∧ l.kind ≠ close)
    (opening : Token) {tokens : List Token} (hcommas : Commas (parts.map (·.2)) (tokens.map Token.lexeme))
    (rounds : Nat) (hrounds : tokens.length ≤ rounds)
    (hlimit : (tokens ++ closing :: rest).length ≤ limit) :
    ∃ as, as.map forget = parts.map (·.1) ∧
      (items rounds item close).run (window eof (opening :: (tokens ++ closing :: rest))) =
        .ok (as, window eof (closing :: rest)) := by
  rw [items, run_peek_bind, peek_window_cons]
  cases parts with
  | nil =>
    obtain rfl := List.map_eq_nil_iff.mp (commas_nil hcommas)
    refine ⟨[], rfl, ?_⟩
    rw [List.nil_append, List.headD_cons, if_pos hclosing, run_advance_bind]
    rfl
  | cons first parts =>
    obtain ⟨l, ls, hl, hne⟩ := hbegins first (by simp)
    have hhead : ((tokens ++ closing :: rest).headD eof).kind ≠ close := by
      obtain ⟨_, htokens⟩ := commas_cons hcommas
      simp only [hl, List.cons_append] at htokens
      obtain ⟨token, tokens, rfl, rfl, -⟩ := lexemes_cons htokens
      exact hne
    obtain ⟨a, as, last, next, ha, has, hrun, hloop⟩ := items_loop hclose hclosing rest parts first
      hitems opening tokens hcommas rounds hrounds hlimit
    refine ⟨a :: as, by simp [ha, has], ?_⟩
    rw [if_neg hhead, run_bind_of hrun, run_bind_of hloop, run_bind_of (run_expect close last rest hclosing)]
    rfl

/-- The parser reads the phrase from its lexemes, with enough nesting allowed for the tokens left. -/
def Complete (eof : Token) : Phrase → List Lexeme → Prop
  | .expr stratum e, ls => ∀ tokens rest rounds depth precedence, tokens.map Token.lexeme = ls →
      precedence.rank ≤ Precedence.unary.rank → precedence.stratum.level ≤ stratum.level →
      Settled stratum.precedence rest →
      (tokens ++ rest).length ≤ rounds → (tokens ++ rest).length ≤ depth →
      ∃ e' last fuel, Expr.erase e' = e ∧ rest.length ≤ fuel ∧
        (expressionWithin rounds (depth + 1) precedence).run (window eof (tokens ++ rest)) =
          (extend rounds (expressionWithin rounds depth) precedence fuel e').run
            (window eof (last :: rest))
  | .pair entry, ls => ∀ limit rounds depth, limit ≤ rounds → limit ≤ depth →
      CompleteItem eof limit .rightBrace (pair (expressionWithin rounds (depth + 1)))
        (fun a => (a.1.erase, a.2.erase)) (entry, ls)
  | .stmt s, ls => ∀ tokens rest rounds depth, tokens.map Token.lexeme = ls →
      (endsInExpression s = true → Settled .lowest rest) →
      (∀ token ∈ rest.head?, token.kind ≠ .elseWord) →
      (tokens ++ rest).length ≤ rounds → (tokens ++ rest).length ≤ depth →
      ∃ s' last, Stmt.erase s' = s ∧
        (statement (expressionWithin rounds (depth + 1)) (programWithin rounds (depth + 1))).run
          (window eof (tokens ++ rest)) = .ok (s', window eof (last :: rest))
  | .body b, ls => ∀ tokens rest rounds depth fuel, tokens.map Token.lexeme = ls →
      endsBlock (rest.headD eof) = true → tokens.length ≤ fuel →
      (tokens ++ rest).length ≤ rounds → (tokens ++ rest).length ≤ depth →
      ∃ ss, Block.mk default (Stmt.eraseAll ss) = b ∧
        (statements (statement (expressionWithin rounds (depth + 1)) (programWithin rounds (depth + 1)))
          fuel).run (window eof (tokens ++ rest)) = .ok (ss, window eof rest)

variable {rounds depth : Nat}

theorem Complete.expression (heof : eof.kind = .eof) {stratum : Stratum} {e : Expr}
    {ls : List Lexeme} (h : Complete eof (.expr stratum e) ls) (rounds depth : Nat)
    (precedence : Precedence) {tokens : List Token} (htokens : tokens.map Token.lexeme = ls)
    (rest : List Token) (hrank : precedence.rank ≤ Precedence.unary.rank)
    (hlevel : precedence.stratum.level ≤ stratum.level) (settled : Settled precedence rest)
    (hle : precedence.rank ≤ stratum.precedence.rank) (hrounds : (tokens ++ rest).length ≤ rounds)
    (hdepth : (tokens ++ rest).length ≤ depth) :
    ∃ e' last, Expr.erase e' = e ∧
      (expressionWithin rounds (depth + 1) precedence).run (window eof (tokens ++ rest)) =
        .ok (e', window eof (last :: rest)) := by
  obtain ⟨e', last, fuel, he, -, hrun⟩ :=
    h tokens rest rounds depth precedence htokens hrank hlevel (settled.mono hle) hrounds hdepth
  exact ⟨e', last, he, hrun.trans (extend_settled heof fuel e' last settled)⟩

theorem Complete.nextExpression (heof : eof.kind = .eof) {e : Expr} {ls : List Lexeme}
    (h : Complete eof (.expr .equality e) ls) (rounds depth : Nat) (before : Token)
    {tokens : List Token} (htokens : tokens.map Token.lexeme = ls) (rest : List Token) (settled : Settled .lowest rest)
    (hrounds : (tokens ++ rest).length ≤ rounds) (hdepth : (tokens ++ rest).length ≤ depth) :
    ∃ e' last, Expr.erase e' = e ∧
      (nextExpression (expressionWithin rounds (depth + 1))).run
        (window eof (before :: (tokens ++ rest))) = .ok (e', window eof (last :: rest)) := by
  obtain ⟨e', last, he, hrun⟩ := h.expression heof rounds depth .lowest htokens rest (by decide)
    (by decide) settled (by decide) hrounds hdepth
  refine ⟨e', last, he, ?_⟩
  rw [Parser.nextExpression, run_advance_bind, List.tail_cons, hrun]

theorem Complete.item (heof : eof.kind = .eof) {close : TokenKind}
    (hclose : Suffix.ofKind? close = none) {limit : Nat} (hrounds : limit ≤ rounds)
    (hdepth : limit ≤ depth) {part : Expr × List Lexeme}
    (h : Complete eof (.expr .equality part.1) part.2) :
    CompleteItem eof limit close (Parser.nextExpression (expressionWithin rounds (depth + 1)))
      Expr.erase part := by
  rintro before tokens _ htokens ⟨token, rest, rfl, hkind⟩ hlimit
  refine h.nextExpression heof rounds depth before htokens _ (settled_of_none ?_ _ _) (by omega)
    (by omega)
  rcases hkind with hkind | hkind
  · rw [hkind]; rfl
  · rw [hkind]; exact hclose

theorem Complete.block {b : Block} {ls : List Lexeme} (h : Complete eof (.body b) ls)
    (rounds depth : Nat) (opened : Token) {tokens : List Token}
    (htokens : tokens.map Token.lexeme = ls) {closed : Token} (hclosed : closed.kind = .rightBrace)
    (rest : List Token)
    (hrounds : (tokens ++ closed :: rest).length ≤ rounds)
    (hdepth : (tokens ++ closed :: rest).length ≤ depth) :
    ∃ b', Block.erase b' = b ∧
      (block (programWithin rounds (depth + 2))).run
        (window eof (opened :: (tokens ++ closed :: rest))) =
          .ok (b', window eof (closed :: rest)) := by
  obtain ⟨ss, hss, hrun⟩ := h tokens (closed :: rest) rounds depth rounds htokens
    (by simp [endsBlock, hclosed]) (by simp at hrounds; omega) hrounds hdepth
  refine ⟨.mk (window eof (tokens ++ closed :: rest)).current.span ss, hss, ?_⟩
  rw [Parser.block, run_advance_bind, List.tail_cons, programWithin]
  rw [bind_assoc, run_current_bind, bind_assoc, run_bind_of hrun]
  simp only [pure_bind, run_current_bind, current_window_cons, hclosed, if_true]
  rfl

theorem expression_of_operand {tokens rest : List Token} (precedence : Precedence) (e : Expr)
    (last : Token) (hrounds : rest.length ≤ rounds)
    (h : (operand rounds (expressionWithin rounds depth) (programWithin rounds depth)).run
      (window eof tokens) = .ok (e, window eof (last :: rest))) :
    ∃ e' last fuel, Expr.erase e' = Expr.erase e ∧ rest.length ≤ fuel ∧
      (expressionWithin rounds (depth + 1) precedence).run (window eof tokens) =
        (extend rounds (expressionWithin rounds depth) precedence fuel e').run
          (window eof (last :: rest)) :=
  ⟨e, last, rounds, rfl, hrounds, by rw [expressionWithin, run_bind_of h]⟩

theorem complete_inner {stratum : Stratum} {e : Expr} {ls : List Lexeme}
    (ih : Complete eof (.expr stratum.inner e) ls) : Complete eof (.expr stratum e) ls := by
  intro tokens rest rounds depth precedence htokens hrank hlevel settled hrounds hdepth
  exact ih tokens rest rounds depth precedence htokens hrank
    (Nat.le_trans hlevel (Stratum.level_le_inner stratum))
    (settled.mono (Stratum.rank_le_inner stratum)) hrounds hdepth

theorem complete_binary (heof : eof.kind = .eof) {stratum : Stratum} {operator : Operator}
    {left right : Expr} {ls rs : List Lexeme} {sign : Lexeme}
    (hsign : binary? sign.kind = some (stratum, operator))
    (ihl : Complete eof (.expr stratum left) ls) (ihr : Complete eof (.expr stratum.inner right) rs) :
    Complete eof (.expr stratum (.binary default operator left right)) (ls ++ sign :: rs) := by
  intro tokens rest rounds depth precedence htokens hrank hlevel settled hrounds hdepth
  obtain ⟨front, back, rfl, hfront, hback⟩ := lexemes_append htokens
  obtain ⟨token, back, rfl, rfl, hright⟩ := lexemes_cons hback
  have hsuffix := Suffix.ofKind?_binary hsign
  have settled' : Settled stratum.precedence (token :: back ++ rest) := by
    rintro _ ⟨⟩ suffix hs
    obtain rfl := Option.some.inj (hsuffix.symm.trans hs)
    exact Nat.le_refl _
  obtain ⟨left', last, fuel, rfl, hfuel, hrun⟩ := ihl front (token :: back ++ rest) rounds depth
    precedence hfront hrank hlevel settled' (by simpa using hrounds) (by simpa using hdepth)
  obtain ⟨depth, rfl⟩ : ∃ d, depth = d + 1 := ⟨depth - 1, by simp at hdepth; omega⟩
  obtain ⟨fuel, rfl⟩ : ∃ n, fuel = n + 1 := ⟨fuel - 1, by simp at hfuel; omega⟩
  obtain ⟨right', last', rfl, hread⟩ := ihr.expression heof rounds depth _ hright rest
    (rank_le_unary_of_binary hsign) (Nat.le_of_eq (by rw [stratum_of_binary hsign])) settled
    (Stratum.rank_le_inner stratum) (by simp at hrounds ⊢; omega) (by simp at hdepth ⊢; omega)
  refine ⟨.binary token.span operator left' right', last', fuel, rfl, by simp at hfuel; omega, ?_⟩
  rw [List.append_assoc, hrun, List.cons_append, extend_suffix fuel left' last _ hsuffix
    (rank_lt_of_binary hsign hlevel), suffix, bind_assoc, run_current_bind, bind_assoc,
    run_advance_bind, List.tail_cons, bind_assoc, run_bind_of hread, pure_bind]
  rfl

theorem expressions_complete (heof : eof.kind = .eof) (close : TokenKind) (rounds depth : Nat)
    (hnone : Suffix.ofKind? close = none) (hclose : close ≠ .comma)
    (hbegins : beginsExpression close = false) {closing : Token} (hclosing : closing.kind = close)
    {parts : List (Expr × List Lexeme)}
    (hderives : ∀ part ∈ parts, Derives (.expr .equality part.1) part.2)
    (hcomplete : ∀ part ∈ parts, Complete eof (.expr .equality part.1) part.2) (opening : Token)
    {tokens : List Token} (hcommas : Commas (parts.map (·.2)) (tokens.map Token.lexeme))
    (rest : List Token) (hrounds : (tokens ++ closing :: rest).length ≤ rounds)
    (hdepth : (tokens ++ closing :: rest).length ≤ depth) :
    ∃ as, Expr.eraseAll as = parts.map (·.1) ∧
      (items rounds (nextExpression (expressionWithin rounds (depth + 1))) close).run
        (window eof (opening :: (tokens ++ closing :: rest))) =
          .ok (as, window eof (closing :: rest)) := by
  have hheads : ∀ part ∈ parts, ∃ l ls, part.2 = l :: ls ∧ l.kind ≠ close := by
    intro part mem
    obtain ⟨l, ls, hls, hl⟩ := (hderives part mem).begins
    refine ⟨l, ls, hls, fun h => ?_⟩
    rw [h, hbegins] at hl
    cases hl
  obtain ⟨as, has, hrun⟩ := items_complete hclose hclosing rest
    (fun part mem => (hcomplete part mem).item heof hnone hrounds hdepth) hheads opening hcommas
    rounds (by simp at hrounds; omega) (Nat.le_refl _)
  exact ⟨as, by rw [Expr.eraseAll_eq_map, has], hrun⟩

theorem complete_call (heof : eof.kind = .eof) {callee : Expr} {arguments : List (Expr × List Lexeme)}
    {ls as : List Lexeme} {opening closing : Lexeme} (hopening : opening.kind = .leftParen)
    (hclosing : closing.kind = .rightParen)
    (hderives : ∀ argument ∈ arguments, Derives (.expr .equality argument.1) argument.2)
    (hcommas : Commas (arguments.map (·.2)) as) (ihc : Complete eof (.expr .suffixed callee) ls)
    (iha : ∀ argument ∈ arguments, Complete eof (.expr .equality argument.1) argument.2) :
    Complete eof (.expr .suffixed (.call default callee (arguments.map (·.1))))
      (ls ++ opening :: as ++ [closing]) := by
  intro tokens rest rounds depth precedence htokens hrank hlevel settled hrounds hdepth
  rw [List.append_assoc] at htokens
  obtain ⟨front, back, rfl, hfront, hback⟩ := lexemes_append htokens
  obtain ⟨token, inner, token', rfl, rfl, rfl, rfl⟩ := lexemes_delimited hback
  obtain ⟨callee', last, fuel, rfl, hfuel, hrun⟩ := ihc front (token :: inner ++ token' :: rest) rounds
    depth precedence hfront hrank hlevel (settled_index _) (by simpa using hrounds) (by simpa using hdepth)
  obtain ⟨depth, rfl⟩ : ∃ d, depth = d + 1 := ⟨depth - 1, by simp at hdepth; omega⟩
  obtain ⟨fuel, rfl⟩ : ∃ n, fuel = n + 1 := ⟨fuel - 1, by simp at hfuel; omega⟩
  obtain ⟨as', has, hitems⟩ := expressions_complete heof .rightParen rounds depth rfl (by decide) rfl
    hclosing hderives iha token hcommas rest
    (by simp at hrounds ⊢; omega) (by simp at hdepth ⊢; omega)
  refine ⟨.call token.span callee' as', token', fuel, by rw [Expr.erase, has],
    by simp at hfuel; omega, ?_⟩
  have hnext : Suffix.ofKind? token.kind = some .call := by
    rw [Token.lexeme_kind] at hopening
    rw [hopening]
    rfl
  have htree : front ++ token :: (inner ++ [token']) ++ rest = front ++ (token :: inner ++ token' :: rest) := by
    simp
  rw [htree, hrun, List.cons_append, extend_suffix fuel callee' last _ hnext
    (Nat.lt_of_le_of_lt hrank (by decide)), suffix, bind_assoc, run_current_bind, bind_assoc,
    run_bind_of hitems, pure_bind]
  rfl

theorem complete_index (heof : eof.kind = .eof) {left index : Expr} {ls is : List Lexeme}
    {opening closing : Lexeme} (hopening : opening.kind = .leftBracket)
    (hclosing : closing.kind = .rightBracket) (ihl : Complete eof (.expr .suffixed left) ls)
    (ihi : Complete eof (.expr .equality index) is) :
    Complete eof (.expr .suffixed (.index default left index)) (ls ++ opening :: is ++ [closing]) := by
  intro tokens rest rounds depth precedence htokens hrank hlevel settled hrounds hdepth
  rw [List.append_assoc] at htokens
  obtain ⟨front, back, rfl, hfront, hback⟩ := lexemes_append htokens
  obtain ⟨token, inner, token', rfl, rfl, hinner, rfl⟩ := lexemes_delimited hback
  obtain ⟨left', last, fuel, rfl, hfuel, hrun⟩ := ihl front (token :: inner ++ token' :: rest) rounds
    depth precedence hfront hrank hlevel (settled_index _) (by simpa using hrounds) (by simpa using hdepth)
  obtain ⟨depth, rfl⟩ : ∃ d, depth = d + 1 := ⟨depth - 1, by simp at hdepth; omega⟩
  obtain ⟨fuel, rfl⟩ : ∃ n, fuel = n + 1 := ⟨fuel - 1, by simp at hfuel; omega⟩
  rw [Token.lexeme_kind] at hopening hclosing
  obtain ⟨index', last', rfl, hread⟩ := ihi.nextExpression heof rounds depth token hinner (token' :: rest)
    (settled_of_none (by rw [hclosing]; rfl) _ _)
    (by simp at hrounds ⊢; omega) (by simp at hdepth ⊢; omega)
  refine ⟨.index token.span left' index', token', fuel, rfl, by simp at hfuel; omega, ?_⟩
  have hnext : Suffix.ofKind? token.kind = some .index := by
    rw [hopening]
    rfl
  have htree : front ++ token :: (inner ++ [token']) ++ rest = front ++ (token :: inner ++ token' :: rest) := by
    simp
  rw [htree, hrun, List.cons_append, extend_suffix fuel left' last _ hnext
    (Nat.lt_of_le_of_lt hrank (by decide)), suffix, bind_assoc, run_current_bind, bind_assoc,
    run_bind_of hread, bind_assoc, run_bind_of (run_expect _ _ _ hclosing), pure_bind]
  rfl

theorem complete_unary (heof : eof.kind = .eof) {operator : Operator} {right : Expr} {sign : Lexeme}
    {rs : List Lexeme} (hsign : unary? sign.kind = some operator)
    (ih : Complete eof (.expr .unary right) rs) :
    Complete eof (.expr .unary (.unary default operator right)) (sign :: rs) := by
  intro tokens rest rounds depth precedence htokens hrank hlevel settled hrounds hdepth
  obtain ⟨token, back, rfl, rfl, hback⟩ := lexemes_cons htokens
  obtain ⟨depth, rfl⟩ : ∃ d, depth = d + 1 := ⟨depth - 1, by simp at hdepth; omega⟩
  obtain ⟨right', last, rfl, hread⟩ := ih.expression heof rounds depth .unary hback rest (by decide)
    (by decide) settled (by decide) (by simp at hrounds ⊢; omega) (by simp at hdepth ⊢; omega)
  refine expression_of_operand precedence (.unary token.span operator right') last
    (by simp at hrounds; omega) ?_
  rw [Token.lexeme_kind] at hsign
  rw [operand, List.cons_append, run_current_bind, current_window_cons]
  rcases unary?_eq_some hsign with ⟨hkind, rfl⟩ | ⟨hkind, rfl⟩
  · simp only [hkind]
    rw [run_advance_bind, List.tail_cons, run_bind_of hread]
    rfl
  · simp only [hkind]
    rw [run_advance_bind, List.tail_cons, run_bind_of hread]
    rfl

theorem complete_atom {l : Lexeme} {e : Expr}
    (h : ∀ (token : Token) (rest : List Token) rounds depth, token.lexeme = l →
      ∃ e', Expr.erase e' = e ∧
        (operand rounds (expressionWithin rounds depth) (programWithin rounds depth)).run
          (window eof (token :: rest)) = .ok (e', window eof (token :: rest))) :
    Complete eof (.expr .atom e) [l] := by
  intro tokens rest rounds depth precedence htokens hrank hlevel settled hrounds hdepth
  obtain ⟨token, _, rfl, htoken, hnil⟩ := lexemes_cons htokens
  obtain rfl := List.map_eq_nil_iff.mp hnil
  obtain ⟨e', rfl, hrun⟩ := h token rest rounds depth htoken
  exact expression_of_operand precedence e' token (by simp at hrounds; omega) hrun

theorem complete_integer {digits : Lexeme} {value : Nat} (hkind : digits.kind = .integer)
    (hlength : digits.literal.length ≤ maxDigits)
    (hvalue : value = Nat.ofDigitChars 10 digits.literal.toList 0) (hmax : value ≤ maxInteger) :
    Complete eof (.expr .atom (.integer default value)) [digits] := by
  refine complete_atom fun token rest rounds depth htoken => ?_
  subst htoken
  rw [Token.lexeme_kind] at hkind
  rw [Token.lexeme_literal] at hlength hvalue
  refine ⟨.integer token.span value, rfl, ?_⟩
  rw [operand, run_current_bind, current_window_cons]
  simp only [hkind]
  rw [integer, if_neg (Nat.not_lt_of_le hlength)]
  simp only [← hvalue, if_neg (Nat.not_lt_of_le hmax)]
  rfl

theorem complete_group (heof : eof.kind = .eof) {e : Expr} {ls : List Lexeme}
    {opening closing : Lexeme} (hopening : opening.kind = .leftParen)
    (hclosing : closing.kind = .rightParen) (ih : Complete eof (.expr .equality e) ls) :
    Complete eof (.expr .atom e) (opening :: ls ++ [closing]) := by
  intro tokens rest rounds depth precedence htokens hrank hlevel settled hrounds hdepth
  obtain ⟨token, inner, token', rfl, rfl, hinner, rfl⟩ := lexemes_delimited htokens
  rw [Token.lexeme_kind] at hopening hclosing
  obtain ⟨depth, rfl⟩ : ∃ d, depth = d + 1 := ⟨depth - 1, by simp at hdepth; omega⟩
  obtain ⟨e', last, rfl, hread⟩ := ih.nextExpression heof rounds depth token hinner (token' :: rest)
    (settled_of_none (by rw [hclosing]; rfl) _ _)
    (by simp at hrounds ⊢; omega) (by simp at hdepth ⊢; omega)
  refine expression_of_operand precedence e' token' (by simp at hrounds; omega) ?_
  rw [operand, List.cons_append, run_current_bind, current_window_cons]
  simp only [hopening]
  rw [List.append_assoc, List.singleton_append, run_bind_of hread, run_bind_of (run_expect _ _ _ hclosing)]
  rfl

theorem complete_array (heof : eof.kind = .eof) {elements : List (Expr × List Lexeme)}
    {ls : List Lexeme} {opening closing : Lexeme} (hopening : opening.kind = .leftBracket)
    (hclosing : closing.kind = .rightBracket)
    (hderives : ∀ element ∈ elements, Derives (.expr .equality element.1) element.2)
    (hcommas : Commas (elements.map (·.2)) ls)
    (ih : ∀ element ∈ elements, Complete eof (.expr .equality element.1) element.2) :
    Complete eof (.expr .atom (.array default (elements.map (·.1)))) (opening :: ls ++ [closing]) := by
  intro tokens rest rounds depth precedence htokens hrank hlevel settled hrounds hdepth
  obtain ⟨token, inner, token', rfl, rfl, rfl, rfl⟩ := lexemes_delimited htokens
  rw [Token.lexeme_kind] at hopening hclosing
  obtain ⟨depth, rfl⟩ : ∃ d, depth = d + 1 := ⟨depth - 1, by simp at hdepth; omega⟩
  obtain ⟨as, has, hitems⟩ := expressions_complete heof .rightBracket rounds depth rfl (by decide) rfl
    hclosing hderives ih token hcommas rest
    (by simp at hrounds ⊢; omega) (by simp at hdepth ⊢; omega)
  rw [← has]
  refine expression_of_operand precedence (.array token.span as) token'
    (by simp at hrounds; omega) ?_
  rw [operand, List.cons_append, run_current_bind, current_window_cons]
  simp only [hopening]
  rw [List.append_assoc, List.singleton_append, run_bind_of hitems]
  rfl

theorem complete_hash {pairs : List ((Expr × Expr) × List Lexeme)}
    {ls : List Lexeme} {opening closing : Lexeme} (hopening : opening.kind = .leftBrace)
    (hclosing : closing.kind = .rightBrace)
    (hderives : ∀ pair ∈ pairs, Derives (.pair pair.1) pair.2) (hcommas : Commas (pairs.map (·.2)) ls)
    (ih : ∀ pair ∈ pairs, Complete eof (.pair pair.1) pair.2) :
    Complete eof (.expr .atom (.hash default (pairs.map (·.1)))) (opening :: ls ++ [closing]) := by
  intro tokens rest rounds depth precedence htokens hrank hlevel settled hrounds hdepth
  obtain ⟨token, inner, token', rfl, rfl, rfl, rfl⟩ := lexemes_delimited htokens
  rw [Token.lexeme_kind] at hopening hclosing
  obtain ⟨depth, rfl⟩ : ∃ d, depth = d + 1 := ⟨depth - 1, by simp at hdepth; omega⟩
  have hheads : ∀ pair ∈ pairs, ∃ l ls, pair.2 = l :: ls ∧ l.kind ≠ .rightBrace := by
    intro pair mem
    obtain ⟨l, ls, hls, hl⟩ := (hderives pair mem).begins
    refine ⟨l, ls, hls, fun h => ?_⟩
    rw [h] at hl
    cases hl
  obtain ⟨as, has, hitems⟩ := items_complete (by decide) hclosing rest
    (fun pair mem => ih pair mem (inner ++ token' :: rest).length rounds depth
      (by simp at hrounds ⊢; omega) (by simp at hdepth ⊢; omega))
    hheads token hcommas rounds (by simp at hrounds; omega) (Nat.le_refl _)
  rw [← has]
  have herase : Expr.erase (.hash token.span as) =
      .hash default (as.map fun a => (a.1.erase, a.2.erase)) := by
    rw [Expr.erase, Expr.erasePairs_eq_map]
  rw [← herase]
  refine expression_of_operand precedence (.hash token.span as) token'
    (by simp at hrounds; omega) ?_
  rw [operand, List.cons_append, run_current_bind, current_window_cons]
  simp only [hopening]
  rw [List.append_assoc, List.singleton_append, run_bind_of hitems]
  rfl

theorem complete_pair (heof : eof.kind = .eof) {key value : Expr} {ks vs : List Lexeme}
    {colon : Lexeme} (hcolon : colon.kind = .colon) (ihk : Complete eof (.expr .equality key) ks)
    (ihv : Complete eof (.expr .equality value) vs) :
    Complete eof (.pair (key, value)) (ks ++ colon :: vs) := by
  rintro limit rounds depth hrounds hdepth before tokens _ htokens ⟨next, rest, rfl, hnext⟩ hlimit
  obtain ⟨front, back, rfl, hfront, hback⟩ := lexemes_append htokens
  obtain ⟨token, back, rfl, rfl, hvalue⟩ := lexemes_cons hback
  rw [Token.lexeme_kind] at hcolon
  obtain ⟨key', last, rfl, hread⟩ := ihk.nextExpression heof rounds depth before hfront
    (token :: back ++ next :: rest) (settled_of_none (by rw [hcolon]; rfl) _ _)
    (by simp at hlimit ⊢; omega) (by simp at hlimit ⊢; omega)
  have hnone : Suffix.ofKind? next.kind = none := by
    rcases hnext with hnext | hnext <;> rw [hnext] <;> rfl
  obtain ⟨value', last', rfl, hread'⟩ := ihv.nextExpression heof rounds depth token hvalue
    (next :: rest) (settled_of_none hnone _ _) (by simp at hlimit ⊢; omega) (by simp at hlimit ⊢; omega)
  refine ⟨(key', value'), last', rfl, ?_⟩
  rw [pair, List.append_assoc, run_bind_of hread, List.cons_append,
    run_bind_of (run_expect _ _ _ hcolon), run_bind_of hread']
  rfl

theorem ident_complete {word : Lexeme} (hword : word.kind = .identifier) (limit : Nat)
    (close : TokenKind) :
    CompleteItem eof limit close ident Ident.erase (⟨default, word.literal⟩, [word]) := by
  intro before tokens rest htokens _ _
  obtain ⟨token, _, rfl, rfl, hnil⟩ := lexemes_cons htokens
  obtain rfl := List.map_eq_nil_iff.mp hnil
  refine ⟨⟨token.span, token.literal⟩, token, rfl, ?_⟩
  rw [ident, List.singleton_append, run_bind_of (run_expect _ _ _ hword)]
  rfl

theorem complete_function {params : List Lexeme} {body : Block} {ps ls : List Lexeme}
    {word opening closing opened closed : Lexeme} (hword : word.kind = .fnWord)
    (hopening : opening.kind = .leftParen) (hclosing : closing.kind = .rightParen)
    (hopened : opened.kind = .leftBrace) (hclosed : closed.kind = .rightBrace)
    (hparams : ∀ param ∈ params, param.kind = .identifier) (hcommas : Commas (params.map ([·])) ps)
    (ih : Complete eof (.body body) ls) :
    Complete eof (.expr .atom (.function default (params.map (⟨default, ·.literal⟩)) body))
      (word :: opening :: ps ++ closing :: opened :: ls ++ [closed]) := by
  intro tokens rest rounds depth precedence htokens hrank hlevel settled hrounds hdepth
  obtain ⟨front, back, rfl, hfront, hback⟩ := lexemes_append htokens
  obtain ⟨front, back', rfl, hfront', hback'⟩ := lexemes_append hfront
  obtain ⟨token, _, rfl, rfl, hfront''⟩ := lexemes_cons hfront'
  obtain ⟨paren, inner, rfl, rfl, rfl⟩ := lexemes_cons hfront''
  obtain ⟨paren', _, rfl, rfl, hback''⟩ := lexemes_cons hback'
  obtain ⟨brace, statements, rfl, rfl, hstatements⟩ := lexemes_cons hback''
  obtain ⟨brace', _, rfl, rfl, hnil⟩ := lexemes_cons hback
  obtain rfl := List.map_eq_nil_iff.mp hnil
  rw [Token.lexeme_kind] at hword hopening hclosing hopened hclosed
  obtain ⟨depth, rfl⟩ : ∃ d, depth = d + 2 := ⟨depth - 2, by simp at hdepth; omega⟩
  have hidents : ∀ part ∈ params.map fun param => ((⟨default, param.literal⟩ : Ident), [param]),
      CompleteItem eof (inner ++ paren' :: brace :: (statements ++ brace' :: rest)).length .rightParen
        ident Ident.erase part :=
    List.forall_mem_map.mpr fun param mem => ident_complete (hparams param mem) _ _
  obtain ⟨params', hparams', hitems⟩ := items_complete (by decide) hclosing
    (brace :: (statements ++ brace' :: rest)) hidents
    (List.forall_mem_map.mpr fun param mem => ⟨param, [], rfl, by rw [hparams param mem]; decide⟩)
    paren (by simpa [Function.comp_def] using hcommas) rounds (by simp at hrounds; omega)
    (Nat.le_refl _)
  obtain ⟨body', rfl, hbody⟩ := ih.block rounds depth brace hstatements hclosed rest
    (by simp at hrounds ⊢; omega) (by simp at hdepth ⊢; omega)
  have herase : Expr.erase (.function token.span params' body') =
      .function default (params.map (⟨default, ·.literal⟩)) body'.erase := by
    rw [Expr.erase, hparams', List.map_map]
    rfl
  rw [← herase]
  have htree : token :: paren :: inner ++ paren' :: brace :: statements ++ [brace'] ++ rest =
      token :: paren :: (inner ++ paren' :: brace :: (statements ++ brace' :: rest)) := by
    simp
  rw [htree]
  refine expression_of_operand precedence (.function token.span params' body') brace'
    (by simp at hrounds; omega) ?_
  rw [operand, run_current_bind, current_window_cons]
  simp only [hword]
  rw [run_bind_of (run_expect _ _ _ hopening), run_bind_of hitems,
    run_bind_of (run_expect _ _ _ hopened), run_bind_of hbody]
  rfl

theorem complete_bind (heof : eof.kind = .eof) {word name sign : Lexeme} {value : Expr}
    {vs : List Lexeme} (hword : word.kind = .letWord) (hname : name.kind = .identifier)
    (hsign : sign.kind = .assign) (ih : Complete eof (.expr .equality value) vs) :
    Complete eof (.stmt (.bind default ⟨default, name.literal⟩ value)) (word :: name :: sign :: vs) := by
  intro tokens rest rounds depth htokens settled _ hrounds hdepth
  obtain ⟨token, _, rfl, rfl, hrest⟩ := lexemes_cons htokens
  obtain ⟨token', _, rfl, rfl, hrest'⟩ := lexemes_cons hrest
  obtain ⟨token'', tokens, rfl, rfl, hvalue⟩ := lexemes_cons hrest'
  rw [Token.lexeme_kind] at hword hname hsign
  obtain ⟨value', last, rfl, hread⟩ := ih.nextExpression heof rounds depth token'' hvalue rest
    (settled rfl) (by simp at hrounds ⊢; omega) (by simp at hdepth ⊢; omega)
  refine ⟨.bind token.span ⟨token'.span, token'.literal⟩ value', last, rfl, ?_⟩
  rw [statement, List.cons_append, run_current_bind, current_window_cons]
  simp only [hword]
  rw [ident, bind_assoc, List.cons_append, run_bind_of (run_expect _ _ _ hname), pure_bind,
    List.cons_append, run_bind_of (run_expect _ _ _ hsign), run_bind_of hread]
  rfl

theorem complete_ret (heof : eof.kind = .eof) {word : Lexeme} {value : Expr} {vs : List Lexeme}
    (hword : word.kind = .returnWord) (ih : Complete eof (.expr .equality value) vs) :
    Complete eof (.stmt (.ret default value)) (word :: vs) := by
  intro tokens rest rounds depth htokens settled _ hrounds hdepth
  obtain ⟨token, tokens, rfl, rfl, hvalue⟩ := lexemes_cons htokens
  rw [Token.lexeme_kind] at hword
  obtain ⟨value', last, rfl, hread⟩ := ih.nextExpression heof rounds depth token hvalue rest
    (settled rfl) (by simp at hrounds ⊢; omega) (by simp at hdepth ⊢; omega)
  refine ⟨.ret token.span value', last, rfl, ?_⟩
  rw [statement, List.cons_append, run_current_bind, current_window_cons]
  simp only [hword]
  rw [run_bind_of hread]
  rfl

theorem complete_expr (heof : eof.kind = .eof) {value : Expr} {vs : List Lexeme}
    (hderives : Derives (.expr .equality value) vs) (ih : Complete eof (.expr .equality value) vs) :
    Complete eof (.stmt (.expr default value)) vs := by
  intro tokens rest rounds depth htokens settled _ hrounds hdepth
  obtain ⟨l, ls, rfl, hl⟩ := hderives.begins
  obtain ⟨value', last, rfl, hread⟩ := ih.expression heof rounds depth .lowest htokens rest
    (by decide) (by decide) (settled rfl) (by decide) hrounds hdepth
  obtain ⟨token, tokens, rfl, rfl, -⟩ := lexemes_cons htokens
  refine ⟨.expr token.span value', last, rfl, ?_⟩
  rw [statement, List.cons_append, run_current_bind, current_window_cons]
  rw [Token.lexeme_kind] at hl
  split
  · simp_all [beginsExpression]
  · simp_all [beginsExpression]
  · simp_all [beginsExpression]
  · rw [← List.cons_append, run_bind_of hread]
    rfl

theorem branch_head (heof : eof.kind = .eof) {condition : Expr} {consequence : Block}
    {cs ls : List Lexeme} {word opening closing opened closed : Lexeme}
    (hopening : opening.kind = .leftParen) (hclosing : closing.kind = .rightParen)
    (hopened : opened.kind = .leftBrace) (hclosed : closed.kind = .rightBrace)
    (ihc : Complete eof (.expr .equality condition) cs) (ihb : Complete eof (.body consequence) ls)
    {tokens : List Token} (htokens : tokens.map Token.lexeme =
      word :: opening :: cs ++ closing :: opened :: ls ++ [closed]) (rest : List Token) (rounds depth : Nat)
    (hrounds : (tokens ++ rest).length ≤ rounds) (hdepth : (tokens ++ rest).length ≤ depth) :
    ∃ (first last : Token) (condition' : Expr) (consequence' : Block), first.lexeme = word ∧
      condition'.erase = condition ∧ consequence'.erase = consequence ∧
      (branch (expressionWithin rounds (depth + 1)) (programWithin rounds (depth + 1))).run
        (window eof (tokens ++ rest)) =
      (do
        if (← peek).kind = .elseWord then
          advance
          let _ ← expect .leftBrace
          return Stmt.branch first.span condition' consequence'
            (some (← block (programWithin rounds (depth + 1))))
        else return .branch first.span condition' consequence' none : Parser Stmt).run
        (window eof (last :: rest)) := by
  obtain ⟨front, back, rfl, hfront, hback⟩ := lexemes_append htokens
  obtain ⟨front, back', rfl, hfront', hback'⟩ := lexemes_append hfront
  obtain ⟨token, _, rfl, rfl, hfront''⟩ := lexemes_cons hfront'
  obtain ⟨paren, inner, rfl, rfl, hinner⟩ := lexemes_cons hfront''
  obtain ⟨paren', _, rfl, rfl, hback''⟩ := lexemes_cons hback'
  obtain ⟨brace, statements, rfl, rfl, hstatements⟩ := lexemes_cons hback''
  obtain ⟨brace', _, rfl, rfl, hnil⟩ := lexemes_cons hback
  obtain rfl := List.map_eq_nil_iff.mp hnil
  rw [Token.lexeme_kind] at hopening hclosing hopened hclosed
  obtain ⟨depth, rfl⟩ : ∃ d, depth = d + 1 := ⟨depth - 1, by simp at hdepth; omega⟩
  obtain ⟨condition', last, rfl, hread⟩ := ihc.nextExpression heof rounds (depth + 1) paren hinner
    (paren' :: brace :: (statements ++ brace' :: rest)) (settled_of_none (by rw [hclosing]; rfl) _ _)
    (by simp at hrounds ⊢; omega) (by simp at hdepth ⊢; omega)
  obtain ⟨consequence', rfl, hbody⟩ := ihb.block rounds depth brace hstatements hclosed rest
    (by simp at hrounds ⊢; omega) (by simp at hdepth ⊢; omega)
  refine ⟨token, brace', condition', consequence', rfl, rfl, rfl, ?_⟩
  have htree : token :: paren :: inner ++ paren' :: brace :: statements ++ [brace'] ++ rest =
      token :: paren :: (inner ++ paren' :: brace :: (statements ++ brace' :: rest)) := by
    simp
  rw [htree, branch, run_current_bind, run_bind_of (run_expect _ _ _ hopening), run_bind_of hread,
    run_bind_of (run_expect _ _ _ hclosing), run_bind_of (run_expect _ _ _ hopened), run_bind_of hbody]
  rfl

theorem complete_branch (heof : eof.kind = .eof) {condition : Expr} {consequence : Block}
    {cs ls : List Lexeme} {word opening closing opened closed : Lexeme} (hword : word.kind = .ifWord)
    (hopening : opening.kind = .leftParen) (hclosing : closing.kind = .rightParen)
    (hopened : opened.kind = .leftBrace) (hclosed : closed.kind = .rightBrace)
    (ihc : Complete eof (.expr .equality condition) cs) (ihb : Complete eof (.body consequence) ls) :
    Complete eof (.stmt (.branch default condition consequence none))
      (word :: opening :: cs ++ closing :: opened :: ls ++ [closed]) := by
  intro tokens rest rounds depth htokens _ helse hrounds hdepth
  obtain ⟨first, last, condition', consequence', rfl, rfl, rfl, hrun⟩ := branch_head heof hopening
    hclosing hopened hclosed ihc ihb htokens rest rounds depth hrounds hdepth
  refine ⟨.branch first.span condition' consequence' none, last, rfl, ?_⟩
  obtain ⟨token, tokens, rfl, htoken, -⟩ := lexemes_cons htokens
  rw [statement, List.cons_append, run_current_bind, current_window_cons]
  rw [← htoken, Token.lexeme_kind] at hword
  simp only [hword]
  rw [← List.cons_append, hrun, run_peek_bind, peek_window_cons, if_neg]
  · rfl
  · rcases rest with _ | ⟨next, rest⟩
    · rw [List.headD_nil, heof]
      decide
    · exact helse next rfl

theorem complete_branchElse (heof : eof.kind = .eof) {condition : Expr}
    {consequence alternative : Block} {cs ls as : List Lexeme}
    {word opening closing opened closed otherwise reopened reclosed : Lexeme}
    (hword : word.kind = .ifWord) (hopening : opening.kind = .leftParen)
    (hclosing : closing.kind = .rightParen) (hopened : opened.kind = .leftBrace)
    (hclosed : closed.kind = .rightBrace) (hotherwise : otherwise.kind = .elseWord)
    (hreopened : reopened.kind = .leftBrace) (hreclosed : reclosed.kind = .rightBrace)
    (ihc : Complete eof (.expr .equality condition) cs) (ihb : Complete eof (.body consequence) ls)
    (iha : Complete eof (.body alternative) as) :
    Complete eof (.stmt (.branch default condition consequence (some alternative)))
      (word :: opening :: cs ++ closing :: opened :: ls ++ closed :: otherwise :: reopened :: as ++
        [reclosed]) := by
  intro tokens rest rounds depth htokens _ _ hrounds hdepth
  have hsplit : word :: opening :: cs ++ closing :: opened :: ls ++ closed :: otherwise :: reopened ::
      as ++ [reclosed] = (word :: opening :: cs ++ closing :: opened :: ls ++ [closed]) ++
        (otherwise :: reopened :: as ++ [reclosed]) := by
    simp
  obtain ⟨front, back, rfl, hfront, hback⟩ := lexemes_append (htokens.trans hsplit)
  obtain ⟨token, _, rfl, rfl, hback'⟩ := lexemes_cons hback
  obtain ⟨brace, inner, brace', rfl, rfl, hinner, rfl⟩ := lexemes_delimited hback'
  rw [Token.lexeme_kind] at hotherwise hreopened hreclosed
  obtain ⟨first, last, condition', consequence', rfl, rfl, rfl, hrun⟩ := branch_head heof hopening
    hclosing hopened hclosed ihc ihb hfront (token :: brace :: (inner ++ brace' :: rest))
    rounds depth (by simp at hrounds ⊢; omega) (by simp at hdepth ⊢; omega)
  obtain ⟨depth, rfl⟩ : ∃ d, depth = d + 1 := ⟨depth - 1, by simp at hdepth; omega⟩
  obtain ⟨alternative', rfl, hbody⟩ := iha.block rounds depth brace hinner hreclosed rest
    (by simp at hrounds ⊢; omega) (by simp at hdepth ⊢; omega)
  refine ⟨.branch first.span condition' consequence' (some alternative'), brace', rfl, ?_⟩
  have htree : front ++ token :: brace :: (inner ++ [brace']) ++ rest =
      front ++ token :: brace :: (inner ++ brace' :: rest) := by
    simp
  rw [htree]
  obtain ⟨token', front, rfl, htoken', -⟩ := lexemes_cons hfront
  rw [statement, List.cons_append, run_current_bind, current_window_cons]
  rw [← htoken', Token.lexeme_kind] at hword
  simp only [hword]
  rw [← List.cons_append, hrun, run_peek_bind, peek_window_cons, List.headD_cons, if_pos hotherwise,
    run_advance_bind, List.tail_cons, run_bind_of (run_expect _ _ _ hreopened), run_bind_of hbody]
  rfl

theorem skipSemicolons_run {semicolons : List Token} (h : ∀ token ∈ semicolons, token.kind = .semicolon)
    {rest : List Token} (hrest : (rest.headD eof).kind ≠ .semicolon) {fuel : Nat}
    (hfuel : semicolons.length ≤ fuel) :
    (skipSemicolons fuel).run (window eof (semicolons ++ rest)) = .ok ((), window eof rest) := by
  induction semicolons generalizing fuel with
  | nil =>
    cases fuel with
    | zero => rfl
    | succ fuel =>
      have : (window eof rest).current.kind ≠ .semicolon := by cases rest <;> exact hrest
      rw [skipSemicolons, List.nil_append, run_current_bind, if_neg this]
      rfl
  | cons token semicolons ih =>
    obtain ⟨htoken, hall⟩ := List.forall_mem_cons.mp h
    rcases fuel with _ | fuel
    · simp at hfuel
    rw [skipSemicolons, List.cons_append, run_current_bind, current_window_cons, if_pos htoken,
      run_advance_bind, List.tail_cons, ih hall (by simpa using hfuel)]

theorem complete_empty : Complete eof (.body (.mk default [])) [] := by
  intro tokens rest rounds depth fuel htokens hends _ _ _
  obtain rfl := List.map_eq_nil_iff.mp htokens
  refine ⟨[], rfl, ?_⟩
  cases fuel with
  | zero => rfl
  | succ fuel =>
    have : endsBlock (window eof rest).current = true := hends
    rw [statements, List.nil_append, run_current_bind, if_pos this]
    rfl

theorem kind_of_endsBlock {token : Token} (h : endsBlock token = true) :
    token.kind = .eof ∨ token.kind = .rightBrace := by
  simpa [endsBlock] using h

theorem begins_or_ends {b : Block} {back rest : List Token} (h : Derives (.body b) (back.map Token.lexeme))
    (hends : endsBlock (rest.headD eof) = true) :
    beginsStatement ((back ++ rest).headD eof).kind = true ∨ endsBlock ((back ++ rest).headD eof) = true := by
  rcases back with _ | ⟨token, back⟩
  · exact .inr hends
  · exact .inl (h.begins token.lexeme rfl)

theorem kind_ne_of_begins_or_ends {token : Token}
    (h : beginsStatement token.kind = true ∨ endsBlock token = true) :
    token.kind ≠ .semicolon ∧ token.kind ≠ .elseWord := by
  rcases h with h | h
  · constructor
    · intro heq
      rw [heq] at h
      cases h
    · intro heq
      rw [heq] at h
      cases h
  · rcases kind_of_endsBlock h with h | h <;> rw [h] <;> decide

theorem settled_behind {marks back rest : List Token}
    (hstop : ∀ l ∈ (marks.map Token.lexeme ++ back.map Token.lexeme).head?, continues l.kind = false)
    (hends : endsBlock (rest.headD eof) = true) : Settled .lowest (marks ++ back ++ rest) := by
  rw [settled_lowest_iff]
  rw [← List.map_append] at hstop
  generalize marks ++ back = behind at hstop ⊢
  rcases behind with _ | ⟨token, behind⟩
  · rcases rest with _ | ⟨token, rest⟩
    · rintro _ ⟨⟩
    · rintro _ ⟨⟩
      rcases kind_of_endsBlock hends with h | h <;> rw [List.headD_cons] at h <;> rw [h] <;> rfl
  · rintro _ ⟨⟩
    exact hstop token.lexeme rfl

theorem complete_statement {s : Stmt} {ss : List Stmt} {ls semicolons more : List Lexeme}
    (hderives : Derives (.stmt s) ls) (hsemicolons : ∀ l ∈ semicolons, l.kind = .semicolon)
    (hmore : Derives (.body (.mk default ss)) more)
    (hstop : endsInExpression s = true → ∀ l ∈ (semicolons ++ more).head?, continues l.kind = false)
    (ihs : Complete eof (.stmt s) ls) (ihb : Complete eof (.body (.mk default ss)) more) :
    Complete eof (.body (.mk default (s :: ss))) (ls ++ semicolons ++ more) := by
  intro tokens rest rounds depth fuel htokens hends hfuel hrounds hdepth
  rw [List.append_assoc] at htokens
  obtain ⟨front, behind, rfl, hfront, hbehind⟩ := lexemes_append htokens
  obtain ⟨marks, back, rfl, rfl, rfl⟩ := lexemes_append hbehind
  have hmarks : ∀ token ∈ marks, token.kind = .semicolon := fun token mem =>
    hsemicolons token.lexeme (List.mem_map_of_mem mem)
  obtain ⟨hsemi, hnext⟩ := kind_ne_of_begins_or_ends (begins_or_ends hmore hends)
  have settled : endsInExpression s = true → Settled .lowest (marks ++ back ++ rest) := fun hexpr =>
    settled_behind (hstop hexpr) hends
  have helse : ∀ token ∈ (marks ++ back ++ rest).head?, token.kind ≠ .elseWord := by
    rcases marks with _ | ⟨mark, marks⟩
    · intro token mem
      rw [List.headD_eq_head?_getD, ← List.nil_append back, Option.mem_def.mp mem] at hnext
      exact hnext
    · rintro _ ⟨⟩
      rw [hmarks mark (by simp)]
      decide
  obtain ⟨s', last, rfl, hread⟩ := ihs front (marks ++ back ++ rest) rounds depth hfront settled helse
    (by simpa using hrounds) (by simpa using hdepth)
  obtain ⟨l, _, rfl, hl⟩ := hderives.begins
  obtain ⟨token, front, rfl, rfl, -⟩ := lexemes_cons hfront
  obtain ⟨fuel, rfl⟩ : ∃ n, fuel = n + 1 := ⟨fuel - 1, by simp at hfuel; omega⟩
  obtain ⟨ss', hss, hrun⟩ := ihb back rest rounds depth fuel rfl hends (by simp at hfuel; omega)
    (by simp at hrounds ⊢; omega) (by simp at hdepth ⊢; omega)
  obtain rfl : Stmt.eraseAll ss' = ss := by simpa using hss
  have hnot : endsBlock token = false := by
    cases h : endsBlock token with
    | false => rfl
    | true =>
      rw [Token.lexeme_kind] at hl
      rcases kind_of_endsBlock h with h' | h' <;> rw [h'] at hl <;> cases hl
  refine ⟨s' :: ss', rfl, ?_⟩
  rw [statements, List.cons_append, List.cons_append, run_current_bind, current_window_cons, hnot]
  simp only [Bool.false_eq_true, if_false]
  rw [← List.cons_append, ← List.cons_append, List.append_assoc, run_bind_of hread, run_advance_bind,
    List.tail_cons, List.append_assoc,
    run_bind_of (skipSemicolons_run hmarks hsemi (by simp at hfuel; omega)), run_bind_of hrun]
  rfl

theorem complete (heof : eof.kind = .eof) {phrase : Phrase} {ls : List Lexeme}
    (h : Derives phrase ls) : Complete eof phrase ls := by
  induction h with
  | inner _ ih => exact complete_inner ih
  | binary hsign _ _ ihl ihr => exact complete_binary heof hsign ihl ihr
  | unary hsign _ ih => exact complete_unary heof hsign ih
  | call _ hopening hclosing harguments hcommas ihc iha =>
    exact complete_call heof hopening hclosing harguments hcommas ihc iha
  | index _ hopening hclosing _ ihl ihi => exact complete_index heof hopening hclosing ihl ihi
  | name hkind =>
    refine complete_atom fun token rest rounds depth htoken => ⟨.name ⟨token.span, _⟩, rfl, ?_⟩
    subst htoken
    rw [Token.lexeme_kind] at hkind
    rw [operand, run_current_bind, current_window_cons]
    simp only [hkind]
    rfl
  | integer hkind hlength hvalue hmax => exact complete_integer hkind hlength hvalue hmax
  | trueWord hkind =>
    refine complete_atom fun token rest rounds depth htoken => ⟨.boolean token.span true, rfl, ?_⟩
    subst htoken
    rw [Token.lexeme_kind] at hkind
    rw [operand, run_current_bind, current_window_cons]
    simp only [hkind]
    rfl
  | falseWord hkind =>
    refine complete_atom fun token rest rounds depth htoken => ⟨.boolean token.span false, rfl, ?_⟩
    subst htoken
    rw [Token.lexeme_kind] at hkind
    rw [operand, run_current_bind, current_window_cons]
    simp only [hkind]
    rfl
  | string hkind =>
    refine complete_atom fun token rest rounds depth htoken => ⟨.string token.span _, rfl, ?_⟩
    subst htoken
    rw [Token.lexeme_kind] at hkind
    rw [operand, run_current_bind, current_window_cons]
    simp only [hkind]
    rfl
  | group hopening hclosing _ ih => exact complete_group heof hopening hclosing ih
  | function hword hopening hclosing hopened hclosed hparams hcommas _ ih =>
    exact complete_function hword hopening hclosing hopened hclosed hparams hcommas ih
  | array hopening hclosing helements hcommas ih =>
    exact complete_array heof hopening hclosing helements hcommas ih
  | hash hopening hclosing hpairs hcommas ih => exact complete_hash hopening hclosing hpairs hcommas ih
  | pair _ hcolon _ ihk ihv => exact complete_pair heof hcolon ihk ihv
  | bind hword hname hsign _ ih => exact complete_bind heof hword hname hsign ih
  | ret hword _ ih => exact complete_ret heof hword ih
  | branch hword hopening hclosing hopened hclosed _ _ ihc ihb =>
    exact complete_branch heof hword hopening hclosing hopened hclosed ihc ihb
  | branchElse hword hopening hclosing hopened hclosed hotherwise hreopened hreclosed _ _ _ ihc ihb iha =>
    exact complete_branchElse heof hword hopening hclosing hopened hclosed hotherwise hreopened
      hreclosed ihc ihb iha
  | expr hvalue ih => exact complete_expr heof hvalue ih
  | empty => exact complete_empty
  | statement hs hsemicolons hmore hstop ihs ihb =>
    exact complete_statement hs hsemicolons hmore hstop ihs ihb

theorem parseStream_of_program {eof : Token} (heof : eof.kind = .eof) {program : Block}
    {tokens : List Token} (h : Program program ((tokens ++ [eof]).map Token.lexeme)) {depth : Nat}
    (hdepth : tokens.length + 2 ≤ depth) :
    ∃ parsed, parseStream depth ⟨tokens, .ok eof⟩ = .ok parsed ∧ parsed.erase = program := by
  obtain ⟨body, last, hsplit, -, hderives⟩ := h
  rw [List.map_append, List.map_singleton] at hsplit
  obtain ⟨rfl, -⟩ := List.append_inj' hsplit rfl
  obtain ⟨depth, rfl⟩ : ∃ d, depth = d + 2 := ⟨depth - 2, by omega⟩
  obtain ⟨ss, rfl, hrun⟩ := complete heof hderives tokens [] (tokens.length + 1) depth
    (tokens.length + 1) rfl (by simp [endsBlock, heof]) (by omega) (by simp) (by simp; omega)
  rw [List.append_nil] at hrun
  refine ⟨.mk (window eof tokens).current.span ss, ?_, rfl⟩
  rw [parseStream, start_eq_window]
  simp only [bind, Except.bind]
  rw [programWithin, run_current_bind, run_bind_of hrun]
  exact if_pos heof

end MonkeyLang.Parser
