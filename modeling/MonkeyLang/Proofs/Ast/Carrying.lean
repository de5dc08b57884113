import MonkeyLang.Proofs.Ast.Window
import MonkeyLang.Proofs.Token.Lexeme

/-!
# Reading in front of more tokens

A parser that reads some tokens up to their end reads tokens with the same lexemes in the same way when
more tokens stand behind them, provided these begin with a semicolon: no production looks past a
semicolon, nor takes it for anything but the end of a statement. Spans and the bound on the loops do not
matter, and the nesting stays what it was.

The second run is only followed while the first one stands on a token. Behind the last one, the end of
input is in view there and a semicolon here, and the runs part.
-/

namespace MonkeyLang.Parser

variable {α β γ δ : Type}

/-- The ends of two token lists, and the tokens that stand behind those of the second one. -/
structure Onward where
  eof : Token
  eof' : Token
  more : List Token
  lexeme : eof.lexeme = eof'.lexeme
  kind : eof.kind = .eof
  head : ∀ token ∈ more.head?, token.kind = .semicolon

def Twins (ts us : List Token) : Prop :=
  ts.map Token.lexeme = us.map Token.lexeme

theorem Twins.tail {ts us : List Token} (h : Twins ts us) : Twins ts.tail us.tail := by
  unfold Twins at h ⊢
  rw [List.map_tail, List.map_tail, h]

theorem Twins.nil_iff {ts us : List Token} (h : Twins ts us) : ts = [] ↔ us = [] := by
  rw [← List.map_eq_nil_iff (f := Token.lexeme), h, List.map_eq_nil_iff]

namespace Onward

variable (x : Onward)

/-- Whatever `p` reads of at most `bound` tokens, `q` reads as something like it of the tokens with more
behind them. -/
def Carries (bound : Nat) (p : Parser α) (q : Parser β) (like : α → β → Prop) : Prop :=
  ∀ ts us a view, ts.length ≤ bound → Twins ts us → p.run (window x.eof ts) = .ok (a, view) →
    ∃ ts' us' b, view = window x.eof ts' ∧ ts' <:+ ts ∧ Twins ts' us' ∧ like a b ∧
      (ts' ≠ [] ∨ x.more = [] →
        q.run (window x.eof' (us ++ x.more)) = .ok (b, window x.eof' (us' ++ x.more)))

variable {x} {bound : Nat} {p : Parser α} {q : Parser β} {like : α → β → Prop} {like' : γ → δ → Prop}

theorem Carries.mono (h : x.Carries bound p q like) {smaller : Nat} (hle : smaller ≤ bound) :
    x.Carries smaller p q like :=
  fun ts us a view hlength => h ts us a view (Nat.le_trans hlength hle)

theorem Carries.pure {a : α} {b : β} (h : like a b) : x.Carries bound (Pure.pure a) (Pure.pure b) like := by
  intro ts us a' view _ htwins hrun
  obtain ⟨rfl, rfl⟩ := run_pure_ok.mp hrun
  exact ⟨ts, us, b, rfl, List.suffix_refl ts, htwins, h, fun _ => rfl⟩

theorem Carries.unexpected (expected : Expectation) (found : Token) (q : Parser β)
    (like : α → β → Prop) : x.Carries bound (unexpected expected found) q like :=
  fun _ _ _ _ _ _ hrun => absurd hrun run_unexpected_ne_ok

theorem Carries.throw (error : ParseError) (q : Parser β) (like : α → β → Prop) :
    x.Carries bound (throw error) q like := by
  rintro _ _ _ _ _ _ ⟨⟩

theorem Carries.nestingTooDeep (q : Parser β) (like : α → β → Prop) :
    x.Carries bound nestingTooDeep q like := by
  rintro _ _ _ _ _ _ ⟨⟩

theorem Carries.bind {f : α → Parser γ} {g : β → Parser δ} (h : x.Carries bound p q like)
    (hf : ∀ a b, like a b → x.Carries bound (f a) (g b) like') :
    x.Carries bound (p >>= f) (q >>= g) like' := by
  intro ts us c view hlength htwins hrun
  obtain ⟨a, next, hp, hrun⟩ := run_bind_ok.mp hrun
  obtain ⟨ts', us', b, rfl, hsuffix, htwins', hlike, hq⟩ := h ts us a next hlength htwins hp
  obtain ⟨ts'', us'', d, rfl, hsuffix', htwins'', hlike', hg⟩ :=
    hf a b hlike ts' us' c view (Nat.le_trans hsuffix.length_le hlength) htwins' hrun
  refine ⟨ts'', us'', d, rfl, hsuffix'.trans hsuffix, htwins'', hlike', fun hstands => ?_⟩
  have hbefore : ts' ≠ [] ∨ x.more = [] := by
    refine hstands.imp_left fun hne hnil => hne ?_
    rw [hnil] at hsuffix'
    exact List.suffix_nil.mp hsuffix'
  exact run_bind_ok.mpr ⟨b, _, hq hbefore, hg hstands⟩

theorem Carries.ite {c d : Prop} [Decidable c] [Decidable d] (hcd : c ↔ d) {p' : Parser α} {q' : Parser β}
    (h : c → x.Carries bound p q like) (h' : ¬ c → x.Carries bound p' q' like) :
    x.Carries bound (if c then p else p') (if d then q else q') like := by
  by_cases hc : c
  · rw [if_pos hc, if_pos (hcd.mp hc)]
    exact h hc
  · rw [if_neg hc, if_neg fun hd => hc (hcd.mpr hd)]
    exact h' hc

/-! ## Tokens in view -/

theorem head_twins {ts us : List Token} (h : Twins ts us) (hstands : ts ≠ [] ∨ x.more = []) :
    (ts.headD x.eof).lexeme = ((us ++ x.more).headD x.eof').lexeme := by
  rcases ts with _ | ⟨t, ts⟩ <;> rcases us with _ | ⟨u, us⟩
  · rw [hstands.resolve_left (absurd rfl)]
    exact x.lexeme
  · cases h
  · cases h
  · exact (List.cons.inj h).1

theorem carries_current : x.Carries bound current current fun t u => t.lexeme = u.lexeme := by
  intro ts us t view _ htwins hrun
  obtain ⟨rfl, rfl⟩ := Prod.mk.inj (Except.ok.inj hrun)
  by_cases hstands : ts ≠ [] ∨ x.more = []
  · exact ⟨ts, us, _, rfl, List.suffix_refl ts, htwins, head_twins htwins hstands, fun _ => rfl⟩
  · exact ⟨ts, us, _, rfl, List.suffix_refl ts, htwins, rfl, fun h => absurd h hstands⟩

def Matches (t u : Token) : Prop :=
  t.lexeme = u.lexeme ∨ t.kind = .eof ∧ u.kind = .semicolon

theorem Matches.kind_iff {t u : Token} (h : Matches t u) {kind : TokenKind} (heof : kind ≠ .eof)
    (hsemicolon : kind ≠ .semicolon) : t.kind = kind ↔ u.kind = kind := by
  rcases h with h | ⟨ht, hu⟩
  · rw [show t.kind = u.kind from congrArg Lexeme.kind h]
  · rw [ht, hu]
    exact ⟨fun h => absurd h.symm heof, fun h => absurd h.symm hsemicolon⟩

theorem Matches.suffix {t u : Token} (h : Matches t u) : Suffix.ofKind? t.kind = Suffix.ofKind? u.kind := by
  rcases h with h | ⟨ht, hu⟩
  · rw [show t.kind = u.kind from congrArg Lexeme.kind h]
  · rw [ht, hu]
    rfl

theorem head_matches {ts us : List Token} (h : Twins ts us) :
    Matches (ts.headD x.eof) ((us ++ x.more).headD x.eof') := by
  by_cases hstands : ts ≠ [] ∨ x.more = []
  · exact .inl (head_twins h hstands)
  obtain ⟨rfl, hmore⟩ : ts = [] ∧ x.more ≠ [] := by
    simpa only [not_or, Decidable.not_not] using hstands
  obtain rfl := h.nil_iff.mp rfl
  obtain ⟨token, rest, hmore⟩ := List.exists_cons_of_ne_nil hmore
  rw [List.nil_append, hmore]
  exact .inr ⟨x.kind, x.head token (by rw [hmore]; rfl)⟩

theorem tail_append {ts us : List Token} (h : Twins ts us) (hstands : ts ≠ [] ∨ x.more = []) :
    (us ++ x.more).tail = us.tail ++ x.more := by
  rcases hstands with hne | hmore
  · exact List.tail_append_of_ne_nil (mt h.nil_iff.mpr hne)
  · rw [hmore, List.append_nil, List.append_nil]

theorem carries_peek : x.Carries bound peek peek Matches := by
  intro ts us t view _ htwins hrun
  obtain ⟨rfl, rfl⟩ := Prod.mk.inj (Except.ok.inj hrun)
  refine ⟨ts, us, _, rfl, List.suffix_refl ts, htwins, head_matches htwins.tail, fun hstands => ?_⟩
  rw [← tail_append htwins hstands]
  rfl

theorem Carries.advance {f : Unit → Parser γ} {g : Unit → Parser δ}
    (h : x.Carries (bound - 1) (f ()) (g ()) like') :
    x.Carries bound (advance >>= f) (advance >>= g) like' := by
  intro ts us c view hlength htwins hrun
  rw [run_advance_bind] at hrun
  have hbound : ts.tail.length ≤ bound - 1 := by
    rw [List.length_tail]
    exact Nat.sub_le_sub_right hlength 1
  obtain ⟨ts', us', d, rfl, hsuffix, htwins', hlike, hg⟩ := h _ _ c view hbound htwins.tail hrun
  refine ⟨ts', us', d, rfl, hsuffix.trans (List.tail_suffix ts), htwins', hlike, fun hstands => ?_⟩
  have hbefore : ts ≠ [] ∨ x.more = [] := by
    refine hstands.imp_left fun hne hnil => hne ?_
    rw [hnil] at hsuffix
    exact List.suffix_nil.mp hsuffix
  rw [run_advance_bind, tail_append htwins hbefore]
  exact hg hstands

theorem Carries.here {f : Unit → Parser γ} {g : Unit → Parser δ} (h : x.Carries bound (f ()) (g ()) like') :
    x.Carries bound (Parser.advance >>= f) (Parser.advance >>= g) like' :=
  .advance (h.mono (Nat.sub_le bound 1))

theorem carries_expect {kind : TokenKind} (heof : kind ≠ .eof) (hsemicolon : kind ≠ .semicolon) :
    x.Carries bound (expect kind) (expect kind) fun t u => t.lexeme = u.lexeme := by
  refine .bind carries_peek fun t u hmatches => .ite (hmatches.kind_iff heof hsemicolon) ?_ ?_
  · intro hkind
    have hlexeme : t.lexeme = u.lexeme :=
      hmatches.resolve_right fun ⟨hend, _⟩ => heof (hkind.symm.trans hend)
    exact .here (.pure hlexeme)
  · exact fun _ => .unexpected _ _ _ _

theorem Carries.exhausted {a : α} {b : β} (h : like a b)
    (hq : q.run (window x.eof' []) = .ok (b, window x.eof' [])) : x.Carries 0 (Pure.pure a) q like := by
  intro ts us a' view hlength htwins hrun
  obtain ⟨rfl, rfl⟩ := run_pure_ok.mp hrun
  obtain rfl := List.eq_nil_of_length_eq_zero (Nat.le_zero.mp hlength)
  obtain rfl := htwins.nil_iff.mp rfl
  refine ⟨[], [], b, rfl, List.suffix_refl [], htwins, h, fun hstands => ?_⟩
  rw [hstands.resolve_left (absurd rfl)]
  exact hq

theorem eof'_kind : x.eof'.kind = .eof :=
  (congrArg Lexeme.kind x.lexeme).symm.trans x.kind

/-! ## Loops -/

section Loops

variable {item item' : Parser α} {erase : α → γ}

theorem carries_moreItems {rounds rounds' : Nat} (hrounds : rounds ≤ rounds')
    (h : x.Carries rounds item item' fun a b => erase a = erase b) :
    x.Carries rounds (moreItems item rounds) (moreItems item' rounds')
      fun as bs => as.map erase = bs.map erase := by
  induction rounds generalizing rounds' with
  | zero =>
    refine .exhausted rfl ?_
    cases rounds' with
    | zero => rfl
    | succ rounds' =>
      have hcomma : x.eof'.kind ≠ .comma := by simp [x.eof'_kind]
      exact congrFun (if_neg hcomma) _
  | succ rounds ih =>
    obtain ⟨rounds', rfl⟩ : ∃ r, rounds' = r + 1 := ⟨rounds' - 1, by omega⟩
    have hitem := h.mono (Nat.le_succ rounds)
    refine .bind carries_peek fun t u hmatches => .ite (hmatches.kind_iff (by decide) (by decide)) ?_ ?_
    · intro _
      refine .advance (.bind hitem fun a b hhead => ?_)
      refine .bind (ih (Nat.le_of_succ_le_succ hrounds) hitem) fun as bs htail => .pure ?_
      rw [List.map_cons, List.map_cons, hhead, htail]
    · exact fun _ => .pure rfl

theorem carries_items {rounds rounds' : Nat} (hrounds : rounds ≤ rounds')
    (h : x.Carries rounds item item' fun a b => erase a = erase b) {close : TokenKind}
    (heof : close ≠ .eof) (hsemicolon : close ≠ .semicolon) :
    x.Carries rounds (items rounds item close) (items rounds' item' close)
      fun as bs => as.map erase = bs.map erase := by
  refine .bind carries_peek fun t u hmatches => .ite (hmatches.kind_iff heof hsemicolon) ?_ ?_
  · exact fun _ => .here (.pure rfl)
  · intro _
    refine .bind h fun a b hhead => .bind (carries_moreItems hrounds h) fun as bs htail => ?_
    refine .bind (carries_expect heof hsemicolon) fun _ _ _ => .pure ?_
    rw [List.map_cons, List.map_cons, hhead, htail]

end Loops

theorem carries_skipSemicolons {rounds rounds' : Nat} (hrounds : rounds ≤ rounds') :
    x.Carries rounds (skipSemicolons rounds) (skipSemicolons rounds') fun _ _ => True := by
  induction rounds generalizing rounds' with
  | zero =>
    refine .exhausted (b := ()) trivial ?_
    cases rounds' with
    | zero => rfl
    | succ rounds' =>
      have hsemicolon : x.eof'.kind ≠ .semicolon := by simp [x.eof'_kind]
      exact congrFun (if_neg hsemicolon) _
  | succ rounds ih =>
    obtain ⟨rounds', rfl⟩ : ∃ r, rounds' = r + 1 := ⟨rounds' - 1, by omega⟩
    refine .bind carries_current fun t u hlexeme => .ite ?_ ?_ ?_
    · rw [show t.kind = u.kind from congrArg Lexeme.kind hlexeme]
    · exact fun _ => .advance (ih (Nat.le_of_succ_le_succ hrounds))
    · exact fun _ => .pure trivial

theorem endsBlock_congr {t u : Token} (h : t.lexeme = u.lexeme) : endsBlock t = endsBlock u := by
  rw [endsBlock, endsBlock, show t.kind = u.kind from congrArg Lexeme.kind h]

theorem carries_statements {statement statement' : Parser Stmt} {rounds rounds' : Nat}
    (hrounds : rounds ≤ rounds')
    (h : x.Carries rounds statement statement' fun s t => s.erase = t.erase) :
    x.Carries rounds (statements statement rounds) (statements statement' rounds')
      fun ss ts => ss.map Stmt.erase = ts.map Stmt.erase := by
  induction rounds generalizing rounds' with
  | zero =>
    refine .exhausted rfl ?_
    cases rounds' with
    | zero => rfl
    | succ rounds' =>
      have hends : endsBlock x.eof' = true := by simp [endsBlock, x.eof'_kind]
      exact congrFun (if_pos hends) _
  | succ rounds ih =>
    obtain ⟨rounds', rfl⟩ : ∃ r, rounds' = r + 1 := ⟨rounds' - 1, by omega⟩
    have hle := Nat.le_of_succ_le_succ hrounds
    refine .bind carries_current fun t u hlexeme => .ite ?_ ?_ ?_
    · rw [endsBlock_congr hlexeme]
    · exact fun _ => .pure rfl
    · intro _
      refine .bind h fun a b hhead => .advance (.bind (carries_skipSemicolons hle) fun _ _ _ => ?_)
      refine .bind (ih hle (h.mono (Nat.le_succ rounds))) fun as bs htail => .pure ?_
      rw [List.map_cons, List.map_cons, hhead, htail]

/-! ## Productions -/

theorem carries_block {program program' : Parser Block}
    (h : x.Carries bound program program' fun a b => a.erase = b.erase) :
    x.Carries bound (block program) (block program') fun a b => a.erase = b.erase := by
  refine .here (.bind h fun a b hbody => .bind carries_current fun t u hlexeme => .ite ?_ ?_ ?_)
  · rw [show t.kind = u.kind from congrArg Lexeme.kind hlexeme]
  · exact fun _ => .pure hbody
  · exact fun _ => .unexpected _ _ _ _

theorem carries_integer {t u : Token} (h : t.lexeme = u.lexeme) :
    x.Carries bound (integer t) (integer u) fun a b => a.erase = b.erase := by
  have hliteral : t.literal = u.literal := congrArg Lexeme.literal h
  unfold integer
  simp only [hliteral]
  refine .ite Iff.rfl (fun _ => .throw _ _ _) fun _ => .ite Iff.rfl (fun _ => .unexpected _ _ _ _) ?_
  exact fun _ => .pure rfl

theorem carries_ident : x.Carries bound ident ident fun a b => a.erase = b.erase := by
  refine .bind (carries_expect (by decide) (by decide)) fun t u hlexeme => .pure ?_
  rw [Ident.erase, Ident.erase, show t.literal = u.literal from congrArg Lexeme.literal hlexeme]

section Productions

variable {rounds rounds' : Nat} (hrounds : rounds ≤ rounds')
  {expression expression' : Precedence → Parser Expr} {program program' : Parser Block}
  (he : ∀ precedence, x.Carries rounds (expression precedence) (expression' precedence)
    fun a b => a.erase = b.erase)
  (hp : x.Carries rounds program program' fun a b => a.erase = b.erase)

include he

theorem carries_nextExpression :
    x.Carries rounds (nextExpression expression) (nextExpression expression')
      fun a b => a.erase = b.erase :=
  .here (he .lowest)

theorem carries_pair :
    x.Carries rounds (pair expression) (pair expression')
      fun p q => (p.1.erase, p.2.erase) = (q.1.erase, q.2.erase) := by
  refine .bind (carries_nextExpression he) fun _ _ hkey => .bind (carries_expect (by decide) (by decide)) fun _ _ _ => ?_
  refine .bind (carries_nextExpression he) fun _ _ hvalue => .pure ?_
  rw [hkey, hvalue]

include hrounds

theorem carries_suffix {left left' : Expr} (hleft : left.erase = left'.erase) (next : Suffix) :
    x.Carries rounds (suffix rounds expression left next) (suffix rounds' expression' left' next)
      fun a b => a.erase = b.erase := by
  have hnext := carries_nextExpression he
  cases next with
  | operator operator precedence =>
    refine .bind carries_current fun _ _ _ => .here (.bind (he precedence) fun _ _ hright => .pure ?_)
    rw [Expr.erase, Expr.erase, hleft, hright]
  | call =>
    refine .bind carries_current fun _ _ _ => .bind (carries_items hrounds hnext (by decide) (by decide)) ?_
    intro as bs harguments
    refine .pure ?_
    rw [Expr.erase, Expr.erase, hleft, Expr.eraseAll_eq_map, Expr.eraseAll_eq_map, harguments]
  | index =>
    refine .bind carries_current fun _ _ _ => .bind hnext fun _ _ hindex => ?_
    refine .bind (carries_expect (by decide) (by decide)) fun _ _ _ => .pure ?_
    rw [Expr.erase, Expr.erase, hleft, hindex]

theorem carries_extend (precedence : Precedence) {fuel fuel' : Nat} (hfuel : fuel ≤ fuel')
    (hwithin : fuel ≤ rounds) {left left' : Expr} (hleft : left.erase = left'.erase) :
    x.Carries fuel (extend rounds expression precedence fuel left)
      (extend rounds' expression' precedence fuel' left') fun a b => a.erase = b.erase := by
  induction fuel generalizing fuel' left left' with
  | zero =>
    refine .exhausted hleft ?_
    cases fuel' with
    | zero => rfl
    | succ fuel' =>
      unfold extend
      rw [run_peek_bind, show (window x.eof' []).peek = x.eof' from rfl, x.eof'_kind]
      rfl
  | succ fuel ih =>
    obtain ⟨fuel', rfl⟩ : ∃ n, fuel' = n + 1 := ⟨fuel' - 1, by omega⟩
    unfold extend
    refine .bind carries_peek fun t u hmatches => ?_
    rw [← hmatches.suffix]
    cases Suffix.ofKind? t.kind with
    | none => exact .pure hleft
    | some next =>
      refine .ite Iff.rfl (fun _ => .advance ?_) fun _ => .pure hleft
      have hsuffix := carries_suffix hrounds he hleft next
      refine .bind (hsuffix.mono (Nat.le_of_succ_le hwithin)) fun a b hextended => ?_
      exact ih (Nat.le_of_succ_le_succ hfuel) (Nat.le_of_succ_le hwithin) hextended

include hp

theorem carries_operand :
    x.Carries rounds (operand rounds expression program) (operand rounds' expression' program')
      fun a b => a.erase = b.erase := by
  have hnext := carries_nextExpression he
  refine .bind carries_current fun t u hlexeme => ?_
  have hliteral : t.literal = u.literal := congrArg Lexeme.literal hlexeme
  rw [← show t.kind = u.kind from congrArg Lexeme.kind hlexeme]
  split
  case h_1 =>
    refine .pure ?_
    rw [Expr.erase, Expr.erase, Ident.erase, Ident.erase, hliteral]
  case h_2 => exact carries_integer hlexeme
  case h_3 | h_4 => exact .pure rfl
  case h_5 =>
    refine .pure ?_
    rw [Expr.erase, Expr.erase, hliteral]
  case h_6 | h_7 =>
    refine .here (.bind (he .unary) fun _ _ hright => .pure ?_)
    rw [Expr.erase, Expr.erase, hright]
  case h_8 =>
    exact .bind hnext fun _ _ hinner => .bind (carries_expect (by decide) (by decide)) fun _ _ _ => .pure hinner
  case h_9 =>
    refine .bind (carries_expect (by decide) (by decide)) fun _ _ _ => ?_
    refine .bind (carries_items hrounds carries_ident (by decide) (by decide)) fun _ _ hparams => ?_
    refine .bind (carries_expect (by decide) (by decide)) fun _ _ _ => .bind (carries_block hp) fun _ _ hbody => .pure ?_
    rw [Expr.erase, Expr.erase, hparams, hbody]
  case h_10 =>
    refine .bind (carries_items hrounds hnext (by decide) (by decide)) fun _ _ helements => .pure ?_
    rw [Expr.erase, Expr.erase, Expr.eraseAll_eq_map, Expr.eraseAll_eq_map, helements]
  case h_11 =>
    refine .bind (carries_items hrounds (carries_pair he) (by decide) (by decide)) fun _ _ hpairs => .pure ?_
    rw [Expr.erase, Expr.erase, Expr.erasePairs_eq_map, Expr.erasePairs_eq_map]
    exact congrArg _ hpairs
  case h_12 => exact .unexpected _ _ _ _

omit hrounds

theorem carries_branch :
    x.Carries rounds (branch expression program) (branch expression' program')
      fun s t => s.erase = t.erase := by
  have hblock := carries_block hp
  refine .bind carries_current fun _ _ _ => .bind (carries_expect (by decide) (by decide)) fun _ _ _ => ?_
  refine .bind (carries_nextExpression he) fun _ _ hcondition => ?_
  refine .bind (carries_expect (by decide) (by decide)) fun _ _ _ => .bind (carries_expect (by decide) (by decide)) fun _ _ _ => ?_
  refine .bind hblock fun _ _ hconsequence => .bind carries_peek fun _ _ hmatches => ?_
  refine .ite (hmatches.kind_iff (by decide) (by decide)) (fun _ => .here ?_) fun _ => .pure ?_
  · refine .bind (carries_expect (by decide) (by decide)) fun _ _ _ => .bind hblock fun _ _ halternative => .pure ?_
    rw [Stmt.erase, Stmt.erase, hcondition, hconsequence, halternative]
  · rw [Stmt.erase, Stmt.erase, hcondition, hconsequence]

theorem carries_statement :
    x.Carries rounds (statement expression program) (statement expression' program')
      fun s t => s.erase = t.erase := by
  have hnext := carries_nextExpression he
  refine .bind carries_current fun t u hlexeme => ?_
  rw [← show t.kind = u.kind from congrArg Lexeme.kind hlexeme]
  split
  case h_1 =>
    refine .bind carries_ident fun _ _ hname => .bind (carries_expect (by decide) (by decide)) fun _ _ _ => ?_
    refine .bind hnext fun _ _ hvalue => .pure ?_
    rw [Stmt.erase, Stmt.erase, hname, hvalue]
  case h_2 =>
    refine .bind hnext fun _ _ hvalue => .pure ?_
    rw [Stmt.erase, Stmt.erase, hvalue]
  case h_3 => exact carries_branch he hp
  case h_4 =>
    refine .bind (he .lowest) fun _ _ hvalue => .pure ?_
    rw [Stmt.erase, Stmt.erase, hvalue]

end Productions

/-! ## All nestings -/

theorem carries_within {rounds rounds' : Nat} (hrounds : rounds ≤ rounds') (depth : Nat) :
    (∀ precedence, x.Carries rounds (expressionWithin rounds depth precedence)
      (expressionWithin rounds' depth precedence) fun a b => a.erase = b.erase) ∧
    x.Carries rounds (programWithin rounds depth) (programWithin rounds' depth)
      fun a b => a.erase = b.erase := by
  induction depth with
  | zero =>
    constructor
    · intro precedence
      rw [expressionWithin]
      exact .nestingTooDeep _ _
    · rw [programWithin]
      exact .nestingTooDeep _ _
  | succ depth ih =>
    obtain ⟨he, hp⟩ := ih
    constructor
    · intro precedence
      rw [expressionWithin, expressionWithin]
      exact .bind (carries_operand hrounds he hp) fun left left' hleft =>
        carries_extend hrounds he precedence hrounds (Nat.le_refl rounds) hleft
    · rw [programWithin, programWithin]
      refine .bind carries_current fun _ _ _ => ?_
      refine .bind (carries_statements hrounds (carries_statement he hp)) fun _ _ hbody => .pure ?_
      rw [Block.erase, Block.erase, Stmt.eraseAll_eq_map, Stmt.eraseAll_eq_map, hbody]

end Onward

end MonkeyLang.Parser
