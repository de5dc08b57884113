import MonkeyLang.Proofs.Ast.Taking

namespace MonkeyLang.Parser
open Grammar

variable {α : Type} {eof : Token} {rounds : Nat}

def Passes (eof : Token) (tokens : List Token) (view : Lookahead)
    (P : List Lexeme → List Token → Prop) : Prop :=
  ∃ passed rest last, tokens = passed ++ rest ∧ view = window eof (last :: rest) ∧
    P (passed.map Token.lexeme) rest

theorem Passes.imp {tokens : List Token} {view : Lookahead} {P Q : List Lexeme → List Token → Prop}
    (h : Passes eof tokens view P) (hPQ : ∀ ls rest, P ls rest → Q ls rest) :
    Passes eof tokens view Q := by
  obtain ⟨passed, rest, last, rfl, rfl, hP⟩ := h
  exact ⟨passed, rest, last, rfl, rfl, hPQ _ _ hP⟩

def SoundItem (eof : Token) (rounds : Nat) (item : Parser α) (Q : α → List Lexeme → Prop) : Prop :=
  ∀ before tokens a view, tokens.length ≤ rounds →
    item.run (window eof (before :: tokens)) = .ok (a, view) →
    Passes eof tokens view fun ls _ => Q a ls

def SoundExpression (eof : Token) (rounds : Nat) (expression : Precedence → Parser Expr) : Prop :=
  ∀ precedence tokens e view, tokens.length ≤ rounds →
    (expression precedence).run (window eof tokens) = .ok (e, view) →
    Passes eof tokens view fun ls rest =>
      Derives (.expr precedence.stratum e.erase) ls ∧ Settled precedence rest

def SoundProgram (eof : Token) (rounds : Nat) (program : Parser Block) : Prop :=
  ∀ tokens body view, tokens.length ≤ rounds →
    program.run (window eof tokens) = .ok (body, view) →
    ∃ passed rest, tokens = passed ++ rest ∧ view = window eof rest ∧
      Derives (.body body.erase) (passed.map Token.lexeme)

def Expressed (precedence : Precedence) (e : Expr) (ts rest : List Token) : Prop :=
  Derives (.expr precedence.stratum e.erase) (ts.map Token.lexeme) ∧ Settled precedence rest

def Embodied (body : Block) (ts _rest : List Token) : Prop :=
  Derives (.body body.erase) (ts.map Token.lexeme)

theorem SoundItem.takes {item : Parser α} {Q : α → List Lexeme → Prop}
    (h : SoundItem eof rounds item Q) :
    TakesItem eof rounds item fun a ts => Q a (ts.map Token.lexeme) :=
  h

theorem SoundExpression.takes {expression : Precedence → Parser Expr}
    (h : SoundExpression eof rounds expression) : TakesExpression eof rounds expression Expressed :=
  h

theorem SoundProgram.takes {program : Parser Block} (h : SoundProgram eof rounds program) :
    TakesProgram eof rounds program Embodied :=
  h

theorem commas_of_separated {items : List (List Token)} {ts : List Token} (h : Separated items ts) :
    Commas (items.map (·.map Token.lexeme)) (ts.map Token.lexeme) := by
  induction h with
  | none => exact .none
  | one item => exact .one _
  | more hcomma _ ih =>
    rw [← Token.lexeme_kind] at hcomma
    simpa using Commas.more hcomma ih

theorem moreItems_sound {item : Parser α} {Q : α → List Lexeme → Prop} (heof : eof.kind = .eof)
    (hitem : SoundItem eof rounds item Q) (fuel : Nat) (last : Token) (tokens : List Token)
    (as : List α) (view : Lookahead) (hlength : tokens.length ≤ rounds)
    (h : (moreItems item fuel).run (window eof (last :: tokens)) = .ok (as, view)) :
    Passes eof tokens view fun ls _ => ∃ parts : List (α × List Lexeme), as = parts.map (·.1) ∧
      (∀ part ∈ parts, Q part.1 part.2) ∧ ∀ first, Commas (first :: parts.map (·.2)) (first ++ ls) := by
  refine (moreItems_takes heof hitem.takes fuel last tokens as view hlength h).imp ?_
  rintro ts - ⟨parts, rfl, hparts, hseparated⟩
  refine ⟨parts.map fun part => (part.1, part.2.map Token.lexeme), by simp,
    List.forall_mem_map.mpr hparts, fun first => ?_⟩
  simpa [Function.comp_def] using commas_of_separated (hseparated (first.map Lexeme.token))

theorem items_sound {item : Parser α} {Q : α → List Lexeme → Prop} {close : TokenKind}
    (heof : eof.kind = .eof) (hclose : close ≠ .eof) (hitem : SoundItem eof rounds item Q)
    {opening : Token} {tokens : List Token} {as : List α} {view : Lookahead}
    (hlength : tokens.length ≤ rounds)
    (h : (items rounds item close).run (window eof (opening :: tokens)) = .ok (as, view)) :
    Passes eof tokens view fun ls _ => ∃ (parts : List (α × List Lexeme)) (inner : List Lexeme)
      (closing : Lexeme), ls = inner ++ [closing] ∧ closing.kind = close ∧ as = parts.map (·.1) ∧
        (∀ part ∈ parts, Q part.1 part.2) ∧ Commas (parts.map (·.2)) inner := by
  refine (items_takes heof hclose hitem.takes hlength h).imp ?_
  rintro ts - ⟨parts, inner, closing, rfl, hclosing, rfl, hparts, hseparated⟩
  refine ⟨parts.map fun part => (part.1, part.2.map Token.lexeme), inner.map Token.lexeme,
    closing.lexeme, by simp, hclosing, by simp, List.forall_mem_map.mpr hparts, ?_⟩
  simpa [Function.comp_def] using commas_of_separated hseparated

theorem ident_sound (heof : eof.kind = .eof) :
    SoundItem eof rounds ident fun name ls => ∃ word : Lexeme, word.kind = .identifier ∧
      name.erase = ⟨default, word.literal⟩ ∧ ls = [word] := by
  intro before tokens name view hlength h
  refine (ident_takes heof before tokens name view hlength h).imp ?_
  rintro ts - ⟨word, hkind, ⟨⟩⟩
  exact ⟨word.lexeme, hkind, rfl, rfl⟩

theorem Inner.derives {e : Expr} {ts : List Token} (h : Inner Expressed e ts) :
    Derives (.expr .equality e.erase) (ts.map Token.lexeme) :=
  h.elim fun _ he => he.1

theorem derives_items {parts : List (Expr × List Token)} {ts : List Token}
    (hparts : ∀ part ∈ parts, Inner Expressed part.1 part.2) (hts : Separated (parts.map (·.2)) ts) :
    ∃ erased : List (Expr × List Lexeme), Expr.eraseAll (parts.map (·.1)) = erased.map (·.1) ∧
      (∀ part ∈ erased, Derives (.expr .equality part.1) part.2) ∧
      Commas (erased.map (·.2)) (ts.map Token.lexeme) := by
  refine ⟨parts.map fun part => (part.1.erase, part.2.map Token.lexeme), ?_,
    List.forall_mem_map.mpr fun part mem => (hparts part mem).derives, ?_⟩
  · simp [Expr.eraseAll_eq_map, Function.comp_def]
  · simpa [Function.comp_def] using commas_of_separated hts

theorem OperandOf.derives {e : Expr} {ts rest : List Token} (h : OperandOf Expressed Embodied e ts rest) :
    ∃ stratum : Stratum, Stratum.unary.level ≤ stratum.level ∧
      Derives (.expr stratum e.erase) (ts.map Token.lexeme) ∧ Settled stratum.precedence rest := by
  have atom (hd : Derives (.expr .atom e.erase) (ts.map Token.lexeme)) : ∃ stratum : Stratum,
      Stratum.unary.level ≤ stratum.level ∧ Derives (.expr stratum e.erase) (ts.map Token.lexeme) ∧
        Settled stratum.precedence rest :=
    ⟨.atom, by decide, hd, settled_index rest⟩
  cases h with
  | name hkind =>
    rw [← Token.lexeme_kind] at hkind
    exact atom (.name hkind)
  | integer hkind hdigits hvalue hmax => exact atom (.integer hkind hdigits hvalue hmax)
  | trueWord hkind => exact atom (.trueWord hkind)
  | falseWord hkind => exact atom (.falseWord hkind)
  | string hkind =>
    rw [← Token.lexeme_kind] at hkind
    exact atom (.string hkind)
  | unary hsign hright => exact ⟨.unary, by decide, .unary hsign hright.1, hright.2⟩
  | @group _ _ _ opening closing hopening hclosing hinner =>
    rw [← Token.lexeme_kind] at hopening hclosing
    exact atom (by simpa using Derives.group hopening hclosing hinner.derives)
  | @function params _ _ _ _ word opening closing opened closed hword hopening hclosing hopened hparams hps
      hbody =>
    obtain ⟨hclosed, _, hbody⟩ := hbody
    have hnames : ∀ param ∈ params.map Token.lexeme, param.kind = .identifier :=
      List.forall_mem_map.mpr hparams
    have hcommas := commas_of_separated hps
    rw [← Token.lexeme_kind] at hword hopening hclosing hopened hclosed
    rw [List.map_map] at hcommas
    refine atom ?_
    simpa [Expr.erase, Token.ident, Ident.erase, Function.comp_def] using Derives.function hword hopening
      hclosing hopened hclosed hnames (by simpa [Function.comp_def] using hcommas) hbody
  | array hopening hclosing helements hes =>
    obtain ⟨erased, herased, hparts, hcommas⟩ := derives_items helements hes
    rw [← Token.lexeme_kind] at hopening hclosing
    refine atom ?_
    simpa [Expr.erase, herased] using Derives.array hopening hclosing hparts hcommas
  | @hash entries _ _ opening closing hopening hclosing hentries hes =>
    have hpairs : ∀ pair ∈ entries.map fun entry =>
        ((entry.key.erase, entry.value.erase), entry.tokens.map Token.lexeme),
        Derives (.pair pair.1) pair.2 := by
      refine List.forall_mem_map.mpr fun entry mem => ?_
      obtain ⟨hkey, hcolon, hvalue⟩ := hentries entry mem
      rw [← Token.lexeme_kind] at hcolon
      simpa [Entry.tokens] using Derives.pair hkey.derives hcolon hvalue.derives
    have hcommas := commas_of_separated hes
    rw [← Token.lexeme_kind] at hopening hclosing
    refine atom ?_
    simpa [Expr.erase, Expr.erasePairs_eq_map, Entry.pair, Function.comp_def] using
      Derives.hash hopening hclosing hpairs (by simpa [Function.comp_def] using hcommas)

theorem SuffixOf.derives {left e : Expr} {sign : Token} {next : Suffix} {ts rest : List Token}
    (h : SuffixOf Expressed left sign next e ts rest) {stratum : Stratum} {ls : List Lexeme}
    (hnext : Suffix.ofKind? sign.kind = some next)
    (hle : next.precedence.rank ≤ stratum.precedence.rank)
    (hleft : Derives (.expr stratum left.erase) ls) :
    ∃ outer : Stratum, next.precedence.rank ≤ outer.precedence.rank ∧
      Derives (.expr outer e.erase) (ls ++ sign.lexeme :: ts.map Token.lexeme) ∧
      Settled outer.precedence rest := by
  rcases Suffix.ofKind?_cases hnext with ⟨outer, operator, hsign, rfl⟩ | ⟨hsign, rfl⟩ | ⟨hsign, rfl⟩
  · cases h with
    | operator hright =>
      obtain ⟨hd, settled⟩ := hright
      rw [stratum_of_binary hsign] at hd
      exact ⟨outer, Nat.le_refl _, .binary hsign (hleft.loosen (level_le_of_binary hsign hle)) hd, settled⟩
  · cases h with
    | call hclosing harguments has =>
      obtain ⟨erased, herased, hparts, hcommas⟩ := derives_items harguments has
      rw [← Token.lexeme_kind] at hsign hclosing
      refine ⟨.suffixed, by decide, ?_, settled_index _⟩
      simpa [Expr.erase, herased] using
        Derives.call (hleft.loosen (level_suffixed_le hle)) hsign hclosing hparts hcommas
  · cases h with
    | index hclosing hindex =>
      have hcall : Precedence.call.rank ≤ stratum.precedence.rank := Nat.le_trans (by decide) hle
      rw [← Token.lexeme_kind] at hsign hclosing
      refine ⟨.suffixed, by decide, ?_, settled_index _⟩
      simpa [Expr.erase] using
        Derives.index (hleft.loosen (level_suffixed_le hcall)) hsign hclosing hindex.derives

theorem StatementOf.derives {s : Stmt} {ts rest : List Token}
    (h : StatementOf Expressed Embodied s ts rest) :
    Derives (.stmt s.erase) (ts.map Token.lexeme) ∧
      (endsInExpression s = true → Settled .lowest rest) := by
  cases h with
  | bind hword hname hsign hvalue =>
    rw [← Token.lexeme_kind] at hword hname hsign
    exact ⟨.bind hword hname hsign hvalue.1, fun _ => hvalue.2⟩
  | ret hword hvalue =>
    rw [← Token.lexeme_kind] at hword
    exact ⟨.ret hword hvalue.1, fun _ => hvalue.2⟩
  | branch hword hopening hclosing hopened hcondition hbody =>
    obtain ⟨hclosed, _, hbody⟩ := hbody
    rw [← Token.lexeme_kind] at hword hopening hclosing hopened hclosed
    refine ⟨?_, by simp [endsInExpression]⟩
    simpa [Stmt.erase] using
      Derives.branch hword hopening hclosing hopened hclosed hcondition.derives hbody
  | branchElse hword hopening hclosing hopened helse hreopened hcondition hbody halternative =>
    obtain ⟨hclosed, _, hbody⟩ := hbody
    obtain ⟨hreclosed, _, halternative⟩ := halternative
    rw [← Token.lexeme_kind] at hword hopening hclosing hopened hclosed helse hreopened hreclosed
    refine ⟨?_, by simp [endsInExpression]⟩
    simpa [Stmt.erase] using Derives.branchElse hword hopening hclosing hopened hclosed helse hreopened
      hreclosed hcondition.derives hbody halternative
  | expr hvalue => exact ⟨.expr hvalue.1, fun _ => hvalue.2⟩

section Productions

variable {expression : Precedence → Parser Expr} {program : Parser Block}

theorem nextExpression_sound (hE : SoundExpression eof rounds expression) :
    SoundItem eof rounds (nextExpression expression) fun e ls =>
      Derives (.expr .equality e.erase) ls :=
  fun before tokens e view hlength h =>
    (nextExpression_takes hE.takes before tokens e view hlength h).imp fun _ _ he => he.derives

theorem pair_sound (heof : eof.kind = .eof) (hE : SoundExpression eof rounds expression) :
    SoundItem eof rounds (pair expression) fun entry ls =>
      Derives (.pair (entry.1.erase, entry.2.erase)) ls := by
  intro before tokens pair view hlength h
  refine (pair_takes heof hE.takes before tokens pair view hlength h).imp ?_
  rintro ts - ⟨entry, ⟨hkey, hcolon, hvalue⟩, ⟨⟩⟩
  rw [← Token.lexeme_kind] at hcolon
  simpa [Entry.pair, Entry.tokens] using Derives.pair hkey.derives hcolon hvalue.derives

theorem block_sound (heof : eof.kind = .eof) (hP : SoundProgram eof rounds program)
    {opened : Token} {tokens : List Token} {body : Block} {view : Lookahead}
    (hlength : tokens.length ≤ rounds)
    (h : (block program).run (window eof (opened :: tokens)) = .ok (body, view)) :
    Passes eof tokens view fun ls _ => ∃ (inner : List Lexeme) (closed : Lexeme),
      ls = inner ++ [closed] ∧ closed.kind = .rightBrace ∧ Derives (.body body.erase) inner := by
  refine (block_takes heof hP.takes opened tokens body view hlength h).imp ?_
  rintro ts - ⟨inner, closed, rfl, hclosed, _, hbody⟩
  exact ⟨inner.map Token.lexeme, closed.lexeme, by simp, hclosed, hbody⟩

theorem operand_sound (heof : eof.kind = .eof) (hE : SoundExpression eof rounds expression)
    (hP : SoundProgram eof rounds program) {tokens : List Token} {e : Expr} {view : Lookahead}
    (hlength : tokens.length ≤ rounds)
    (h : (operand rounds expression program).run (window eof tokens) = .ok (e, view)) :
    ∃ stratum : Stratum, Stratum.unary.level ≤ stratum.level ∧
      Passes eof tokens view fun ls rest =>
        Derives (.expr stratum e.erase) ls ∧ Settled stratum.precedence rest := by
  obtain ⟨ts, rest, last, htokens, hview, hlayer⟩ := operand_takes heof hE.takes hP.takes hlength h
  obtain ⟨stratum, hstratum, hd⟩ := hlayer.derives
  exact ⟨stratum, hstratum, ts, rest, last, htokens, hview, hd⟩

theorem suffix_sound (heof : eof.kind = .eof) (hE : SoundExpression eof rounds expression)
    {sign : Token} {tokens : List Token} {next : Suffix} {left e : Expr} {view : Lookahead}
    {stratum : Stratum} {ls : List Lexeme} (hlength : tokens.length ≤ rounds)
    (hnext : Suffix.ofKind? sign.kind = some next)
    (hle : next.precedence.rank ≤ stratum.precedence.rank)
    (hleft : Derives (.expr stratum left.erase) ls)
    (h : (suffix rounds expression left next).run (window eof (sign :: tokens)) = .ok (e, view)) :
    ∃ outer : Stratum, next.precedence.rank ≤ outer.precedence.rank ∧
      Passes eof tokens view fun rs rest =>
        Derives (.expr outer e.erase) (ls ++ sign.lexeme :: rs) ∧ Settled outer.precedence rest := by
  obtain ⟨ts, rest, last, htokens, hview, hlayer⟩ := suffix_takes heof hE.takes hlength h
  obtain ⟨outer, houter, hd⟩ := hlayer.derives hnext hle hleft
  exact ⟨outer, houter, ts, rest, last, htokens, hview, hd⟩

def Extended (precedence : Precedence) (ls : List Lexeme) (e : Expr) (ts rest : List Token) : Prop :=
  ∃ stratum : Stratum, precedence.stratum.level ≤ stratum.level ∧
    Derives (.expr stratum e.erase) (ls ++ ts.map Token.lexeme) ∧ Settled stratum.precedence rest

theorem extend_sound (heof : eof.kind = .eof) (hE : SoundExpression eof rounds expression)
    (precedence : Precedence) (fuel : Nat) {left e : Expr} {stratum : Stratum} {ls : List Lexeme}
    {last : Token} {tokens : List Token} {view : Lookahead} (hlength : tokens.length ≤ rounds)
    (hfuel : tokens.length ≤ fuel) (hle : precedence.stratum.level ≤ stratum.level)
    (hleft : Derives (.expr stratum left.erase) ls) (settled : Settled stratum.precedence tokens)
    (h : (extend rounds expression precedence fuel left).run (window eof (last :: tokens)) =
      .ok (e, view)) :
    Passes eof tokens view fun rs rest =>
      Derives (.expr precedence.stratum e.erase) (ls ++ rs) ∧ Settled precedence rest := by
  have hstart : Extended precedence ls left [] tokens := ⟨stratum, hle, by simpa using hleft, settled⟩
  refine (extend_takes heof precedence ?_ fuel hlength hstart h).imp ?_
  · rintro sign next left e ts tokens view hnext hlt hlength ⟨stratum, -, hd, settled⟩ h
    obtain ⟨outer, houter, us, rest, last, htokens, hview, hd', settled'⟩ :=
      suffix_sound heof hE hlength hnext (settled sign rfl next hnext) hd h
    exact ⟨us, rest, last, htokens, hview, outer,
      Precedence.level_stratum_le_of_lt (Nat.lt_of_lt_of_le hlt houter), by simpa using hd', settled'⟩
  · rintro ts rest ⟨⟨stratum, hle, hd, -⟩, settled⟩
    exact ⟨hd.loosen hle, settled hfuel⟩

theorem statement_sound (heof : eof.kind = .eof) (hE : SoundExpression eof rounds expression)
    (hP : SoundProgram eof rounds program) {tokens : List Token} {s : Stmt} {view : Lookahead}
    (hlength : tokens.length ≤ rounds)
    (h : (statement expression program).run (window eof tokens) = .ok (s, view)) :
    Passes eof tokens view fun ls rest =>
      Derives (.stmt s.erase) ls ∧ (endsInExpression s = true → Settled .lowest rest) :=
  (statement_takes heof hE.takes hP.takes hlength h).imp fun _ _ hlayer => hlayer.derives

end Productions

theorem endsInExpression_erase (s : Stmt) : endsInExpression s.erase = endsInExpression s := by
  cases s with
  | branch _ _ _ alternative => cases alternative <;> rfl
  | _ => rfl

theorem statements_sound (heof : eof.kind = .eof) {statement : Parser Stmt}
    (hS : ∀ tokens s view, tokens.length ≤ rounds →
      statement.run (window eof tokens) = .ok (s, view) →
      Passes eof tokens view fun ls rest =>
        Derives (.stmt s.erase) ls ∧ (endsInExpression s = true → Settled .lowest rest))
    {fuel : Nat} {tokens : List Token} {ss : List Stmt} {view : Lookahead}
    (hlength : tokens.length ≤ rounds)
    (h : (statements statement fuel).run (window eof tokens) = .ok (ss, view)) :
    ∃ passed rest, tokens = passed ++ rest ∧ view = window eof rest ∧
      Derives (.body (.mk default (Stmt.eraseAll ss))) (passed.map Token.lexeme) := by
  refine statements_takes heof (T := fun ss ts _ =>
    Derives (.body (.mk default (Stmt.eraseAll ss))) (ts.map Token.lexeme)) hS (fun _ => .empty) ?_ hlength h
  rintro s ss ts semicolons us rest ⟨hd, settled⟩ hsemicolons hds
  have follow : endsInExpression s.erase = true →
      ∀ l ∈ ((semicolons ++ us).map Token.lexeme).head?, continues l.kind = false := by
    intro hends l mem
    rw [endsInExpression_erase] at hends
    rw [List.head?_map, Option.mem_def, Option.map_eq_some_iff] at mem
    obtain ⟨token, mem, rfl⟩ := mem
    refine settled_lowest_iff.mp (settled hends) token ?_
    rw [List.head?_append, mem]
    rfl
  rw [List.map_append] at follow
  simpa [Stmt.eraseAll] using Derives.statement hd (by simpa using hsemicolons) hds follow

theorem sound_within (heof : eof.kind = .eof) (rounds depth : Nat) :
    SoundExpression eof rounds (expressionWithin rounds depth) ∧
      SoundProgram eof rounds (programWithin rounds depth) := by
  induction depth with
  | zero =>
    constructor
    · intro precedence tokens e view _ h
      cases h
    · intro tokens body view _ h
      cases h
  | succ depth ih =>
    obtain ⟨hE, hP⟩ := ih
    constructor
    · intro precedence tokens e view hlength h
      rw [expressionWithin, run_bind_ok] at h
      obtain ⟨left, _, hleft, h⟩ := h
      obtain ⟨stratum, hstratum, passed, rest, last, rfl, rfl, hd, settled⟩ :=
        operand_sound heof hE hP hlength hleft
      have hrest : rest.length ≤ rounds := by simp at hlength; omega
      obtain ⟨passed', rest', last', rfl, rfl, hd', settled'⟩ :=
        extend_sound heof hE precedence rounds hrest hrest
          (Nat.le_trans precedence.level_stratum_le hstratum) hd settled h
      exact ⟨passed ++ passed', rest', last', by simp, rfl, by simpa using hd', settled'⟩
    · intro tokens body view hlength h
      rw [programWithin, run_current_bind, run_bind_ok] at h
      obtain ⟨ss, _, hss, h⟩ := h
      obtain ⟨rfl, rfl⟩ := run_pure_ok.mp h
      exact statements_sound heof (fun _ _ _ => statement_sound heof hE hP) hlength hss

theorem program_of_parseStream {depth : Nat} {tokens : List Token} {program : Block}
    (heof : eof.kind = .eof) (htokens : ∀ token ∈ tokens, token.kind ≠ .eof)
    (h : parseStream depth ⟨tokens, .ok eof⟩ = .ok program) :
    Program program.erase ((tokens ++ [eof]).map Token.lexeme) := by
  have hbody := parseStream_takes htokens (sound_within heof _ depth).2.takes h
  exact ⟨tokens.map Token.lexeme, eof.lexeme, by simp, heof, hbody⟩

end MonkeyLang.Parser
