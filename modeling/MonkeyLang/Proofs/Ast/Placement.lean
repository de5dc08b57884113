import MonkeyLang.Proofs.Ast.RoundTrip
import MonkeyLang.Proofs.Ast.Taking
import MonkeyLang.Proofs.Token.Layout

namespace MonkeyLang

namespace Parser

variable {eof : Token} {bound : Nat}

def ExprWritten (_ : Precedence) (e : Expr) (ts _rest : List Token) : Prop :=
  Written (.expr e) ts

def BodyWritten (eof : Token) (body : Block) (ts rest : List Token) : Prop :=
  endsBlock (rest.headD eof) = true → Written (.block body) (ts ++ [rest.headD eof])

theorem Inner.written {e : Expr} {ts : List Token} (h : Inner ExprWritten e ts) : Written (.expr e) ts :=
  h.elim fun _ he => he

theorem Body.written {body : Block} {ts : List Token} {closed : Token}
    (h : Body (BodyWritten eof) body ts closed) : Written (.block body) (ts ++ [closed]) :=
  h.2.elim fun _ hbody => hbody (by simp [endsBlock, h.1])

theorem OperandOf.written {e : Expr} {ts rest : List Token}
    (h : OperandOf ExprWritten (BodyWritten eof) e ts rest) : Written (.expr e) ts := by
  cases h with
  | name hkind => exact .name hkind
  | integer hkind _ hvalue hmax => exact .integer hkind hvalue hmax
  | trueWord hkind => exact .trueWord hkind
  | falseWord hkind => exact .falseWord hkind
  | string hkind => exact .string hkind
  | unary hsign hright => exact .unary hsign hright
  | group hopening hclosing hinner => exact .group hopening hclosing hinner.written
  | function hword hopening hclosing hopened hparams hps hbody =>
    exact .function hword hopening hclosing hopened hbody.1 hparams hps hbody.written
  | array hopening hclosing helements hes =>
    exact .array hopening hclosing (fun element mem => (helements element mem).written) hes
  | hash hopening hclosing hentries hes =>
    exact .hash hopening hclosing (fun entry mem => (hentries entry mem).1.written)
      (fun entry mem => (hentries entry mem).2.1) (fun entry mem => (hentries entry mem).2.2.written) hes

theorem SuffixOf.written {left e : Expr} {sign : Token} {next : Suffix} {ls ts rest : List Token}
    (h : SuffixOf ExprWritten left sign next e ts rest) (hnext : Suffix.ofKind? sign.kind = some next)
    (hleft : Written (.expr left) ls) : Written (.expr e) (ls ++ sign :: ts) := by
  rcases Suffix.ofKind?_cases hnext with ⟨stratum, operator, hsign, rfl⟩ | ⟨hsign, rfl⟩ | ⟨hsign, rfl⟩
  · cases h with
    | operator hright => exact .binary hsign hleft hright
  · cases h with
    | call hclosing harguments has =>
      simpa using
        Written.call hleft hsign hclosing (fun argument mem => (harguments argument mem).written) has
  · cases h with
    | index hclosing hindex => simpa using Written.index hleft hsign hclosing hindex.written

theorem StatementOf.written {s : Stmt} {ts rest : List Token}
    (h : StatementOf ExprWritten (BodyWritten eof) s ts rest) : Written (.stmt s) ts := by
  cases h with
  | bind hword hname hsign hvalue => exact .bind hword hname hsign hvalue
  | ret hword hvalue => exact .ret hword hvalue
  | branch hword hopening hclosing hopened hcondition hbody =>
    exact .branch hword hopening hclosing hopened hbody.1 hcondition.written hbody.written
  | branchElse hword hopening hclosing hopened helse hreopened hcondition hbody halternative =>
    exact .branchElse hword hopening hclosing hopened hbody.1 helse hreopened halternative.1
      hcondition.written hbody.written halternative.written
  | expr hvalue =>
    obtain ⟨first, ts, rfl⟩ := List.exists_cons_of_ne_nil (Written.ne_nil hvalue)
    exact .expr hvalue rfl

theorem extend_written (heof : eof.kind = .eof) {expression : Precedence → Parser Expr}
    (hE : TakesExpression eof bound expression ExprWritten) (precedence : Precedence) (fuel : Nat)
    {left e : Expr} {ls : List Token} {last : Token} {tokens : List Token} {view : Lookahead}
    (hlength : tokens.length ≤ bound) (hleft : Written (.expr left) ls)
    (h : (extend bound expression precedence fuel left).run (window eof (last :: tokens)) =
      .ok (e, view)) :
    Takes eof tokens view fun ts _ => Written (.expr e) (ls ++ ts) := by
  have hstart : ExprWritten precedence left ls tokens := hleft
  refine (extend_takes heof precedence ?_ fuel hlength hstart h).imp fun _ _ he => he.1
  intro sign next left e ts tokens view hnext _ hlength hleft h
  exact (suffix_takes heof hE hlength h).imp fun _ _ hlayer => hlayer.written hnext hleft

def Sentences (ss : List Stmt) (ts : List Token) : Prop :=
  ∃ sentences : List Sentence, ss = sentences.map (·.stmt) ∧ ts = sentences.flatMap Sentence.tokens ∧
    (∀ sentence ∈ sentences, Written (.stmt sentence.stmt) sentence.own) ∧
    ∀ sentence ∈ sentences, ∀ token ∈ sentence.semicolons, token.kind = .semicolon

theorem Sentences.cons {s : Stmt} {ss : List Stmt} {ts semicolons us : List Token}
    (hs : Written (.stmt s) ts) (hsemicolons : ∀ token ∈ semicolons, token.kind = .semicolon)
    (h : Sentences ss us) : Sentences (s :: ss) (ts ++ semicolons ++ us) := by
  obtain ⟨sentences, rfl, rfl, hown, hbetween⟩ := h
  exact ⟨⟨s, ts, semicolons⟩ :: sentences, rfl, rfl, List.forall_mem_cons.mpr ⟨hs, hown⟩,
    List.forall_mem_cons.mpr ⟨hsemicolons, hbetween⟩⟩

theorem Sentences.written {ss : List Stmt} {ts : List Token} (h : Sentences ss ts) (rest : List Token) :
    BodyWritten eof (.mk ((ts ++ rest).headD eof).span ss) ts rest := by
  intro hends
  obtain ⟨sentences, rfl, rfl, hown, hbetween⟩ := h
  refine .block ?_ hown hbetween ?_
  · simpa [endsBlock, or_comm] using hends
  -- The token in view at the start is the first one taken, or the closing one if none is.
  · cases sentences.flatMap Sentence.tokens <;> cases rest <;> rfl

theorem written_within (heof : eof.kind = .eof) (bound depth : Nat) :
    TakesExpression eof bound (expressionWithin bound depth) ExprWritten ∧
      TakesProgram eof bound (programWithin bound depth) (BodyWritten eof) := by
  induction depth with
  | zero =>
    constructor
    · rintro _ _ _ _ _ ⟨⟩
    · rintro _ _ _ _ ⟨⟩
  | succ depth ih =>
    obtain ⟨hE, hP⟩ := ih
    constructor
    · intro precedence tokens e view hlength h
      rw [expressionWithin, run_bind_ok] at h
      obtain ⟨left, _, hleft, h⟩ := h
      obtain ⟨ls, rest, last, rfl, rfl, hoperand⟩ := operand_takes heof hE hP hlength hleft
      obtain ⟨ts, rest', last', rfl, rfl, he⟩ :=
        extend_written heof hE precedence bound (by simp at hlength; omega) hoperand.written h
      exact ⟨ls ++ ts, rest', last', by simp, rfl, he⟩
    · intro tokens body view hlength h
      rw [programWithin, run_current_bind, run_bind_ok] at h
      obtain ⟨ss, _, hss, h⟩ := h
      obtain ⟨rfl, rfl⟩ := run_pure_ok.mp h
      obtain ⟨ts, rest, rfl, rfl, hsentences⟩ := statements_takes heof (T := fun ss ts _ => Sentences ss ts)
        (fun _ _ _ => statement_takes heof hE hP) (fun _ => ⟨[], rfl, rfl, by simp, by simp⟩)
        (fun hs hsemicolons hmore => .cons hs.written hsemicolons hmore) hlength hss
      exact ⟨ts, rest, rfl, rfl, hsentences.written rest⟩

end Parser

theorem written_of_parseWithin {source : String} {tokens : List Token}
    (h : tokenize source = .ok tokens) {depth : Nat} {program : Block}
    (hparse : parseWithin depth source = .ok program) : Written (.block program) tokens := by
  obtain ⟨body, eof, rfl, hstream, heof, hbody⟩ := ofSource_of_tokenize h
  rw [parseWithin, hstream] at hparse
  have hwritten := Parser.parseStream_takes hbody (Parser.written_within heof _ depth).2 hparse
  simpa using hwritten (by simp [Parser.endsBlock, heof])

/-- The tokens of a source spell the tree that is read from it, with its spans. So every node holds only
what a text can spell, and has its span from a token of the source: one among those that spell the node,
which says what the node is, or else the first of them, as for a statement that is an expression and for a
block. The tokens of a block stand behind its opening brace, or are all there are. The names in a node have
their spans from tokens among its own, too. -/
theorem parseWithin_located {depth : Nat} {source : String} {program : Block}
    (h : parseWithin depth source = .ok program) :
    ∃ tokens, tokenize source = .ok tokens ∧ (∀ token ∈ tokens, token.StandsIn source) ∧
      Written (.block program) tokens ∧ ∀ node, Node.Within node (.block program) → node.Lawful ∧
        ∃ front own behind, tokens = front ++ own ++ behind ∧ Written node own ∧
          (node.Opened front ∨ node = .block program ∧ front = []) ∧
          (∃ token ∈ own, token.span = node.span ∧ node.SpeltBy own token) ∧
          ∀ ident ∈ node.idents, ∃ word ∈ own, word.kind = .identifier ∧ word.ident = ident := by
  obtain ⟨tokens, htokens⟩ := tokenize_of_parseWithin h
  have hprogram := written_of_parseWithin htokens h
  have hlawful := lawful_of_tokenize htokens
  refine ⟨tokens, htokens, fun token mem => ?_, hprogram, fun node within => ?_⟩
  · obtain ⟨passed, front, rest, hsource, hnewline, hspelled, hspan⟩ :=
      (placed_of_tokenize htokens).located token mem
    exact standsIn_along hsource hnewline hspelled hspan
  refine ⟨wellFormed_of_parseWithin h node within, ?_⟩
  have hstretch : ∃ front own behind, tokens = front ++ own ++ behind ∧ Written node own ∧
      (node.Opened front ∨ node = .block program ∧ front = []) := by
    rcases hprogram.within within with rfl | ⟨front, own, behind, heq, hown, hopened⟩
    · exact ⟨[], tokens, [], by simp, hprogram, .inr ⟨rfl, rfl⟩⟩
    · exact ⟨front, own, behind, heq, hown, .inl hopened⟩
  obtain ⟨front, own, behind, rfl, hown, hfront⟩ := hstretch
  exact ⟨front, own, behind, rfl, hown, hfront,
    hown.located fun token mem => hlawful token (by simp [mem]), hown.idents⟩

theorem parseWithin_located_call :
    let call : Expr := .call ⟨0, 3, 4⟩ (.name ⟨⟨0, 1, 2⟩, "f"⟩) [.integer ⟨0, 4, 5⟩ 1]
    parseWithin 4 "(f)(1)" = .ok (.mk ⟨0, 0, 1⟩ [.expr ⟨0, 0, 1⟩ call]) ∧
      ∃ own token, Written (.expr call) own ∧ token ∈ own ∧ token.span = ⟨0, 3, 4⟩ ∧
        token.lexeme = ⟨.leftParen, "("⟩ := by
  intro call
  have hparse : parseWithin 4 "(f)(1)" = .ok (.mk ⟨0, 0, 1⟩ [.expr ⟨0, 0, 1⟩ call]) := by
    cbv
  obtain ⟨tokens, -, -, -, hnodes⟩ := parseWithin_located hparse
  have within : Node.Within (.expr call) (.block (.mk ⟨0, 0, 1⟩ [.expr ⟨0, 0, 1⟩ call])) :=
    .child List.mem_cons_self (.child List.mem_cons_self .root)
  obtain ⟨-, _, own, _, -, hown, -, ⟨token, mem, hspan, hspelt⟩, -⟩ := hnodes _ within
  exact ⟨hparse, own, token, hown, mem, hspan, hspelt⟩

end MonkeyLang
