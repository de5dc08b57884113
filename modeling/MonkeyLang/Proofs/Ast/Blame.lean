import MonkeyLang.Proofs.Ast.Completeness
import MonkeyLang.Proofs.Ast.Soundness
import MonkeyLang.Proofs.Ast.Verdict

/-!
# Where parsing stops

The verdict of each production: the tokens in front of the one that stopped it go on to a whole phrase
with what was expected there, and go on to none with the token that was found. Each production is taken
with arbitrary readers of the expressions and blocks inside it that have such verdicts, and
`judges_within` ties the knot by induction on the nesting.
-/

namespace MonkeyLang.Parser
open Grammar

/-! ## Languages -/

def Forms {τ : Type} (phrase : τ → Phrase) (ls : List Lexeme) : Prop :=
  ∃ t, Derives (phrase t) ls

def Listed (I : List Lexeme → Prop) (ls : List Lexeme) : Prop :=
  ∃ parts : List (List Lexeme), (∀ part ∈ parts, I part) ∧ Commas parts ls

def Trailing (I : List Lexeme → Prop) (ls : List Lexeme) : Prop :=
  ∃ parts : List (List Lexeme), (∀ part ∈ parts, I part) ∧
    ∀ first, Commas (first :: parts) (first ++ ls)

def Closed (close : TokenKind) (I : List Lexeme → Prop) (ls : List Lexeme) : Prop :=
  ∃ inner closing, ls = inner ++ [closing] ∧ closing.kind = close ∧ I inner

def Fresh (tokens : List Token) (ls : List Lexeme) : Prop :=
  ∀ l ∈ ls.head?, continues l.kind = false ∨ l ∈ (tokens.map Token.lexeme).head?

variable {I : List Lexeme → Prop}

theorem Listed.parts {τ : Type} {phrase : τ → Phrase} {ls : List Lexeme}
    (h : Listed (Forms phrase) ls) :
    ∃ parts : List (τ × List Lexeme), (∀ part ∈ parts, Derives (phrase part.1) part.2) ∧
      Commas (parts.map (·.2)) ls := by
  obtain ⟨parts, hparts, hcommas⟩ := h
  obtain ⟨named, hnamed, rfl⟩ := exists_map_eq (f := fun part : τ × List Lexeme => part.2)
    (P := fun part => Derives (phrase part.1) part.2)
    fun part mem => (hparts part mem).elim fun t hpart => ⟨(t, part), hpart, rfl⟩
  exact ⟨named, hnamed, hcommas⟩

def Named (ls : List Lexeme) : Prop :=
  ∃ word : Lexeme, word.kind = .identifier ∧ ls = [word]

theorem Listed.words {ls : List Lexeme} (h : Listed Named ls) :
    ∃ words : List Lexeme, (∀ word ∈ words, word.kind = .identifier) ∧ Commas (words.map ([·])) ls := by
  obtain ⟨parts, hparts, hcommas⟩ := h
  obtain ⟨words, hwords, rfl⟩ := exists_map_eq (f := ([·]))
    (P := fun word : Lexeme => word.kind = .identifier)
    fun part mem => (hparts part mem).imp fun _ ⟨hword, hpart⟩ => ⟨hword, hpart.symm⟩
  exact ⟨words, hwords, hcommas⟩

theorem forms_sample (stratum : Stratum) : Forms (.expr stratum) [.sample .identifier] :=
  ⟨_, Derives.loosen (by cases stratum <;> decide) (.name rfl)⟩

/-! ### Phrases from their parts -/

theorem Forms.group {opening : Lexeme} (hopening : opening.kind = .leftParen) {ls : List Lexeme}
    (h : Closed .rightParen (Forms (.expr .equality)) ls) : Forms (.expr .atom) (opening :: ls) := by
  obtain ⟨inner, closing, rfl, hclosing, e, hd⟩ := h
  exact ⟨e, .group hopening hclosing hd⟩

theorem Forms.array {opening : Lexeme} (hopening : opening.kind = .leftBracket) {ls : List Lexeme}
    (h : Closed .rightBracket (Listed (Forms (.expr .equality))) ls) :
    Forms (.expr .atom) (opening :: ls) := by
  obtain ⟨inner, closing, rfl, hclosing, hlisted⟩ := h
  obtain ⟨parts, hparts, hcommas⟩ := hlisted.parts
  exact ⟨_, .array hopening hclosing hparts hcommas⟩

theorem Forms.hash {opening : Lexeme} (hopening : opening.kind = .leftBrace) {ls : List Lexeme}
    (h : Closed .rightBrace (Listed (Forms .pair)) ls) : Forms (.expr .atom) (opening :: ls) := by
  obtain ⟨inner, closing, rfl, hclosing, hlisted⟩ := h
  obtain ⟨parts, hparts, hcommas⟩ := hlisted.parts
  exact ⟨_, .hash hopening hclosing hparts hcommas⟩

theorem Forms.function {word opening opened : Lexeme} (hword : word.kind = .fnWord)
    (hopening : opening.kind = .leftParen) {ps : List Lexeme} (hps : Closed .rightParen (Listed Named) ps)
    (hopened : opened.kind = .leftBrace) {bs : List Lexeme} (hbs : Closed .rightBrace (Forms .body) bs) :
    Forms (.expr .atom) (word :: opening :: (ps ++ opened :: bs)) := by
  obtain ⟨inner, closing, rfl, hclosing, hlisted⟩ := hps
  obtain ⟨words, hwords, hcommas⟩ := hlisted.words
  obtain ⟨body, closed, rfl, hclosed, b, hd⟩ := hbs
  exact ⟨_, by simpa using Derives.function hword hopening hclosing hopened hclosed hwords hcommas hd⟩

theorem Forms.call {ls : List Lexeme} (hcallee : Forms (.expr .suffixed) ls) {opening : Lexeme}
    (hopening : opening.kind = .leftParen) {as : List Lexeme}
    (h : Closed .rightParen (Listed (Forms (.expr .equality))) as) :
    Forms (.expr .suffixed) (ls ++ opening :: as) := by
  obtain ⟨e, hd⟩ := hcallee
  obtain ⟨inner, closing, rfl, hclosing, hlisted⟩ := h
  obtain ⟨parts, hparts, hcommas⟩ := hlisted.parts
  exact ⟨_, by simpa using Derives.call hd hopening hclosing hparts hcommas⟩

theorem Forms.index {ls : List Lexeme} (hleft : Forms (.expr .suffixed) ls) {opening : Lexeme}
    (hopening : opening.kind = .leftBracket) {is : List Lexeme}
    (h : Closed .rightBracket (Forms (.expr .equality)) is) :
    Forms (.expr .suffixed) (ls ++ opening :: is) := by
  obtain ⟨e, hd⟩ := hleft
  obtain ⟨inner, closing, rfl, hclosing, index, hindex⟩ := h
  exact ⟨_, by simpa using Derives.index hd hopening hclosing hindex⟩

theorem Forms.branch {word opening : Lexeme} (hword : word.kind = .ifWord)
    (hopening : opening.kind = .leftParen) {cs : List Lexeme}
    (hcs : Closed .rightParen (Forms (.expr .equality)) cs) {opened : Lexeme}
    (hopened : opened.kind = .leftBrace) {bs : List Lexeme} (hbs : Closed .rightBrace (Forms .body) bs) :
    Forms .stmt (word :: opening :: (cs ++ opened :: bs)) := by
  obtain ⟨inner, closing, rfl, hclosing, condition, hcondition⟩ := hcs
  obtain ⟨body, closed, rfl, hclosed, b, hd⟩ := hbs
  exact ⟨_, by simpa using Derives.branch hword hopening hclosing hopened hclosed hcondition hd⟩

theorem Forms.branchElse {word opening : Lexeme} (hword : word.kind = .ifWord)
    (hopening : opening.kind = .leftParen) {cs : List Lexeme}
    (hcs : Closed .rightParen (Forms (.expr .equality)) cs) {opened : Lexeme}
    (hopened : opened.kind = .leftBrace) {bs : List Lexeme} (hbs : Closed .rightBrace (Forms .body) bs)
    {otherwise reopened : Lexeme} (hotherwise : otherwise.kind = .elseWord)
    (hreopened : reopened.kind = .leftBrace) {as : List Lexeme}
    (has : Closed .rightBrace (Forms .body) as) :
    Forms .stmt (word :: opening :: (cs ++ opened :: (bs ++ otherwise :: reopened :: as))) := by
  obtain ⟨inner, closing, rfl, hclosing, condition, hcondition⟩ := hcs
  obtain ⟨body, closed, rfl, hclosed, b, hd⟩ := hbs
  obtain ⟨body', reclosed, rfl, hreclosed, b', hd'⟩ := has
  have := Derives.branchElse hword hopening hclosing hopened hclosed hotherwise hreopened hreclosed
    hcondition hd hd'
  exact ⟨_, by simpa using this⟩

theorem Forms.bind {word name sign : Lexeme} (hword : word.kind = .letWord)
    (hname : name.kind = .identifier) (hsign : sign.kind = .assign) {vs : List Lexeme}
    (h : Forms (.expr .equality) vs) : Forms .stmt (word :: name :: sign :: vs) :=
  ⟨_, .bind hword hname hsign h.choose_spec⟩

theorem Forms.statement {s : Stmt} {ls semicolons rest : List Lexeme} (hs : Derives (.stmt s) ls)
    (hsemicolons : ∀ l ∈ semicolons, l.kind = .semicolon) (h : Forms .body rest)
    (hstop : endsInExpression s = true → ∀ l ∈ (semicolons ++ rest).head?, continues l.kind = false) :
    Forms .body (ls ++ semicolons ++ rest) := by
  obtain ⟨_, hd⟩ := h
  cases hd with
  | empty => exact ⟨_, .statement hs hsemicolons .empty hstop⟩
  | statement hs' hsemicolons' hd' hstop' =>
    exact ⟨_, .statement hs hsemicolons (.statement hs' hsemicolons' hd' hstop') hstop⟩

/-! ### First lexemes -/

theorem fresh_sample (tokens : List Token) : Fresh tokens [.sample .identifier] := by
  rintro _ ⟨⟩
  exact .inl rfl

theorem fresh_cons (token : Token) (tokens : List Token) (ls : List Lexeme) :
    Fresh (token :: tokens) (token.lexeme :: ls) := by
  rintro _ ⟨⟩
  exact .inr rfl

theorem fresh_append {front : List Token} (h : front ≠ []) (tokens : List Token) (ls : List Lexeme) :
    Fresh (front ++ tokens) (front.map Token.lexeme ++ ls) := by
  obtain ⟨token, front, rfl⟩ := List.exists_cons_of_ne_nil h
  exact fresh_cons _ _ _

variable {α ι : Type} {eof : Token} {rounds : Nat} {rounds' : ι → Nat}

theorem Passes.stands {tokens : List Token} {view : Lookahead} {P : List Lexeme → List Token → Prop}
    (h : Passes eof tokens view P) : Stands eof 1 tokens view P := by
  obtain ⟨passed, rest, last, htokens, hview, hP⟩ := h
  exact ⟨passed, rest, [last], htokens, rfl, hview, hP⟩

theorem exists_pred {n : Nat} {bound : ι → Nat} (h : ∀ i, n + 1 ≤ bound i) :
    ∃ pred : ι → Nat, bound = (fun i => pred i + 1) ∧ ∀ i, n ≤ pred i := by
  refine ⟨fun i => bound i - 1, funext fun i => ?_, fun i => Nat.le_sub_one_of_lt (h i)⟩
  exact (Nat.sub_add_cancel (Nat.le_trans (Nat.le_add_left 1 n) (h i))).symm

/-! ## Items between commas -/

structure JudgesItem (eof : Token) (rounds : Nat) (item : Parser α) (item' : ι → Parser α)
    (I : List Lexeme → Prop) : Prop where
  sound : SoundItem eof rounds item fun _ => I
  verdict {tokens : List Token} (last : Token) : Left rounds tokens →
    Verdict eof 1 item item' [last] tokens I

section Items

variable {item : Parser α} {item' : ι → Parser α}

theorem JudgesItem.stands (h : JudgesItem eof rounds item item' I) (last : Token) {tokens : List Token}
    (hleft : Left rounds tokens) (a : α) (view : Lookahead)
    (hrun : item.run (window eof ([last] ++ tokens)) = .ok (a, view)) :
    Stands eof 1 tokens view fun ls _ => I ls :=
  (h.sound last tokens a view (Nat.le_of_lt hleft.length) hrun).stands

theorem moreItems_trailing (heof : eof.kind = .eof) (h : JudgesItem eof rounds item item' I)
    (fuel : Nat) (last : Token) {tokens : List Token} (hleft : Left rounds tokens) (as : List α)
    (view : Lookahead) (hrun : (moreItems item fuel).run (window eof ([last] ++ tokens)) = .ok (as, view)) :
    Stands eof 1 tokens view fun ls _ => Trailing I ls := by
  refine (Passes.imp (moreItems_sound heof h.sound fuel last tokens as view
    (Nat.le_of_lt hleft.length) hrun) ?_).stands
  rintro ls - ⟨parts, -, hparts, hcommas⟩
  exact ⟨parts.map (·.2), List.forall_mem_map.mpr hparts, hcommas⟩

theorem verdict_moreItems (heof : eof.kind = .eof) (h : JudgesItem eof rounds item item' I)
    {fuel : Nat} {fuel' : ι → Nat} (hfuel : ∀ i, fuel ≤ fuel' i) (last : Token) {tokens : List Token}
    (hleft : Left rounds tokens) (hlength : tokens.length < fuel) :
    Verdict eof 1 (moreItems item fuel) (fun i => moreItems (item' i) (fuel' i)) [last] tokens
      (Trailing I) := by
  induction fuel generalizing fuel' last tokens with
  | zero => omega
  | succ fuel ih =>
    obtain ⟨fuel', rfl, hpred⟩ := exists_pred hfuel
    simp only [moreItems]
    refine .peek (.ite (fun hcomma => .advance ?_) fun _ => .pure [] rfl)
    rcases tokens with _ | ⟨comma, tokens⟩
    · simp [heof] at hcomma
    have hbehind : Left rounds tokens := hleft.tail
    refine .consume (.andThen heof hbehind (h.verdict comma hbehind) (h.stands comma hbehind) ?_ ?_)
    · intro ls hls
      exact .of ⟨[ls], by simpa using hls, fun first => .more hcomma (.one ls)⟩
    · rintro a front rest last rfl hrest hfront
      refine ((ih hpred last hrest (by simp at hlength; omega)).imp ?_).map _
      rintro ls ⟨parts, hparts, hcommas⟩
      exact .of ⟨front.map Token.lexeme :: parts, List.forall_mem_cons.mpr ⟨hfront, hparts⟩,
        fun first => .more hcomma (hcommas _)⟩

theorem items_closed (heof : eof.kind = .eof) (h : SoundItem eof rounds item fun _ => I)
    {close : TokenKind} (hclose : close ≠ .eof) (last : Token) {tokens : List Token}
    (hleft : Left rounds tokens) (as : List α) (view : Lookahead)
    (hrun : (items rounds item close).run (window eof ([last] ++ tokens)) = .ok (as, view)) :
    Stands eof 1 tokens view fun ls _ => Closed close (Listed I) ls := by
  refine (Passes.imp (items_sound heof hclose h (Nat.le_of_lt hleft.length) hrun) ?_).stands
  rintro ls - ⟨parts, inner, closing, hls, hclosing, -, hparts, hcommas⟩
  exact ⟨inner, closing, hls, hclosing, parts.map (·.2), List.forall_mem_map.mpr hparts, hcommas⟩

theorem verdict_items (heof : eof.kind = .eof) (h : JudgesItem eof rounds item item' I)
    (hrounds : ∀ i, rounds ≤ rounds' i) {close : TokenKind} (hclose : close ≠ .eof) (last : Token)
    {tokens : List Token} (hleft : Left rounds tokens) :
    Verdict eof 1 (items rounds item close) (fun i => items (rounds' i) (item' i) close) [last] tokens
      (Closed close (Listed I)) := by
  have hkinds : TokenKind.eof ∉ [close] := by simpa using hclose.symm
  simp only [items]
  refine .peek (.ite (fun hnext => .advance ?_) fun _ => ?_)
  · rcases tokens with _ | ⟨closing, tokens⟩
    · exact absurd (hnext.symm.trans heof) hclose
    · exact .consume (.pure [] rfl)
  refine .andThen heof hleft (h.verdict last hleft) (h.stands last hleft) ?_ ?_
  · intro ls hls
    exact ⟨[close], hkinds, ls, _, rfl, rfl, [ls], by simpa using hls, .one ls⟩
  rintro a front rest next rfl hrest hfront
  refine .andThen heof hrest (verdict_moreItems heof h hrounds next hrest hrest.length)
    (moreItems_trailing heof h rounds next hrest) ?_ ?_
  · rintro ls ⟨parts, hparts, hcommas⟩
    exact ⟨[close], hkinds, _, _, (List.append_assoc _ _ _).symm, rfl, _ :: parts,
      List.forall_mem_cons.mpr ⟨hfront, hparts⟩, hcommas _⟩
  rintro as front' rest' next' rfl hrest' ⟨parts, hparts, hcommas⟩
  refine .expect heof hclose (.of ⟨_, _, (List.append_assoc _ _ _).symm, rfl, _ :: parts,
    List.forall_mem_cons.mpr ⟨hfront, hparts⟩, hcommas _⟩) fun _ _ _ _ => .pure _ rfl

end Items

theorem ident_named (heof : eof.kind = .eof) : SoundItem eof rounds ident fun _ => Named :=
  fun before tokens name view hlength hrun =>
    (ident_sound heof before tokens name view hlength hrun).imp fun _ _ ⟨word, hkind, _, hls⟩ =>
      ⟨word, hkind, hls⟩

theorem judges_ident (heof : eof.kind = .eof) :
    JudgesItem eof rounds ident (fun _ : ι => ident) Named where
  sound := ident_named heof
  verdict _ _ := .expect heof (by decide) (.of ⟨_, rfl, rfl⟩) fun _ _ _ _ => .pure _ rfl

/-! ## Productions -/

structure JudgesExpression (eof : Token) (rounds : Nat) (expression : Precedence → Parser Expr)
    (expression' : ι → Precedence → Parser Expr) : Prop where
  sound : SoundExpression eof rounds expression
  verdict (precedence : Precedence) {tokens : List Token} : Left rounds tokens →
    Verdict eof 1 (expression precedence) (fun i => expression' i precedence) [] tokens fun ls =>
      Fresh tokens ls ∧ Forms (.expr precedence.stratum) ls

structure JudgesProgram (eof : Token) (rounds : Nat) (program : Parser Block)
    (program' : ι → Parser Block) :
    Prop where
  sound : SoundProgram eof rounds program
  verdict {tokens : List Token} : Left rounds tokens →
    Verdict eof 0 program program' [] tokens (Forms .body)

theorem JudgesProgram.stands {program : Parser Block} {program' : ι → Parser Block}
    (h : JudgesProgram eof rounds program program')
    {tokens : List Token} (hleft : Left rounds tokens) (body : Block) (view : Lookahead)
    (hrun : program.run (window eof ([] ++ tokens)) = .ok (body, view)) :
    Stands eof 0 tokens view fun ls _ => Forms .body ls := by
  obtain ⟨passed, rest, htokens, hview, hd⟩ :=
    h.sound tokens body view (Nat.le_of_lt hleft.length) hrun
  exact ⟨passed, rest, [], htokens, rfl, hview, _, hd⟩

section Productions

variable {expression : Precedence → Parser Expr} {expression' : ι → Precedence → Parser Expr}
  {program : Parser Block} {program' : ι → Parser Block} (heof : eof.kind = .eof)

theorem JudgesExpression.next (hE : JudgesExpression eof rounds expression expression') :
    JudgesItem eof rounds (nextExpression expression) (fun i => nextExpression (expression' i))
      (Forms (.expr .equality)) where
  sound before tokens e view hlength hrun :=
    (nextExpression_sound hE.sound before tokens e view hlength hrun).imp fun _ _ hd => ⟨_, hd⟩
  verdict _ hleft := .advance ((hE.verdict .lowest hleft).imp fun _ hls => .of hls.2)

include heof

theorem JudgesExpression.pair (hE : JudgesExpression eof rounds expression expression') :
    JudgesItem eof rounds (Parser.pair expression) (fun i => Parser.pair (expression' i))
      (Forms .pair) where
  sound before tokens entry view hlength hrun :=
    (pair_sound heof hE.sound before tokens entry view hlength hrun).imp fun _ _ hd => ⟨_, hd⟩
  verdict last hleft := by
    have hpair {ks vs : List Lexeme} {colon : Lexeme} (hk : Forms (.expr .equality) ks)
        (hcolon : colon.kind = .colon) (hv : Forms (.expr .equality) vs) :
        Forms .pair (ks ++ colon :: vs) :=
      ⟨_, .pair hk.choose_spec hcolon hv.choose_spec⟩
    refine .andThen heof hleft (hE.next.verdict last hleft) (hE.next.stands last hleft) ?_ ?_
    · exact fun ls hls => ⟨[.colon, .identifier], by decide, hpair hls rfl (forms_sample _)⟩
    rintro key ks rest last rfl hrest hks
    refine .expect heof (by decide) ⟨[.identifier], by decide, hpair hks rfl (forms_sample _)⟩ ?_
    rintro colon rest rfl hcolon
    have hbehind : Left rounds rest := hrest.tail
    exact ((hE.next.verdict colon hbehind).imp fun ls hls => .of (hpair hks hcolon hls)).map _

theorem JudgesProgram.block (hP : JudgesProgram eof rounds program program') :
    JudgesItem eof rounds (Parser.block program) (fun i => Parser.block (program' i))
      (Closed .rightBrace (Forms .body)) where
  sound opened tokens body view hlength hrun :=
    (block_sound heof hP.sound hlength hrun).imp fun _ _ ⟨inner, closed, hls, hclosed, hd⟩ =>
      ⟨inner, closed, hls, hclosed, _, hd⟩
  verdict last hleft := by
    refine .advance (.bind heof hleft (Nat.zero_le 1) (hP.verdict hleft) (hP.stands hleft) ?_ ?_)
    · exact fun ls hls => ⟨[.rightBrace], by decide, ls, _, rfl, rfl, hls⟩
    rintro body front rest seen rfl hseen hrest hbody
    obtain rfl := List.length_eq_zero_iff.mp hseen
    refine .current (.ite (fun hclosed => ?_) fun _ => .unexpected (by decide) ?_ rfl)
    · rcases rest with _ | ⟨closed, rest⟩
      · simp [heof] at hclosed
      · exact .consume (.pure body rfl)
    · exact .of ⟨_, _, rfl, rfl, hbody⟩

omit heof in
theorem verdict_integer {token : Token} {tokens : List Token} {L : List Lexeme → Prop}
    (hL : Viable L [.sample .integer]) :
    Verdict eof 1 (integer token) (fun _ : ι => integer token) [] (token :: tokens) L := by
  unfold integer
  refine .ite (fun _ => .throw (by simp)) fun _ => ?_
  exact .ite (fun _ => .unexpected (by decide) hL rfl) fun _ => .consume (.pure _ rfl)

theorem verdict_function (hP : JudgesProgram eof rounds program program')
    (hrounds : ∀ i, rounds ≤ rounds' i)
    {word : Token} (hword : word.kind = .fnWord) {tokens : List Token} (hleft : Left rounds tokens)
    {L : List Lexeme → Prop} (hL : ∀ {ls}, Forms (.expr .atom) (word.lexeme :: ls) → L ls) :
    Verdict eof 1
      (do
        let _ ← expect .leftParen
        let params ← items rounds ident .rightParen
        let _ ← expect .leftBrace
        return Expr.function word.span params (← Parser.block program))
      (fun i => do
        let _ ← expect .leftParen
        let params ← items (rounds' i) ident .rightParen
        let _ ← expect .leftBrace
        return Expr.function word.span params (← Parser.block (program' i))) [word] tokens L := by
  have hempty : Closed .rightBrace (Forms .body) [.sample .rightBrace] := ⟨[], _, rfl, rfl, _, .empty⟩
  have hnone : Closed .rightParen (Listed Named) [.sample .rightParen] :=
    ⟨[], _, rfl, rfl, [], by simp, .none⟩
  refine .expect heof (by decide) ⟨[.rightParen, .leftBrace, .rightBrace], by decide,
    hL (.function hword rfl hnone rfl hempty)⟩ ?_
  rintro opening rest rfl hopening
  have hrest : Left rounds rest := hleft.tail
  refine .andThen heof hrest (verdict_items heof (judges_ident heof) hrounds (by decide) opening hrest)
    (items_closed heof (ident_named heof) (by decide) opening hrest) ?_ ?_
  · exact fun ps hps => ⟨[.leftBrace, .rightBrace], by decide,
      hL (.function hword hopening hps rfl hempty)⟩
  rintro params front rest last rfl hrest' hparams
  refine .expect heof (by decide) ⟨[.rightBrace], by decide,
    hL (.function hword hopening hparams rfl hempty)⟩ ?_
  rintro opened rest rfl hopened
  refine (((hP.block heof).verdict opened hrest'.tail).imp fun bs hbs => .of ?_).map _
  exact hL (.function hword hopening hparams hopened hbs)

theorem verdict_operand (hE : JudgesExpression eof rounds expression expression')
    (hP : JudgesProgram eof rounds program program') (hrounds : ∀ i, rounds ≤ rounds' i)
    {tokens : List Token}
    (hleft : Left rounds tokens) :
    Verdict eof 1 (operand rounds expression program)
      (fun i => operand (rounds' i) (expression' i) (program' i)) [] tokens fun ls =>
        Fresh tokens ls ∧ ∃ stratum : Stratum, Stratum.unary.level ≤ stratum.level ∧
        Forms (.expr stratum) ls := by
  refine .current ?_
  have hname : ∀ tokens, Fresh tokens [Lexeme.sample .identifier] ∧ ∃ stratum : Stratum,
      Stratum.unary.level ≤ stratum.level ∧ Forms (.expr stratum) [.sample .identifier] :=
    fun tokens => ⟨fresh_sample tokens, .atom, by decide, forms_sample .atom⟩
  rcases tokens with _ | ⟨token, tokens⟩
  · rw [List.headD_nil, heof]
    exact .unexpected (by decide) (.of (hname [])) rfl
  rw [List.headD_cons]
  have hrest : Left rounds tokens := hleft.tail
  -- But for signs, what an operand begins with makes it an atom.
  have hatom {ls : List Lexeme} (h : Forms (.expr .atom) (token.lexeme :: ls)) :
      Fresh (token :: tokens) (token.lexeme :: ls) ∧ ∃ stratum : Stratum,
        Stratum.unary.level ≤ stratum.level ∧ Forms (.expr stratum) (token.lexeme :: ls) :=
    ⟨fresh_cons _ _ _, .atom, by decide, h⟩
  split
  case h_2 =>
    refine verdict_integer (.of ⟨?_, .atom, by decide, _, .integer rfl (by decide) rfl (by decide)⟩)
    rintro _ ⟨⟩
    exact .inl rfl
  case h_6 hkind | h_7 hkind =>
    refine .consume (.advance (((hE.verdict .unary hrest).imp ?_).map _))
    rintro ls ⟨-, e, hd⟩
    have hsign := congrArg unary? hkind
    exact .of ⟨fresh_cons _ _ _, .unary, by decide, _, .unary hsign hd⟩
  case h_8 hkind =>
    have hgroup {ls : List Lexeme} (h : Closed .rightParen (Forms (.expr .equality)) ls) :=
      hatom (.group hkind h)
    refine .consume (.andThen heof hrest (hE.next.verdict token hrest) (hE.next.stands token hrest) ?_ ?_)
    · exact fun ls hls => ⟨[.rightParen], by decide, hgroup ⟨ls, _, rfl, rfl, hls⟩⟩
    · rintro e front rest last rfl hrest' hfront
      refine .expect heof (by decide) (.of (hgroup ⟨_, _, rfl, rfl, hfront⟩)) fun _ _ _ _ => .pure _ rfl
  case h_9 hkind => exact .consume (verdict_function heof hP hrounds hkind hrest hatom)
  case h_10 hkind =>
    exact .consume (((verdict_items heof hE.next hrounds (by decide) token hrest).imp
      fun ls hls => .of (hatom (.array hkind hls))).map _)
  case h_11 hkind =>
    exact .consume (((verdict_items heof (hE.pair heof) hrounds (by decide) token hrest).imp
      fun ls hls => .of (hatom (.hash hkind hls))).map _)
  case h_12 => exact .unexpected (by decide) (.of (hname _)) rfl
  all_goals exact .consume (.pure _ rfl)

theorem verdict_suffix (hE : JudgesExpression eof rounds expression expression')
    (hrounds : ∀ i, rounds ≤ rounds' i) {sign : Token} {tokens : List Token} (hleft : Left rounds tokens)
    {next : Suffix} (hnext : Suffix.ofKind? sign.kind = some next) (left : Expr) {stratum : Stratum}
    (hle : next.precedence.rank ≤ stratum.precedence.rank) {ls : List Lexeme}
    (hls : Forms (.expr stratum) ls) :
    Verdict eof 1 (suffix rounds expression left next)
      (fun i => suffix (rounds' i) (expression' i) left next) [sign] tokens fun rs =>
        ∃ outer : Stratum, next.precedence.rank ≤ outer.precedence.rank ∧
        Forms (.expr outer) (ls ++ sign.lexeme :: rs) := by
  have hsuffixed (h : Precedence.call.rank ≤ stratum.precedence.rank) : Forms (.expr .suffixed) ls :=
    hls.imp fun _ hd => hd.loosen (level_suffixed_le h)
  rcases Suffix.ofKind?_cases hnext with ⟨outer, operator, hsign, rfl⟩ | ⟨hsign, rfl⟩ | ⟨hsign, rfl⟩
  · refine .current_seen (.advance (((hE.verdict _ hleft).imp ?_).map _))
    rintro rs ⟨-, right, hright⟩
    rw [stratum_of_binary hsign] at hright
    obtain ⟨e, hd⟩ := hls
    exact .of ⟨outer, Nat.le_refl _, _, .binary hsign (hd.loosen (level_le_of_binary hsign hle)) hright⟩
  · refine .current_seen (((verdict_items heof hE.next hrounds (by decide) sign hleft).imp ?_).map _)
    exact fun as has => .of ⟨.suffixed, by decide, (hsuffixed hle).call hsign has⟩
  · have hcallee := hsuffixed (Nat.le_trans (by decide) hle)
    refine .current_seen (.andThen heof hleft (hE.next.verdict sign hleft) (hE.next.stands sign hleft) ?_ ?_)
    · exact fun is his => ⟨[.rightBracket], by decide, .suffixed, by decide,
        hcallee.index hsign ⟨is, _, rfl, rfl, his⟩⟩
    · rintro index front rest last rfl hrest hfront
      exact .expect heof (by decide) (.of ⟨.suffixed, by decide,
        hcallee.index hsign ⟨_, _, rfl, rfl, hfront⟩⟩) fun _ _ _ _ => .pure _ rfl

theorem verdict_extend (hE : JudgesExpression eof rounds expression expression')
    (hrounds : ∀ i, rounds ≤ rounds' i) (precedence : Precedence) {fuel : Nat} {fuel' : ι → Nat}
    (hfuel : ∀ i, fuel ≤ fuel' i)
    {left : Expr} {stratum : Stratum} {ls : List Lexeme} (last : Token) {tokens : List Token}
    (hleft : Left rounds tokens) (hlength : tokens.length < fuel)
    (hlevel : precedence.stratum.level ≤ stratum.level) (hd : Derives (.expr stratum left.erase) ls)
    (settled : Settled stratum.precedence tokens) :
    Verdict eof 1 (extend rounds expression precedence fuel left)
      (fun i => extend (rounds' i) (expression' i) precedence (fuel' i) left) [last] tokens fun rs =>
        Forms (.expr precedence.stratum) (ls ++ rs) := by
  induction fuel generalizing fuel' left stratum ls last tokens with
  | zero => omega
  | succ fuel ih =>
    obtain ⟨fuel', rfl, hpred⟩ := exists_pred hfuel
    simp only [extend]
    refine .peek ?_
    split
    next => exact .pure left rfl
    next next hnext =>
      refine .ite (fun hlt => .advance ?_) fun _ => .pure left rfl
      rcases tokens with _ | ⟨sign, tokens⟩
      · rw [List.headD_nil, heof] at hnext
        cases hnext
      have hbehind : Left rounds tokens := hleft.tail
      have hle := settled sign rfl next hnext
      refine .consume (.andThen heof hbehind (verdict_suffix heof hE hrounds hbehind hnext left hle ⟨_, hd⟩)
        (K := fun e rs rest => ∃ outer : Stratum, next.precedence.rank ≤ outer.precedence.rank ∧
          Derives (.expr outer e.erase) (ls ++ sign.lexeme :: rs) ∧ Settled outer.precedence rest)
        ?_ ?_ ?_)
      · intro e view hrun
        obtain ⟨outer, houter, hpasses⟩ :=
          suffix_sound heof hE.sound (Nat.le_of_lt hbehind.length) hnext hle hd hrun
        exact (hpasses.imp fun rs rest h => ⟨outer, houter, h⟩).stands
      · rintro rs ⟨outer, houter, e, he⟩
        exact .of ⟨e, he.loosen (Precedence.level_stratum_le_of_lt (Nat.lt_of_lt_of_le hlt houter))⟩
      · rintro e front rest last rfl hrest ⟨outer, houter, he, hsettled⟩
        refine (ih hpred last hrest (by simp at hlength; omega)
          (Precedence.level_stratum_le_of_lt (Nat.lt_of_lt_of_le hlt houter)) he hsettled).imp ?_
        exact fun rs hrs => .of (by simpa using hrs)

theorem verdict_branch (hE : JudgesExpression eof rounds expression expression')
    (hP : JudgesProgram eof rounds program program') {word : Token} (hword : word.kind = .ifWord)
    {tokens : List Token} (hleft : Left rounds tokens) {L : List Lexeme → Prop}
    (hL : ∀ {ls}, Forms .stmt (word.lexeme :: ls) → L ls) :
    Verdict eof 1 (branch expression program) (fun i => branch (expression' i) (program' i)) [word] tokens
      L := by
  have hempty : Closed .rightBrace (Forms .body) [.sample .rightBrace] := ⟨[], _, rfl, rfl, _, .empty⟩
  have hname : Closed .rightParen (Forms (.expr .equality)) [.sample .identifier, .sample .rightParen] :=
    ⟨[_], _, rfl, rfl, forms_sample _⟩
  have hblock := hP.block heof
  refine .current_seen (.expect heof (by decide) ⟨[.identifier, .rightParen, .leftBrace, .rightBrace],
    by decide, hL (.branch hword rfl hname rfl hempty)⟩ ?_)
  rintro opening rest rfl hopening
  have hrest : Left rounds rest := hleft.tail
  refine .andThen heof hrest (hE.next.verdict opening hrest) (hE.next.stands opening hrest) ?_ ?_
  · exact fun cs hcs => ⟨[.rightParen, .leftBrace, .rightBrace], by decide,
      by simpa using hL (.branch hword hopening ⟨cs, .sample .rightParen, rfl, rfl, hcs⟩ rfl hempty)⟩
  rintro condition front rest last rfl hrest hcs
  refine .expect heof (by decide) ⟨[.leftBrace, .rightBrace], by decide,
    by simpa using hL (.branch hword hopening ⟨_, .sample .rightParen, rfl, rfl, hcs⟩ rfl hempty)⟩ ?_
  rintro closing rest rfl hclosing
  have hcs' : Closed .rightParen (Forms (.expr .equality)) (front.map Token.lexeme ++ [closing.lexeme]) :=
    ⟨_, _, rfl, hclosing, hcs⟩
  refine .expect heof (by decide) ⟨[.rightBrace], by decide,
    by simpa using hL (.branch hword hopening hcs' rfl hempty)⟩ ?_
  rintro opened rest rfl hopened
  have hrest : Left rounds rest := hrest.tail.tail
  refine .andThen heof hrest (hblock.verdict opened hrest) (hblock.stands opened hrest) ?_ ?_
  · exact fun bs hbs => .of (by simpa using hL (.branch hword hopening hcs' hopened hbs))
  rintro consequence front' rest last rfl hrest hbs
  refine .peek (.ite (fun helse => .advance ?_) fun _ => .pure _ rfl)
  rcases rest with _ | ⟨otherwise, rest⟩
  · simp [heof] at helse
  refine .consume (.expect heof (by decide) ⟨[.rightBrace], by decide,
    by simpa using hL (.branchElse hword hopening hcs' hopened hbs helse rfl hempty)⟩ ?_)
  rintro reopened rest rfl hreopened
  refine ((hblock.verdict reopened hrest.tail.tail).imp fun as has => .of ?_).map _
  simpa using hL (.branchElse hword hopening hcs' hopened hbs helse hreopened has)

theorem verdict_bind (hE : JudgesExpression eof rounds expression expression') {word : Token}
    (hword : word.kind = .letWord) {tokens : List Token} (hleft : Left rounds tokens)
    {L : List Lexeme → Prop} (hL : ∀ {ls}, Forms .stmt (word.lexeme :: ls) → L ls) :
    Verdict eof 1
      (do
        let name ← ident
        let _ ← expect .assign
        return Stmt.bind word.span name (← nextExpression expression))
      (fun i => do
        let name ← ident
        let _ ← expect .assign
        return Stmt.bind word.span name (← nextExpression (expression' i))) [word] tokens L := by
  have hident : JudgesItem eof rounds ident (fun _ : ι => ident) Named := judges_ident heof
  refine .andThen heof hleft (hident.verdict word hleft) (hident.stands word hleft) ?_ ?_
  · rintro _ ⟨name, hname, rfl⟩
    exact ⟨[.assign, .identifier], by decide, hL (.bind hword hname rfl (forms_sample _))⟩
  rintro name front rest last rfl hrest ⟨l, hl, hfront⟩
  rw [hfront]
  refine .expect heof (by decide) ⟨[.identifier], by decide,
    hL (.bind hword hl rfl (forms_sample _))⟩ ?_
  rintro sign rest rfl hsign
  exact ((hE.next.verdict sign hrest.tail).imp fun vs hvs => .of (hL (.bind hword hl hsign hvs))).map _

theorem verdict_statement (hE : JudgesExpression eof rounds expression expression')
    (hP : JudgesProgram eof rounds program program') {tokens : List Token} (hleft : Left rounds tokens) :
    Verdict eof 1 (statement expression program)
      (fun i => statement (expression' i) (program' i)) [] tokens fun ls =>
        Fresh tokens ls ∧ Forms .stmt ls := by
  refine .current ?_
  split
  case h_4 =>
    refine ((hE.verdict .lowest hleft).imp ?_).map _
    rintro ls ⟨hfresh, e, hd⟩
    exact .of ⟨hfresh, _, .expr hd⟩
  all_goals
    rcases tokens with _ | ⟨word, tokens⟩
    · simp_all
    have hstmt {ls : List Lexeme} (h : Forms .stmt (word.lexeme :: ls)) :
        Fresh (word :: tokens) (word.lexeme :: ls) ∧ Forms .stmt (word.lexeme :: ls) :=
      ⟨fresh_cons _ _ _, h⟩
    rename_i hword
    refine .consume ?_
  case h_1 => exact verdict_bind heof hE hword hleft.tail hstmt
  case h_2 =>
    refine ((hE.next.verdict word hleft.tail).imp ?_).map _
    rintro ls ⟨e, hd⟩
    exact .of (hstmt ⟨_, .ret hword hd⟩)
  case h_3 => exact verdict_branch heof hE hP hword hleft.tail hstmt

end Productions

/-! ## Blocks -/

theorem verdict_skipSemicolons (heof : eof.kind = .eof) {fuel : Nat} {fuel' : ι → Nat}
    (hfuel : ∀ i, fuel ≤ fuel' i)
    {tokens : List Token} (hlength : tokens.length < fuel) {L : List Lexeme → Prop} :
    Verdict eof 0 (skipSemicolons fuel) (fun i => skipSemicolons (fuel' i)) [] tokens L := by
  induction fuel generalizing fuel' tokens L with
  | zero => omega
  | succ fuel ih =>
    obtain ⟨fuel', rfl, hpred⟩ := exists_pred hfuel
    simp only [skipSemicolons]
    refine .current (.ite (fun hnext => ?_) fun _ => .pure () rfl)
    rcases tokens with _ | ⟨semicolon, tokens⟩
    · simp [heof] at hnext
    · exact .consume (.advance (ih hpred (by simpa using hlength)))

theorem skipSemicolons_stands (heof : eof.kind = .eof) (fuel : Nat) (tokens : List Token) (u : Unit)
    (view : Lookahead) (hrun : (skipSemicolons fuel).run (window eof ([] ++ tokens)) = .ok (u, view)) :
    Stands eof 0 tokens view fun ls _ => ∀ l ∈ ls, l.kind = .semicolon := by
  obtain ⟨semicolons, rest, htokens, hview, hall⟩ := skipSemicolons_takes heof hrun
  exact ⟨semicolons, rest, [], htokens, rfl, hview, List.forall_mem_map.mpr hall⟩

theorem Fresh.stops {semicolons rest : List Token} (settled : Settled .lowest (semicolons ++ rest))
    {ls : List Lexeme} (h : Fresh rest ls)
    (hsemicolons : ∀ l ∈ semicolons.map Token.lexeme, l.kind = .semicolon) :
    ∀ l ∈ (semicolons.map Token.lexeme ++ ls).head?, continues l.kind = false := by
  rcases semicolons with _ | ⟨semicolon, semicolons⟩
  · intro l mem
    rcases h l mem with h | h
    · exact h
    · rw [List.head?_map, Option.mem_def, Option.map_eq_some_iff] at h
      obtain ⟨token, htoken, rfl⟩ := h
      exact settled_lowest_iff.mp settled token htoken
  · rintro _ ⟨⟩
    rw [hsemicolons semicolon.lexeme (by simp)]
    rfl

theorem verdict_statements (heof : eof.kind = .eof) {statement : Parser Stmt}
    {statement' : ι → Parser Stmt}
    (hsound : ∀ tokens s view, tokens.length ≤ rounds →
      statement.run (window eof tokens) = .ok (s, view) →
      Passes eof tokens view fun ls rest =>
        Derives (.stmt s.erase) ls ∧ (endsInExpression s = true → Settled .lowest rest))
    (hS : ∀ {tokens}, Left rounds tokens → Verdict eof 1 statement statement' [] tokens fun ls =>
      Fresh tokens ls ∧ Forms .stmt ls)
    {fuel : Nat} {fuel' : ι → Nat} (hfuel : ∀ i, fuel ≤ fuel' i) {tokens : List Token}
    (hleft : Left rounds tokens)
    (hlength : tokens.length < fuel) :
    Verdict eof 0 (statements statement fuel) (fun i => statements (statement' i) (fuel' i)) []
      tokens fun ls => Fresh tokens ls ∧ Forms .body ls := by
  induction fuel generalizing fuel' tokens with
  | zero => omega
  | succ fuel ih =>
    obtain ⟨fuel', rfl, hpred⟩ := exists_pred hfuel
    simp only [statements]
    refine .current (.ite (fun _ => .pure [] rfl) fun _ => ?_)
    refine .andThen heof hleft (hS hleft)
      (fun s view hrun => (hsound _ s view (Nat.le_of_lt hleft.length) hrun).stands) ?_ ?_
    · rintro ls ⟨hfresh, s, hd⟩
      refine .of ⟨hfresh, ?_⟩
      have := Forms.statement hd (List.forall_mem_nil _) ⟨_, .empty⟩ (by simp)
      simpa using this
    rintro s front rest last rfl hrest ⟨hd, hsettled⟩
    -- A statement takes a token at least, so the fuel is enough for what it leaves.
    have hfront : front ≠ [] := by
      obtain ⟨l, ls, hls, -⟩ := hd.begins
      rintro rfl
      cases hls
    have hshort : rest.length < fuel := by
      have := List.length_pos_iff.mpr hfront
      simp at hlength
      omega
    refine .advance (.bind heof hrest (Nat.zero_le 1) (verdict_skipSemicolons heof hpred hshort)
      (skipSemicolons_stands heof fuel rest) (L := fun _ => False) (fun _ h => h.elim) ?_)
    rintro ⟨⟩ semicolons rest seen rfl hseen hrest' hsemicolons
    obtain rfl := List.length_eq_zero_iff.mp hseen
    refine ((ih hpred hrest' (by simp at hshort; omega)).imp ?_).map _
    rintro ls ⟨hfresh, hbody⟩
    refine .of ⟨fresh_append hfront _ _, ?_⟩
    rw [← List.append_assoc]
    refine .statement hd hsemicolons hbody fun hends => ?_
    rw [endsInExpression_erase] at hends
    exact hfresh.stops (hsettled hends) hsemicolons

/-! ## Nesting -/

theorem judges_within (heof : eof.kind = .eof) (hrounds : ∀ i, rounds ≤ rounds' i) {depth : Nat}
    {depth' : ι → Nat} (hdepth : ∀ i, depth ≤ depth' i) :
    JudgesExpression eof rounds (expressionWithin rounds depth)
        (fun i => expressionWithin (rounds' i) (depth' i)) ∧
      JudgesProgram eof rounds (programWithin rounds depth)
        (fun i => programWithin (rounds' i) (depth' i)) := by
  induction depth generalizing depth' with
  | zero =>
    obtain ⟨hE, hP⟩ := sound_within heof rounds 0
    refine ⟨⟨hE, fun precedence {tokens} _ => ?_⟩, ⟨hP, fun {tokens} _ => ?_⟩⟩
    · rw [expressionWithin]
      exact .nestingTooDeep
    · rw [programWithin]
      exact .nestingTooDeep
  | succ depth ih =>
    obtain ⟨depth', rfl, hpred⟩ := exists_pred hdepth
    obtain ⟨hE, hP⟩ := ih hpred
    obtain ⟨sE, sP⟩ := sound_within heof rounds (depth + 1)
    refine ⟨⟨sE, fun precedence {tokens} hleft => ?_⟩, ⟨sP, fun {tokens} hleft => ?_⟩⟩
    · simp only [expressionWithin]
      refine .andThen heof hleft (verdict_operand heof hE hP hrounds hleft)
        (K := fun e ls rest => ∃ stratum : Stratum, Stratum.unary.level ≤ stratum.level ∧
          Derives (.expr stratum e.erase) ls ∧ Settled stratum.precedence rest) ?_ ?_ ?_
      · intro e view hrun
        obtain ⟨stratum, hstratum, hpasses⟩ :=
          operand_sound heof hE.sound hP.sound (Nat.le_of_lt hleft.length) hrun
        exact (hpasses.imp fun ls rest h => ⟨stratum, hstratum, h⟩).stands
      · rintro ls ⟨hfresh, stratum, hstratum, e, hd⟩
        exact .of ⟨hfresh, e, hd.loosen (Nat.le_trans precedence.level_stratum_le hstratum)⟩
      · rintro e front rest last rfl hrest ⟨stratum, hstratum, hd, hsettled⟩
        have hfront : front ≠ [] := by
          obtain ⟨l, ls, hls, -⟩ := hd.begins
          rintro rfl
          cases hls
        refine (verdict_extend heof hE hrounds precedence hrounds last hrest hrest.length
          (Nat.le_trans precedence.level_stratum_le hstratum) hd hsettled).imp ?_
        exact fun rs hrs => .of ⟨fresh_append hfront _ _, hrs⟩
    · simp only [programWithin]
      refine .current (((verdict_statements heof (fun _ _ _ => statement_sound heof hE.sound hP.sound)
        (fun hleft => verdict_statement heof hE hP hleft) hrounds hleft hleft.length).imp ?_).map _)
      exact fun ls hls => .of hls.2

theorem programWithin_of_forms (heof : eof.kind = .eof) {tokens : List Token}
    (h : Forms .body (tokens.map Token.lexeme)) {depth : Nat} (hrounds : tokens.length ≤ rounds)
    (hdepth : tokens.length ≤ depth) :
    ∃ body, (programWithin rounds (depth + 2)).run (window eof tokens) = .ok (body, window eof []) := by
  obtain ⟨b, hd⟩ := h
  obtain ⟨ss, -, hrun⟩ := complete heof hd tokens [] rounds depth rounds rfl (by simp [endsBlock, heof])
    hrounds (by simpa using hrounds) (by simpa using hdepth)
  rw [List.append_nil] at hrun
  rw [programWithin, run_current_bind, run_bind_of hrun]
  exact ⟨_, rfl⟩

/-- The tokens in front of an unexpected one go on to a program with what was expected, or are one if
that is the end of input, and go on to none with the token that was found. -/
theorem parseStream_blames (heof : eof.kind = .eof) {tokens : List Token}
    (hfree : ∀ token ∈ tokens, token.kind ≠ .eof) {depth : Nat} {expected : Expectation} {found : Token}
    (h : parseStream depth ⟨tokens, .ok eof⟩ = .error (.unexpected expected found)) :
    ∃ front rest, tokens = front ++ rest ∧ found = rest.headD eof ∧
      (expected = .token .eof ∧ Forms .body (front.map Token.lexeme) ∨
        expected ≠ .token .eof ∧ Viable (Forms .body) (front.map Token.lexeme ++ [expected.sample])) ∧
      ∀ rest', rest'.headD eof = found → ¬ Forms .body ((front ++ rest').map Token.lexeme) := by
  have hleft : Left (tokens.length + 1) tokens := ⟨Nat.lt_succ_self _, hfree⟩
  obtain ⟨-, hP⟩ := judges_within heof (fun i => Nat.le_add_right (tokens.length + 1) i)
    (fun i => Nat.le_add_right depth i)
  have hverdict := hP.verdict hleft
  simp only [parseStream, start_eq_window, bind, Except.bind] at h
  split at h
  next error hrun =>
    cases h
    obtain ⟨front, rest, htokens, hfound, hexpected, hviable, hrefuses⟩ := hverdict.refuses hrun
    refine ⟨front, rest, htokens, hfound, .inr ⟨hexpected, hviable⟩, fun rest' hnext hforms => ?_⟩
    obtain ⟨body, hbody⟩ := programWithin_of_forms heof hforms
      (show _ ≤ tokens.length + 1 + ((front ++ rest').length + 2) by omega)
      (show _ ≤ depth + (front ++ rest').length by omega)
    exact hrefuses _ rest' (hnext.trans hfound) _ hbody
  next result hrun =>
    obtain ⟨body, view⟩ := result
    obtain ⟨front, rest, seen, htokens, hseen, rfl, hbody, hreads⟩ :=
      hverdict.reads_stands heof hleft (Nat.zero_le 1) hrun (hP.stands hleft body view hrun)
    obtain rfl := List.length_eq_zero_iff.mp hseen
    simp only at h
    split at h
    next => cases h
    next hkind =>
      cases h
      refine ⟨front, rest, htokens, rfl, .inl ⟨rfl, hbody⟩, fun rest' hnext hforms => ?_⟩
      obtain ⟨body', hbody'⟩ := programWithin_of_forms heof hforms
        (show _ ≤ tokens.length + 1 + ((front ++ rest').length + 2) by omega)
        (show _ ≤ depth + (front ++ rest').length by omega)
      have hview := congrArg (Except.map (·.2.current))
        ((hreads ((front ++ rest').length + 2) rest' hnext).symm.trans hbody')
      have hend : rest'.headD eof = eof := Except.ok.inj hview
      exact hkind ((congrArg Token.kind (hnext.symm.trans hend)).trans heof)

end MonkeyLang.Parser
