import MonkeyLang.Proofs.Ast.Carrying
import MonkeyLang.Proofs.Ast.Recognition
import MonkeyLang.Proofs.Token.Joining

namespace MonkeyLang.Parser

variable {α β γ : Type}

def Stops (p : Parser α) : Prop :=
  ∀ view a next, p.run view = .ok (a, next) → next.current.kind ≠ .eof

def Keeps (p : Parser α) : Prop :=
  ∀ view a next, p.run view = .ok (a, next) → view.current.kind ≠ .eof → next.current.kind ≠ .eof

theorem Stops.keeps {p : Parser α} (h : Stops p) : Keeps p :=
  fun view a next hrun _ => h view a next hrun

theorem Stops.behind {p : Parser α} {f : α → Parser β} (h : ∀ a, Stops (f a)) : Stops (p >>= f) := by
  intro view b next hrun
  obtain ⟨a, between, -, hf⟩ := run_bind_ok.mp hrun
  exact h a between b next hf

theorem Stops.bind {p : Parser α} {f : α → Parser β} (h : Stops p) (hf : ∀ a, Keeps (f a)) :
    Stops (p >>= f) := by
  intro view b next hrun
  obtain ⟨a, between, hp, hf'⟩ := run_bind_ok.mp hrun
  exact hf a between b next hf' (h view a between hp)

theorem Keeps.pure (a : α) : Keeps (Pure.pure a : Parser α) := by
  intro view b next hrun hkind
  obtain ⟨-, rfl⟩ := run_pure_ok.mp hrun
  exact hkind

theorem Keeps.ite {c : Prop} [Decidable c] {p q : Parser α} (hp : Keeps p) (hq : Keeps q) :
    Keeps (if c then p else q) := by
  split
  · exact hp
  · exact hq

theorem Keeps.peek {f : Token → Parser α} (h : ∀ token, Keeps (f token)) : Keeps (Parser.peek >>= f) :=
  fun view => h view.peek view

theorem stops_unexpected (expected : Expectation) (found : Token) :
    Stops (unexpected expected found : Parser α) :=
  fun _ _ _ hrun => absurd hrun run_unexpected_ne_ok

theorem stops_throw (error : ParseError) : Stops (throw error : Parser α) := by
  rintro _ _ _ ⟨⟩

theorem stops_nestingTooDeep : Stops (nestingTooDeep : Parser α) := by
  rintro _ _ _ ⟨⟩

theorem current_of_advance {view next : Lookahead} (h : advance.run view = .ok ((), next)) :
    next.current = view.peek := by
  rw [run_advance_eq] at h
  cases hpull : pull view.rest with
  | error error =>
    rw [hpull] at h
    cases h
  | ok result =>
    rw [hpull] at h
    cases h
    rfl

theorem stops_expect {kind : TokenKind} (hkind : kind ≠ .eof) : Stops (expect kind) := by
  intro view token next hrun
  rw [expect, run_peek_bind] at hrun
  split at hrun
  case isTrue h =>
    obtain ⟨⟨⟩, between, hadvance, hpure⟩ := run_bind_ok.mp hrun
    obtain ⟨-, rfl⟩ := run_pure_ok.mp hpure
    rw [current_of_advance hadvance, h]
    exact hkind
  case isFalse => exact absurd hrun run_unexpected_ne_ok

theorem stops_items {item : Parser α} {rounds : Nat} {close : TokenKind} (hclose : close ≠ .eof) :
    Stops (items rounds item close) := by
  intro view as next hrun
  rw [items, run_peek_bind] at hrun
  split at hrun
  case isTrue h =>
    obtain ⟨⟨⟩, between, hadvance, hpure⟩ := run_bind_ok.mp hrun
    obtain ⟨-, rfl⟩ := run_pure_ok.mp hpure
    rw [current_of_advance hadvance, h]
    exact hclose
  case isFalse =>
    have hstops : Stops (do
        let first ← item
        let more ← moreItems item rounds
        let _ ← expect close
        return first :: more) :=
      .behind fun _ => .behind fun _ => (stops_expect hclose).bind fun _ => .pure _
    exact hstops view as next hrun

theorem stops_block {program : Parser Block} : Stops (block program) := by
  refine .behind fun _ => .behind fun body => ?_
  intro view a next hrun
  rw [run_current_bind] at hrun
  split at hrun
  case isTrue h =>
    obtain ⟨-, rfl⟩ := run_pure_ok.mp hrun
    rw [h]
    decide
  case isFalse => exact absurd hrun run_unexpected_ne_ok

theorem keeps_integer (token : Token) : Keeps (integer token) := by
  refine .ite (stops_throw _).keeps ?_
  exact .ite (stops_unexpected _ _).keeps (.pure _)

section Productions

variable {rounds : Nat} {expression : Precedence → Parser Expr} {program : Parser Block}
  (he : ∀ precedence, Stops (expression precedence))
include he

theorem stops_operand : Stops (operand rounds expression program) := by
  intro view a next hrun
  rw [operand, run_current_bind] at hrun
  split at hrun
  -- A token that is an expression by itself stays in view.
  case h_1 hkind | h_3 hkind | h_4 hkind | h_5 hkind =>
    refine Keeps.pure _ view a next hrun ?_
    rw [hkind]
    decide
  case h_2 hkind =>
    refine keeps_integer _ view a next hrun ?_
    rw [hkind]
    decide
  case h_6 | h_7 =>
    refine Stops.behind (fun _ => ?_) view a next hrun
    exact (he .unary).bind fun _ => .pure _
  case h_8 =>
    refine Stops.behind (fun _ => ?_) view a next hrun
    exact (stops_expect (by decide)).bind fun _ => .pure _
  case h_9 =>
    refine Stops.behind (fun _ => ?_) view a next hrun
    exact .behind fun _ => .behind fun _ => stops_block.bind fun _ => .pure _
  case h_10 => exact Stops.bind (stops_items (by decide)) (fun _ => .pure _) view a next hrun
  case h_11 => exact Stops.bind (stops_items (by decide)) (fun _ => .pure _) view a next hrun
  case h_12 => exact absurd hrun run_unexpected_ne_ok

theorem stops_suffix (left : Expr) (next : Suffix) : Stops (suffix rounds expression left next) := by
  cases next with
  | operator operator precedence =>
    exact .behind fun _ => .behind fun _ => (he precedence).bind fun _ => .pure _
  | call => exact .behind fun _ => (stops_items (by decide)).bind fun _ => .pure _
  | index => exact .behind fun _ => .behind fun _ => (stops_expect (by decide)).bind fun _ => .pure _

theorem keeps_extend (precedence : Precedence) (fuel : Nat) (left : Expr) :
    Keeps (extend rounds expression precedence fuel left) := by
  induction fuel generalizing left with
  | zero => exact .pure _
  | succ fuel ih =>
    refine .peek fun token => ?_
    cases Suffix.ofKind? token.kind with
    | none => exact .pure _
    | some next => exact .ite (Stops.behind fun _ => (stops_suffix he left next).bind ih).keeps (.pure _)

theorem stops_statement : Stops (statement expression program) := by
  have hnext : Stops (nextExpression expression) := .behind fun _ => he .lowest
  refine .behind fun token => ?_
  split
  case h_1 => exact .behind fun _ => .behind fun _ => hnext.bind fun _ => .pure _
  case h_2 => exact hnext.bind fun _ => .pure _
  case h_3 =>
    refine .behind fun _ => .behind fun _ => .behind fun _ => .behind fun _ => .behind fun _ => ?_
    refine stops_block.bind fun _ => .peek fun _ => .ite (Stops.keeps ?_) (.pure _)
    exact .behind fun _ => .behind fun _ => stops_block.bind fun _ => .pure _
  case h_4 => exact (he .lowest).bind fun _ => .pure _

end Productions

theorem stops_within (rounds depth : Nat) (precedence : Precedence) :
    Stops (expressionWithin rounds depth precedence) := by
  induction depth generalizing precedence with
  | zero =>
    rw [expressionWithin]
    exact stops_nestingTooDeep
  | succ depth ih =>
    rw [expressionWithin]
    exact (stops_operand ih).bind fun left => keeps_extend ih precedence rounds left

def behindSemicolons (tokens : List Token) : List Token :=
  tokens.dropWhile (·.kind == .semicolon)

theorem behindSemicolons_length_le (tokens : List Token) :
    (behindSemicolons tokens).length ≤ tokens.length :=
  (List.dropWhile_suffix _).length_le

theorem Twins.behindSemicolons {ts us : List Token} (h : Twins ts us) :
    Twins (behindSemicolons ts) (behindSemicolons us) := by
  induction ts generalizing us with
  | nil =>
    obtain rfl := h.nil_iff.mp rfl
    exact h
  | cons t ts ih =>
    obtain ⟨u, us, rfl⟩ := List.exists_cons_of_ne_nil (mt h.nil_iff.mpr (List.cons_ne_nil t ts))
    obtain ⟨hhead, htail⟩ := List.cons.inj h
    unfold Parser.behindSemicolons
    rw [List.dropWhile_cons, List.dropWhile_cons, show t.kind = u.kind from congrArg Lexeme.kind hhead]
    split
    · exact ih htail
    · exact h

theorem behindSemicolons_append {us vs : List Token} {semicolon : Token}
    (hkind : semicolon.kind = .semicolon) (hvs : ∀ v ∈ vs.head?, v.kind ≠ .semicolon) :
    behindSemicolons (us ++ semicolon :: vs) =
      if (behindSemicolons us).isEmpty then vs else behindSemicolons us ++ semicolon :: vs := by
  have hnext : vs.dropWhile (·.kind == .semicolon) = vs := by
    cases vs with
    | nil => rfl
    | cons v vs => exact List.dropWhile_cons_of_neg (mt beq_iff_eq.mp (hvs v rfl))
  have hfirst : (semicolon :: vs).dropWhile (·.kind == .semicolon) = vs.dropWhile (·.kind == .semicolon) :=
    List.dropWhile_cons_of_pos (beq_iff_eq.mpr hkind)
  unfold behindSemicolons
  rw [List.dropWhile_append, hfirst, hnext]

theorem run_skipSemicolons {eof : Token} (heof : eof.kind = .eof) {rounds : Nat} {tokens : List Token}
    (h : tokens.length ≤ rounds) :
    (skipSemicolons rounds).run (window eof tokens) = .ok ((), window eof (behindSemicolons tokens)) := by
  induction rounds generalizing tokens with
  | zero =>
    obtain rfl := List.eq_nil_of_length_eq_zero (Nat.le_zero.mp h)
    rfl
  | succ rounds ih =>
    rw [skipSemicolons, run_current_bind]
    cases tokens with
    | nil => rw [current_window_nil, heof]; rfl
    | cons token tokens =>
      rw [current_window_cons, behindSemicolons, List.dropWhile_cons]
      by_cases hkind : token.kind = .semicolon
      · rw [if_pos hkind, if_pos (beq_iff_eq.mpr hkind), run_advance_bind, List.tail_cons]
        exact ih (Nat.le_of_succ_le_succ h)
      · rw [if_neg hkind, if_neg (mt beq_iff_eq.mp hkind)]
        rfl

theorem run_statements_nil {eof : Token} (heof : eof.kind = .eof) (statement : Parser Stmt) (fuel : Nat) :
    (statements statement fuel).run (window eof []) = .ok ([], window eof []) := by
  cases fuel with
  | zero => rfl
  | succ fuel =>
    have hends : endsBlock eof = true := by simp [endsBlock, heof]
    rw [statements, run_current_bind, current_window_nil, if_pos hends]
    rfl

theorem run_statements_cons {eof : Token} {statement : Parser Stmt} {fuel : Nat} {token : Token}
    {tokens : List Token} (hends : endsBlock token ≠ true) {ss : List Stmt} {view : Lookahead} :
    (statements statement (fuel + 1)).run (window eof (token :: tokens)) = .ok (ss, view) ↔
      ∃ first between rest, statement.run (window eof (token :: tokens)) = .ok (first, between) ∧
        (advance >>= fun _ => skipSemicolons fuel >>= fun _ => statements statement fuel).run between =
          .ok (rest, view) ∧ ss = first :: rest := by
  rw [statements, run_current_bind, current_window_cons, if_neg hends, run_bind_ok]
  constructor
  · rintro ⟨first, between, hfirst, hrun⟩
    obtain ⟨_, next, hadvance, hrun⟩ := run_bind_ok.mp hrun
    obtain ⟨_, skipped, hskip, hrun⟩ := run_bind_ok.mp hrun
    obtain ⟨rest, last, hrest, hpure⟩ := run_bind_ok.mp hrun
    obtain ⟨rfl, rfl⟩ := run_pure_ok.mp hpure
    refine ⟨first, between, rest, hfirst, ?_, rfl⟩
    exact run_bind_ok.mpr ⟨_, next, hadvance, run_bind_ok.mpr ⟨_, skipped, hskip, hrest⟩⟩
  · rintro ⟨first, between, rest, hfirst, hrun, rfl⟩
    obtain ⟨_, next, hadvance, hrun⟩ := run_bind_ok.mp hrun
    obtain ⟨_, skipped, hskip, hrest⟩ := run_bind_ok.mp hrun
    refine ⟨first, between, hfirst, run_bind_ok.mpr ⟨_, next, hadvance, ?_⟩⟩
    exact run_bind_ok.mpr ⟨_, skipped, hskip, run_bind_ok.mpr ⟨rest, view, hrest, rfl⟩⟩

theorem run_behind_statement {eof : Token} (heof : eof.kind = .eof) {statement : Parser Stmt} {fuel : Nat}
    {tokens : List Token} (h : tokens.tail.length ≤ fuel) :
    (advance >>= fun _ => skipSemicolons fuel >>= fun _ => statements statement fuel).run
        (window eof tokens) =
      (statements statement fuel).run (window eof (behindSemicolons tokens.tail)) := by
  rw [run_advance_bind, StateT.run_bind, run_skipSemicolons heof h]
  rfl

theorem statements_join {x : Onward} {rounds : Nat} {p q : Parser Stmt}
    (hcarries : x.Carries rounds p q fun s t => s.erase = t.erase) (hstops : Stops p)
    {semicolon : Token} {vs : List Token} (hmore : x.more = semicolon :: vs)
    (hvs : ∀ v ∈ vs.head?, v.kind ≠ .semicolon) {R : List Stmt → Lookahead → Prop}
    (hnext : ∀ fuel, vs.length < fuel → ∃ bs last,
      (statements q fuel).run (window x.eof' vs) = .ok (bs, last) ∧ R bs last)
    {fuel fuel' : Nat} (hfuel : fuel ≤ rounds) {ts us : List Token} (hne : ts ≠ [])
    (hlength : ts.length ≤ fuel) (hlength' : ts.length + vs.length < fuel') (htwins : Twins ts us)
    (hfree : ∀ t ∈ ts, t.kind ≠ .eof) {as : List Stmt} {view : Lookahead}
    (hrun : (statements p fuel).run (window x.eof ts) = .ok (as, view))
    (hview : view.current.kind = .eof) :
    ∃ as' bs last, (statements q fuel').run (window x.eof' (us ++ semicolon :: vs)) =
        .ok (as' ++ bs, last) ∧ as.map Stmt.erase = as'.map Stmt.erase ∧ R bs last := by
  have hkind : semicolon.kind = .semicolon := x.head semicolon (by rw [hmore]; rfl)
  induction fuel generalizing fuel' ts us as with
  | zero => exact absurd (List.eq_nil_of_length_eq_zero (Nat.le_zero.mp hlength)) hne
  | succ fuel ih =>
    obtain ⟨fuel', rfl⟩ : ∃ n, fuel' = n + 1 := ⟨fuel' - 1, by omega⟩
    obtain ⟨t, ts, rfl⟩ := List.exists_cons_of_ne_nil hne
    obtain ⟨u, us, rfl⟩ := List.exists_cons_of_ne_nil (mt htwins.nil_iff.mpr hne)
    have hhead : endsBlock t = endsBlock u := Onward.endsBlock_congr (List.cons.inj htwins).1
    by_cases hends : endsBlock t = true
    · -- The first program does not end in front of one of its tokens.
      rw [statements, run_current_bind, current_window_cons, if_pos hends] at hrun
      obtain ⟨-, rfl⟩ := run_pure_ok.mp hrun
      exact absurd hview (hfree t List.mem_cons_self)
    obtain ⟨first, between, rest, hp, hrest, rfl⟩ := (run_statements_cons hends).mp hrun
    obtain ⟨ts', us', first', rfl, hsuffix, htwins', hfirst, hq⟩ :=
      hcarries _ _ first between (Nat.le_trans hlength hfuel) htwins hp
    have hne' : ts' ≠ [] := by
      rintro rfl
      exact hstops _ _ _ hp x.kind
    have hshorter : ts'.tail.length ≤ ts.length := by
      rw [List.length_tail]
      exact Nat.sub_le_of_le_add hsuffix.length_le
    have hsame : us'.tail.length = ts'.tail.length := by
      simpa only [List.length_map] using (congrArg List.length htwins'.tail).symm
    rw [List.length_cons] at hlength hlength'
    rw [run_behind_statement x.kind (by omega)] at hrest
    -- Where the first program ends, the second one is read, and else there are statements left to join.
    obtain ⟨rest', bs, last, hrest', herase, hR⟩ : ∃ rest' bs last, (statements q fuel').run
        (window x.eof' (behindSemicolons (us'.tail ++ semicolon :: vs))) = .ok (rest' ++ bs, last) ∧
        rest.map Stmt.erase = rest'.map Stmt.erase ∧ R bs last := by
      rw [behindSemicolons_append hkind hvs]
      by_cases hlast : behindSemicolons ts'.tail = []
      · rw [htwins'.tail.behindSemicolons.nil_iff.mp hlast, if_pos List.isEmpty_nil]
        rw [hlast, run_statements_nil x.kind] at hrest
        obtain ⟨rfl, -⟩ := Prod.mk.inj (Except.ok.inj hrest)
        obtain ⟨bs, last, hbs, hR⟩ := hnext fuel' (by omega)
        exact ⟨[], bs, last, hbs, rfl, hR⟩
      · have hleft := mt htwins'.tail.behindSemicolons.nil_iff.mpr hlast
        rw [if_neg (mt List.isEmpty_iff.mp hleft)]
        have hbehind := behindSemicolons_length_le ts'.tail
        refine ih (Nat.le_of_succ_le hfuel) hlast (by omega) (by omega) htwins'.tail.behindSemicolons ?_ hrest
        intro token htoken
        exact hfree token (hsuffix.mem (List.mem_of_mem_tail ((List.dropWhile_suffix _).mem htoken)))
    refine ⟨first' :: rest', bs, last, ?_, ?_, hR⟩
    · have htail := Onward.tail_append htwins' (.inl hne' : ts' ≠ [] ∨ x.more = [])
      rw [hmore] at hq htail
      refine (run_statements_cons (hhead ▸ hends)).mpr ⟨first', _, rest' ++ bs, hq (.inl hne'), ?_, rfl⟩
      rw [run_behind_statement Onward.eof'_kind ?_, htail]
      · exact hrest'
      · rw [htail, List.length_append, List.length_cons]
        omega
    · rw [List.map_cons, List.map_cons, hfirst, herase]

def statementWithin (rounds depth : Nat) : Parser Stmt :=
  statement (expressionWithin rounds depth) (programWithin rounds depth)

theorem parseStream_ok {eof : Token} {depth : Nat} {tokens : List Token} {program : Block} :
    parseStream depth ⟨tokens, .ok eof⟩ = .ok program ↔
      ∃ view, (programWithin (tokens.length + 1) depth).run (window eof tokens) = .ok (program, view) ∧
        view.current.kind = .eof := by
  simp only [parseStream, start_eq_window, bind, Except.bind]
  cases (programWithin (tokens.length + 1) depth).run (window eof tokens) with
  | error error => simp
  | ok result =>
    obtain ⟨body, view⟩ := result
    simp only
    split
    case isTrue hview =>
      constructor
      · rintro ⟨⟩
        exact ⟨view, rfl, hview⟩
      · rintro ⟨_, ⟨⟩, -⟩
        rfl
    case isFalse hview =>
      constructor
      · rintro ⟨⟩
      · rintro ⟨_, ⟨⟩, h⟩
        exact absurd h hview

theorem run_programWithin_ok {eof : Token} {rounds depth : Nat} {tokens : List Token} {program : Block}
    {view : Lookahead} :
    (programWithin rounds depth).run (window eof tokens) = .ok (program, view) ↔
      ∃ nested body, depth = nested + 1 ∧ program = .mk (tokens.headD eof).span body ∧
        (statements (statementWithin rounds nested) rounds).run (window eof tokens) = .ok (body, view) := by
  cases depth with
  | zero =>
    rw [programWithin]
    constructor
    · intro hrun
      cases hrun
    · rintro ⟨_, _, hdepth, -⟩
      cases hdepth
  | succ nested =>
    rw [programWithin, run_current_bind, run_bind_ok]
    constructor
    · rintro ⟨body, _, hrun, hpure⟩
      obtain ⟨rfl, rfl⟩ := run_pure_ok.mp hpure
      exact ⟨nested, body, rfl, rfl, hrun⟩
    · rintro ⟨_, body, ⟨⟩, rfl, hrun⟩
      exact ⟨body, view, hrun, rfl⟩

theorem statements_twins {eof eof' : Token} (hlexeme : eof.lexeme = eof'.lexeme) (hkind : eof.kind = .eof)
    {depth rounds fuel : Nat} {vs ws : List Token} (htwins : Twins vs ws) (hrounds : vs.length < rounds)
    (hfuel : vs.length < fuel) {ss : List Stmt} {view : Lookahead}
    (hrun : (statements (statementWithin (vs.length + 1) depth) (vs.length + 1)).run (window eof vs) =
      .ok (ss, view)) :
    ∃ ss' last, (statements (statementWithin rounds depth) fuel).run (window eof' ws) = .ok (ss', last) ∧
      ss.map Stmt.erase = ss'.map Stmt.erase ∧ last.current.kind = view.current.kind := by
  let x : Onward := ⟨eof, eof', [], hlexeme, hkind, nofun⟩
  obtain ⟨he, hp⟩ := Onward.carries_within (x := x) (Nat.succ_le_of_lt hrounds) depth
  have hcarries := Onward.carries_statements (Nat.succ_le_of_lt hfuel) (Onward.carries_statement he hp)
  obtain ⟨vs', ws', ss', rfl, -, hrest, herase, hrun'⟩ :=
    hcarries vs ws ss view (Nat.le_succ _) htwins hrun
  have hhead := congrArg Lexeme.kind (Onward.head_twins (x := x) hrest (.inr rfl))
  specialize hrun' (.inr rfl)
  rw [List.append_nil] at hrun'
  exact ⟨ss', _, hrun', herase, hhead.symm⟩

theorem parseStream_join {depth : Nat} {eof eof₁ eof₂ semicolon : Token} {ts us vs ws : List Token}
    {a b : Block} (ha : parseStream depth ⟨ts, .ok eof₁⟩ = .ok a) (hne : a.statements ≠ [])
    (hb : parseStream depth ⟨vs, .ok eof₂⟩ = .ok b) (htwins : Twins ts us) (htwins' : Twins vs ws)
    (hfree : ∀ t ∈ ts, t.kind ≠ .eof) (hkind : semicolon.kind = .semicolon)
    (hvs : ∀ v ∈ vs.head?, v.kind ≠ .semicolon) (heof : eof.kind = .eof)
    (heof₁ : eof₁.lexeme = eof.lexeme) (heof₂ : eof₂.lexeme = eof.lexeme) :
    ∃ program, parseStream depth ⟨us ++ semicolon :: ws, .ok eof⟩ = .ok program ∧
      program.statements.map Stmt.erase = a.statements.map Stmt.erase ++ b.statements.map Stmt.erase := by
  obtain ⟨view₁, hprogram₁, hview₁⟩ := parseStream_ok.mp ha
  obtain ⟨view₂, hprogram₂, hview₂⟩ := parseStream_ok.mp hb
  obtain ⟨depth, as, rfl, rfl, hrun₁⟩ := run_programWithin_ok.mp hprogram₁
  obtain ⟨_, bs, ⟨⟩, rfl, hrun₂⟩ := run_programWithin_ok.mp hprogram₂
  have hkind₁ : eof₁.kind = .eof := (congrArg Lexeme.kind heof₁).trans heof
  have hkind₂ : eof₂.kind = .eof := (congrArg Lexeme.kind heof₂).trans heof
  have hlength : ts.length = us.length := by
    simpa only [List.length_map] using congrArg List.length htwins
  have hlength' : vs.length = ws.length := by
    simpa only [List.length_map] using congrArg List.length htwins'
  have hts : ts ≠ [] := by
    rintro rfl
    rw [run_statements_nil hkind₁] at hrun₁
    cases hrun₁
    exact hne rfl
  let x : Onward := ⟨eof₁, eof, semicolon :: ws, heof₁, hkind₁, by rintro _ ⟨⟩; exact hkind⟩
  let rounds := (us ++ semicolon :: ws).length + 1
  have hws : ∀ w ∈ ws.head?, w.kind ≠ .semicolon := by
    rintro w hw hsemicolon
    obtain ⟨rest, rfl⟩ := List.head?_eq_some_iff.mp hw
    obtain ⟨v, rest', rfl⟩ := List.exists_cons_of_ne_nil (mt htwins'.nil_iff.mp (List.cons_ne_nil w rest))
    exact hvs v rfl ((congrArg Lexeme.kind (List.cons.inj htwins').1).trans hsemicolon)
  have hrounds : ts.length + vs.length + 2 = rounds := by
    simp only [rounds, List.length_append, List.length_cons, hlength, hlength']
    omega
  -- The second program is read in the place where the first one ends, whatever fuel is left there.
  have hnext : ∀ fuel, ws.length < fuel → ∃ ss last,
      (statements (statementWithin rounds depth) fuel).run (window eof ws) = .ok (ss, last) ∧
        bs.map Stmt.erase = ss.map Stmt.erase ∧ last.current.kind = .eof := by
    intro fuel hfuel
    obtain ⟨ss, last, hrun, herase, hlast⟩ := statements_twins heof₂ hkind₂ htwins'
      (show vs.length < rounds by omega) (show vs.length < fuel by omega) hrun₂
    exact ⟨ss, last, hrun, herase, hlast.trans hview₂⟩
  obtain ⟨he, hp⟩ := Onward.carries_within (x := x) (show ts.length + 1 ≤ rounds by omega) depth
  obtain ⟨as', bs', last, hrun, hfirst, hsecond, hlast⟩ :=
    statements_join (Onward.carries_statement he hp) (stops_statement (stops_within _ depth)) rfl hws hnext
      (Nat.le_refl _) hts (Nat.le_succ _) (show ts.length + ws.length < rounds by omega) htwins hfree
      hrun₁ hview₁
  refine ⟨.mk ((us ++ semicolon :: ws).headD eof).span (as' ++ bs'), ?_, ?_⟩
  · exact parseStream_ok.mpr ⟨last, run_programWithin_ok.mpr ⟨depth, _, rfl, rfl, hrun⟩, hlast⟩
  · rw [Block.statements_mk, Block.statements_mk, Block.statements_mk, List.map_append, hfirst, hsecond]

end MonkeyLang.Parser

namespace MonkeyLang
open MonkeyLang.Parser Grammar

theorem cut_of_stream {source : String} {tokens : List Token} {eof : Token}
    (h : TokenStream.ofSource source = ⟨tokens, .ok eof⟩) :
    Cut [] source.toList (tokens.map Token.lexeme) none ∧ eof.lexeme = ⟨.eof, ""⟩ := by
  obtain ⟨ending, hcut, hends⟩ := exists_cut_ofSource source
  rw [h] at hcut hends
  cases ending with
  | some error => cases hends
  | none =>
    obtain ⟨_, ⟨⟩, heof⟩ := hends
    exact ⟨hcut, heof⟩

theorem stream_of_parseWithin {source : String} {depth : Nat} {program : Block}
    (h : parseWithin depth source = .ok program) :
    ∃ tokens eof, TokenStream.ofSource source = ⟨tokens, .ok eof⟩ := by
  obtain ⟨_, htokenize⟩ := tokenize_of_parseWithin h
  obtain ⟨tokens, eof, hstream, -⟩ := tokenize_ok.mp htokenize
  exact ⟨tokens, eof, hstream⟩

theorem head_of_parseWithin {source : String} {depth : Nat} {program : Block}
    (h : parseWithin depth source = .ok program) {tokens : List Token} {eof : Token}
    (hstream : TokenStream.ofSource source = ⟨tokens, .ok eof⟩) :
    ∀ token ∈ tokens.head?, token.kind ≠ .semicolon := by
  obtain ⟨body, last, hbody, -, hderives⟩ :=
    program_of_parseWithin (tokenize_ok.mpr ⟨tokens, eof, hstream, rfl⟩) h
  rw [List.map_append, List.map_singleton] at hbody
  obtain ⟨rfl, -⟩ := List.append_inj' hbody rfl
  intro token htoken hkind
  have hbegins := hderives.begins token.lexeme (by rw [List.head?_map, htoken]; rfl)
  rw [show token.lexeme.kind = .semicolon from hkind] at hbegins
  cases hbegins

theorem parseWithin_line {depth : Nat} {text line : String} {a b : Block}
    (ha : parseWithin depth text = .ok a) (hne : a.statements ≠ [])
    (hclosed : Text.endsInString text = false) (hb : parseWithin depth line = .ok b) :
    ∃ program, parseWithin depth (text ++ ";\n" ++ line) = .ok program ∧
      program.same (.mk default (a.statements ++ b.statements)) = true := by
  obtain ⟨ts, eof₁, hstream₁⟩ := stream_of_parseWithin ha
  obtain ⟨vs, eof₂, hstream₂⟩ := stream_of_parseWithin hb
  obtain ⟨hcut₁, heof₁⟩ := cut_of_stream hstream₁
  obtain ⟨hcut₂, heof₂⟩ := cut_of_stream hstream₂
  obtain ⟨tokens, eof, hstream, hlexemes⟩ := hcut₁.lexes_line hclosed hcut₂ ⟨0, 0, 0⟩
  obtain ⟨us, _, rfl, hus, hrest⟩ := List.map_eq_append_iff.mp hlexemes
  obtain ⟨semicolon, ws, rfl, hsemicolon, hws⟩ := List.map_eq_cons_iff.mp hrest
  have hjoined : TokenStream.ofSource (text ++ ";\n" ++ line) = ⟨us ++ semicolon :: ws, .ok eof⟩ := by
    have htext : (text ++ ";\n" ++ line).toList = text.toList ++ ';' :: '\n' :: line.toList := by
      rw [String.toList_append, String.toList_append, List.append_assoc]
      rfl
    rw [← hstream, TokenStream.ofSource, Cursor.ofSource, htext]
  obtain ⟨-, heof⟩ := cut_of_stream hjoined
  have hends := TokenStream.wellEnded_ofSource text
  have hfirst := head_of_parseWithin hb hstream₂
  unfold parseWithin at ha hb ⊢
  rw [hstream₁] at ha hends
  rw [hstream₂] at hb
  rw [hjoined]
  obtain ⟨program, hparse, hstatements⟩ := parseStream_join ha hne hb hus.symm hws.symm hends.before
    (congrArg Lexeme.kind hsemicolon) hfirst (congrArg Lexeme.kind heof) (heof₁.trans heof.symm)
    (heof₂.trans heof.symm)
  refine ⟨program, hparse, (Block.same_iff _ _).mpr ?_⟩
  obtain ⟨span, statements⟩ := program
  rw [Block.erase, Block.erase, Stmt.eraseAll_eq_map, Stmt.eraseAll_eq_map, List.map_append]
  exact congrArg _ hstatements

end MonkeyLang
