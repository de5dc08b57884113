import MonkeyLang.Proofs.Ast.Placement
import MonkeyLang.Proofs.Ast.Pulling

namespace MonkeyLang

namespace Parser

variable {α β : Type}

def Lands (start : Token → Prop) (p : Parser α) : Prop :=
  ∀ view a next, start view.current → p.run view = .ok (a, next) → next.current.kind ≠ .eof

def anywhere (_ : Token) : Prop :=
  True

namespace Lands

variable {start : Token → Prop}

theorem pure (h : ∀ token, start token → token.kind ≠ .eof) (a : α) : Lands start (Pure.pure a) := by
  intro view b next hstart hrun
  obtain ⟨-, rfl⟩ := run_pure_ok.mp hrun
  exact h _ hstart

theorem throw (error : ParseError) : Lands start (MonadExcept.throw error : Parser α) :=
  fun _ _ _ _ hrun => nomatch hrun

theorem unexpected (expected : Expectation) (found : Token) :
    Lands start (unexpected expected found : Parser α) :=
  throw _

theorem nestingTooDeep : Lands start (Parser.nestingTooDeep : Parser α) :=
  fun _ _ _ _ hrun => nomatch hrun

theorem bind {p : Parser α} {f : α → Parser β} (h : Lands start p)
    (hf : ∀ a, Lands (·.kind ≠ .eof) (f a)) : Lands start (p >>= f) := by
  intro view b next hstart hrun
  obtain ⟨a, middle, hp, hrest⟩ := run_bind_ok.mp hrun
  exact hf a middle b next (h view a middle hstart hp) hrest

theorem last {p : Parser α} {f : α → Parser β} (hf : ∀ a, Lands anywhere (f a)) : Lands start (p >>= f) := by
  intro view b next _ hrun
  obtain ⟨a, middle, -, hrest⟩ := run_bind_ok.mp hrun
  exact hf a middle b next trivial hrest

theorem current {f : Token → Parser α} (h : ∀ token, start token → Lands (· = token) (f token)) :
    Lands start (Parser.current >>= f) :=
  fun view a next hstart hrun => h view.current hstart view a next rfl hrun

theorem peek {f : Token → Parser α} (h : ∀ token, Lands start (f token)) :
    Lands start (Parser.peek >>= f) :=
  fun view a next hstart hrun => h view.peek view a next hstart hrun

theorem ite {c : Prop} [Decidable c] {p q : Parser α} (hp : c → Lands start p) (hq : ¬ c → Lands start q) :
    Lands start (if c then p else q) := by
  by_cases hc : c
  · rw [if_pos hc]
    exact hp hc
  · rw [if_neg hc]
    exact hq hc

theorem stay (a : α) : Lands (·.kind ≠ .eof) (Pure.pure a) :=
  pure (fun _ => id) a

theorem onto {c : Token → Prop} [DecidablePred c] {f g : Token → Parser α}
    (hf : ∀ token, c token → Lands (· = token) (f token)) (hg : ∀ token, Lands start (g token)) :
    Lands start (Parser.peek >>= fun token =>
      if c token then Parser.advance >>= fun _ => f token else g token) := by
  intro view a next hstart hrun
  rw [run_peek_bind] at hrun
  split at hrun
  next hpeek =>
    obtain ⟨_, middle, hadvance, hrest⟩ := run_bind_ok.mp hrun
    exact hf view.peek hpeek middle a next (pull_of_advance hadvance).2 hrest
  next => exact hg view.peek view a next hstart hrun

theorem at_kind {kind : TokenKind} (hkind : kind ≠ .eof) {token : Token} (h : token.kind = kind) (a : α) :
    Lands (· = token) (Pure.pure a) :=
  pure (by rintro _ rfl; rwa [h]) a

theorem expect {kind : TokenKind} (hkind : kind ≠ .eof) : Lands start (expect kind) :=
  onto (fun _ h => at_kind hkind h _) fun _ => unexpected _ _

theorem items {item : Parser α} {close : TokenKind} (hclose : close ≠ .eof) (rounds : Nat) :
    Lands start (items rounds item close) :=
  onto (fun _ h => at_kind hclose h _) fun _ => last fun _ => last fun _ =>
    bind (expect hclose) fun _ => stay _

theorem block (program : Parser Block) : Lands start (block program) := by
  refine last fun _ => last fun _ => current fun last _ => ite (fun h => ?_) fun _ => unexpected _ _
  exact at_kind (by decide) h _

end Lands

section Productions

variable {start : Token → Prop} {expression : Precedence → Parser Expr} {program : Parser Block}
  {rounds : Nat} (he : ∀ precedence, Lands anywhere (expression precedence))
include he

theorem lands_nextExpression : Lands start (nextExpression expression) :=
  .last fun _ => he .lowest

theorem lands_operand : Lands start (operand rounds expression program) := by
  refine .current fun token _ => ?_
  cases hkind : token.kind with
  | identifier | trueWord | falseWord | string => exact .at_kind (by decide) hkind _
  | integer =>
    refine .ite (fun _ => .throw _) fun _ => .ite (fun _ => .unexpected _ _) fun _ => ?_
    exact .at_kind (by decide) hkind _
  | bang | minus => exact .last fun _ => .bind (he .unary) fun _ => .stay _
  | leftParen => exact .last fun _ => .bind (.expect (by decide)) fun _ => .stay _
  | fnWord =>
    refine .last fun _ => .last fun _ => .last fun _ => ?_
    exact .bind (.block program) fun _ => .stay _
  | leftBracket | leftBrace => exact .bind (.items (by decide) rounds) fun _ => .stay _
  | _ => exact .unexpected _ _

theorem lands_suffix (left : Expr) (next : Suffix) : Lands start (suffix rounds expression left next) := by
  cases next with
  | operator operator precedence =>
    exact .last fun _ => .last fun _ => .bind (he precedence) fun _ => .stay _
  | call => exact .last fun _ => .bind (.items (by decide) rounds) fun _ => .stay _
  | index => exact .last fun _ => .last fun _ => .bind (.expect (by decide)) fun _ => .stay _

theorem lands_extend (precedence : Precedence) (fuel : Nat) (left : Expr) :
    Lands (·.kind ≠ .eof) (extend rounds expression precedence fuel left) := by
  induction fuel generalizing left with
  | zero => exact .stay _
  | succ fuel ih =>
    refine .peek fun token => ?_
    cases Suffix.ofKind? token.kind with
    | none => exact .stay _
    | some next =>
      exact .ite (fun _ => .last fun _ => .bind (lands_suffix he left next) ih) fun _ => .stay _

theorem lands_statement : Lands start (statement expression program) := by
  refine .current fun token _ => ?_
  cases token.kind with
  | letWord =>
    refine .last fun _ => .last fun _ => .bind (lands_nextExpression he) fun _ => .stay _
  | returnWord => exact .bind (lands_nextExpression he) fun _ => .stay _
  | ifWord =>
    refine .last fun _ => .last fun _ => .last fun _ => .last fun _ => .last fun _ => ?_
    refine .bind (.block program) fun _ => .peek fun _ => .ite (fun _ => ?_) fun _ => .stay _
    exact .last fun _ => .last fun _ => .bind (.block program) fun _ => .stay _
  | _ => exact .bind (fun view a next _ => he .lowest view a next trivial) fun _ => .stay _

end Productions

theorem lands_within (rounds depth : Nat) (precedence : Precedence) :
    Lands anywhere (expressionWithin rounds depth precedence) := by
  induction depth generalizing precedence with
  | zero =>
    rw [expressionWithin]
    exact .nestingTooDeep
  | succ depth ih =>
    rw [expressionWithin]
    exact .bind (lands_operand ih) fun left => lands_extend ih precedence rounds left

theorem upcoming_window {eof : Token} (heof : eof.kind = .eof) {tokens : List Token}
    (h : ∀ token ∈ tokens, token.kind ≠ .eof) : upcoming (window eof tokens) = tokens := by
  rcases tokens with _ | ⟨first, _ | ⟨second, tokens⟩⟩
  · exact front_eof heof _
  · exact (front_cons (h first (by simp)) _).trans (congrArg _ (front_eof heof _))
  · exact front_of_before h

theorem Lawful.eq_window {view : Lookahead} {eof : Token} (hview : Lawful view)
    (h : view.rest.ending = .ok eof) : view = window eof (upcoming view) := by
  obtain ⟨current, peek, tokens, _⟩ := view
  cases h
  by_cases hpeek : peek.kind = .eof
  · have hrest : (⟨tokens, .ok eof⟩ : TokenStream) = ⟨[], .ok peek⟩ := hview.peek hpeek
    cases hrest
    by_cases hcurrent : current.kind = .eof
    · obtain rfl : eof = current := hview.current hcurrent
      rw [upcoming_eq_nil.mpr hcurrent]
      rfl
    · rw [upcoming, front_cons hcurrent, front_eof hpeek]
      rfl
  · rw [hview.upcoming_of_peek hpeek]
    rfl

theorem follows_expressionWithin (A : Alignment) (rounds depth : Nat) (precedence : Precedence) :
    Follows A (expressionWithin rounds depth precedence) (expressionWithin rounds depth precedence) := by
  rw [← (over_refused rounds depth).1]
  exact (follows_over (fun _ => .nestingTooDeep) .nestingTooDeep rounds depth).1 precedence

theorem run_window {p : Parser α} (hp : ∀ A, Follows A p p) {view next : Lookahead} {a : α}
    (hview : Lawful view) (h : p.run view = .ok (a, next)) :
    ∃ eof after, eof.kind = .eof ∧ p.run (window eof (upcoming view)) = .ok (a, after) ∧
      after.current = next.current ∧ upcoming after = upcoming next := by
  cases hending : view.rest.ending with
  | ok eof =>
    rw [hview.eq_window hending] at h
    exact ⟨eof, next, hview.rest.ending eof hending, h, rfl, rfl⟩
  | error error =>
    let eof : Token := ⟨.eof, "", default⟩
    have hpeek : view.peek.kind ≠ .eof := by
      intro heof
      rw [hview.peek heof] at hending
      cases hending
    have hrun := hp (answerAlignment error (.ok eof)) view (window eof (upcoming view)) (by
      rw [hview.upcoming_of_peek hpeek]
      exact ⟨rfl, rfl, view.rest.tokens, congrArg (TokenStream.mk _) hending, rfl⟩)
    rw [h] at hrun
    generalize hafter : p.run (window eof (upcoming view)) = result at hrun
    cases hrun with
    | @ok _ result hresult =>
      obtain ⟨b, after⟩ := result
      obtain ⟨rfl, hcurrent, hpeek, tokens, hrest, hrest'⟩ := hresult
      refine ⟨eof, after, rfl, hafter, hcurrent.symm, ?_⟩
      rw [upcoming, upcoming, hcurrent, hpeek, hrest, hrest']

theorem stops_on_last {p : Parser α} {node : Node} {view next : Lookahead} {a : α} (hview : Lawful view)
    (hfollows : ∀ A, Follows A p p) (hlands : Lands anywhere p) (h : p.run view = .ok (a, next))
    (hsuffix : upcoming next <:+ upcoming view)
    (htakes : ∀ eof after, eof.kind = .eof → p.run (window eof (upcoming view)) = .ok (a, after) →
      Takes eof (upcoming view) after fun ts _ => Written node ts) :
    ∃ own rest, upcoming view = own ++ next.current :: rest ∧ upcoming next = next.current :: rest ∧
      Written node (own ++ [next.current]) := by
  obtain ⟨eof, after, heof, hrun, hcurrent, hupcoming⟩ := run_window hfollows hview h
  obtain ⟨taken, rest, last, htokens, rfl, hwritten⟩ := htakes eof after heof hrun
  obtain rfl : last = next.current := hcurrent
  have hkinds : ∀ token ∈ next.current :: rest, token.kind ≠ .eof := by
    refine List.forall_mem_cons.mpr ⟨hlands view a next trivial h, fun token mem => ?_⟩
    exact kind_of_mem_front token (htokens ▸ List.mem_append_right taken mem)
  rw [upcoming_window heof hkinds] at hupcoming
  obtain ⟨own, hown⟩ := hsuffix
  rw [← hupcoming] at hown ⊢
  refine ⟨own, rest, hown.symm, rfl, ?_⟩
  rw [htokens, ← List.singleton_append, ← List.append_assoc] at hown
  rwa [List.append_cancel_right hown]

end Parser

namespace Unbounded
open MonkeyLang.Parser

variable {α β : Type}

/-- From every state of the parser the reader ends, by an error or not, with as many blocks open as before.
If it succeeds, the current token is the last of those that spell what it gives. -/
def Reads (node : α → Node) (q : Unbounded α) : Prop :=
  ∀ s, Lawful s.view → ∃ outcome after, q.runFrom s = some (outcome, after) ∧ after.blocks = s.blocks ∧
    ∀ a, outcome = .ok a → Lawful after.view ∧ after.view.current.kind ≠ .eof ∧
      ∃ own rest, upcoming s.view = own ++ after.view.current :: rest ∧
        upcoming after.view = after.view.current :: rest ∧ Written (node a) (own ++ [after.view.current])

theorem reads_of_ends {q : Unbounded α} {node : α → Node} {p : Nat → Parser α}
    (hends : ∀ blocks n, Ends blocks n (p n) q) (hfollows : ∀ n A, Follows A (p n) (p n))
    (hlands : ∀ n, Lands anywhere (p n))
    (htakes : ∀ n eof tokens a view, eof.kind = .eof → tokens.length ≤ n →
      (p n).run (window eof tokens) = .ok (a, view) →
      Takes eof tokens view fun ts _ => Written (node a) ts) : q.Reads node := by
  intro s hview
  have hrun := hends s.blocks _ s.view hview (Nat.le_refl _)
  generalize hp : (p (upcoming s.view).length).run s.view = result at hrun
  cases result with
  | error error =>
    obtain ⟨-, next, hq⟩ := hrun
    exact ⟨_, _, hq, rfl, nofun⟩
  | ok result =>
    obtain ⟨hq, hnext, hsuffix⟩ := hrun
    refine ⟨_, _, hq, rfl, ?_⟩
    rintro a ⟨⟩
    have htaken := stops_on_last hview (hfollows _) (hlands _) hp hsuffix
      fun eof after heof => htakes _ eof _ _ after heof (Nat.le_refl _)
    exact ⟨hnext, hlands _ _ _ _ trivial hp, htaken⟩

theorem reads_expression (precedence : Precedence) : (expression precedence).Reads .expr := by
  apply reads_of_ends (p := fun n => expressionWithin n (n + 2) precedence)
  · exact fun blocks n => (ends_within n (n + 2)).1 blocks n (Nat.le_refl n) (by omega) precedence
  · exact fun n A => follows_expressionWithin A n (n + 2) precedence
  · exact fun n => lands_within n (n + 2) precedence
  · intro n eof tokens e view heof hlength h
    exact (written_within heof n (n + 2)).1 precedence tokens e view hlength h

theorem reads_statement : statement.Reads .stmt := by
  apply reads_of_ends (p := fun n =>
    Parser.statement (expressionWithin n (n + 2)) (programWithin n (n + 2)))
  · intro blocks n
    obtain ⟨he, hp⟩ := ends_within n (n + 2)
    have hexpression := he blocks n (Nat.le_refl n) (by omega)
    exact ends_statement hexpression fun m hm => hp blocks m (by omega) (by omega)
  · exact fun n A => follows_statement (follows_expressionWithin A n (n + 2)) (follows_within n (n + 2))
  · exact fun n => lands_statement (lands_within n (n + 2))
  · intro n eof tokens s view heof hlength h
    obtain ⟨hE, hP⟩ := written_within heof n (n + 2)
    exact (statement_takes heof hE hP hlength h).imp fun _ _ hs => hs.written

def Moves (q : Unbounded α) : Prop :=
  ∀ s a after, Lawful s.view → q.runFrom s = some (.ok a, after) →
    Lawful after.view ∧ upcoming after.view <:+ upcoming s.view

/-- Whenever the reader succeeds, it has moved on by a token or more. -/
def Consumes (q : Unbounded α) : Prop :=
  ∀ s a after, Lawful s.view → q.runFrom s = some (.ok a, after) →
    Lawful after.view ∧ ∃ taken, taken ≠ [] ∧ upcoming s.view = taken ++ upcoming after.view

theorem moves_of_ends {q : Unbounded α} {p : Nat → Parser α} (h : ∀ blocks n, Ends blocks n (p n) q) :
    q.Moves := by
  intro s a after hview hq
  have hrun := h s.blocks _ s.view hview (Nat.le_refl _)
  split at hrun
  next hp =>
    cases hrun.1.symm.trans hq
    exact hrun.2
  next =>
    obtain ⟨-, next, hnext⟩ := hrun
    cases hnext.symm.trans hq

theorem of_runFrom_bind {q : Unbounded α} {f : α → Unbounded β} {s after : Situation} {b : β}
    (h : (q >>= f).runFrom s = some (.ok b, after)) :
    ∃ a middle, q.runFrom s = some (.ok a, middle) ∧ (f a).runFrom middle = some (.ok b, after) := by
  cases hq : q.runFrom s with
  | none =>
    simp only [runFrom] at h hq
    rw [ExceptT.run_bind, StateT.run_bind, hq] at h
    cases h
  | some result =>
    obtain ⟨outcome, middle⟩ := result
    cases outcome with
    | error error =>
      rw [runFrom_bind_error hq] at h
      cases h
    | ok a =>
      rw [runFrom_bind_ok hq] at h
      exact ⟨a, middle, rfl, h⟩

theorem moves_pure (a : α) : (pure a : Unbounded α).Moves := by
  rintro s _ _ hview ⟨⟩
  exact ⟨hview, List.suffix_refl _⟩

theorem Moves.bind {q : Unbounded α} {f : α → Unbounded β} (h : q.Moves) (hf : ∀ a, (f a).Moves) :
    (q >>= f).Moves := by
  intro s b after hview hrun
  obtain ⟨a, middle, hq, hrest⟩ := of_runFrom_bind hrun
  obtain ⟨hmiddle, hsuffix⟩ := h s a middle hview hq
  obtain ⟨hafter, hsuffix'⟩ := hf a middle b after hmiddle hrest
  exact ⟨hafter, hsuffix'.trans hsuffix⟩

theorem Consumes.moves {q : Unbounded α} (h : q.Consumes) : q.Moves := by
  intro s a after hview hq
  obtain ⟨hafter, taken, -, htaken⟩ := h s a after hview hq
  exact ⟨hafter, taken, htaken.symm⟩

theorem Consumes.before {q : Unbounded α} {f : α → Unbounded β} (h : q.Consumes) (hf : ∀ a, (f a).Moves) :
    (q >>= f).Consumes := by
  intro s b after hview hrun
  obtain ⟨a, middle, hq, hrest⟩ := of_runFrom_bind hrun
  obtain ⟨hmiddle, taken, hne, htaken⟩ := h s a middle hview hq
  obtain ⟨hafter, more, hmore⟩ := hf a middle b after hmiddle hrest
  refine ⟨hafter, taken ++ more, List.append_ne_nil_of_left_ne_nil hne more, ?_⟩
  rw [htaken, ← hmore, List.append_assoc]

theorem Consumes.behind {q : Unbounded α} {f : α → Unbounded β} (h : q.Moves)
    (hf : ∀ a, (f a).Consumes) : (q >>= f).Consumes := by
  intro s b after hview hrun
  obtain ⟨a, middle, hq, hrest⟩ := of_runFrom_bind hrun
  obtain ⟨hmiddle, front, hfront⟩ := h s a middle hview hq
  obtain ⟨hafter, taken, hne, htaken⟩ := hf a middle b after hmiddle hrest
  refine ⟨hafter, front ++ taken, List.append_ne_nil_of_right_ne_nil front hne, ?_⟩
  rw [← hfront, htaken, List.append_assoc]

theorem moves_advance : advance.Moves :=
  moves_of_ends (p := fun _ => Parser.advance) fun _ _ => .advance

theorem moves_expect (kind : TokenKind) : (expect kind).Moves :=
  moves_of_ends (p := fun _ => Parser.expect kind) fun _ _ => .expect kind

theorem moves_current : current.Moves := by
  rintro s _ _ hview ⟨⟩
  exact ⟨hview, List.suffix_refl _⟩

theorem upcoming_of_advance {s after : Situation} (hview : Lawful s.view)
    (h : advance.runFrom s = some (.ok (), after)) :
    Lawful after.view ∧ upcoming after.view = (upcoming s.view).tail := by
  rw [runFrom_advance] at h
  cases hpull : pull s.view.rest with
  | error error =>
    rw [hpull] at h
    cases h
  | ok result =>
    rw [hpull] at h
    cases h
    rw [hview.tail_upcoming]
    exact lawful_pulled hview.rest hview.peek hpull

theorem Reads.taken {node : α → Node} {q : Unbounded α} (h : q.Reads node) {s after : Situation} {a : α}
    (hview : Lawful s.view) (hq : q.runFrom s = some (.ok a, after)) : Lawful after.view ∧
      upcoming after.view ≠ [] ∧ upcoming after.view <:+ upcoming s.view := by
  obtain ⟨outcome, after', hq', -, hok⟩ := h s hview
  cases hq'.symm.trans hq
  obtain ⟨hafter, -, own, rest, hbefore, hupcoming, -⟩ := hok a rfl
  rw [hbefore, hupcoming]
  exact ⟨hafter, List.cons_ne_nil _ _, own, rfl⟩

theorem Consumes.advance_reads {node : α → Node} {q : Unbounded α} (h : q.Reads node) :
    (advance >>= fun _ => q).Consumes := by
  intro s a after hview hrun
  obtain ⟨_, middle, hadvance, hq⟩ := of_runFrom_bind hrun
  obtain ⟨hmiddle, htail⟩ := upcoming_of_advance hview hadvance
  obtain ⟨hafter, hne, taken, htaken⟩ := h.taken hmiddle hq
  cases hs : upcoming s.view with
  | nil =>
    rw [htail, hs] at htaken
    exact absurd (List.append_eq_nil_iff.mp htaken).2 hne
  | cons token tokens =>
    rw [htail, hs] at htaken
    exact ⟨hafter, token :: taken, List.cons_ne_nil _ _, congrArg (token :: ·) htaken.symm⟩

theorem Consumes.reads_advance {node : α → Node} {q : Unbounded α} {f : α → Unbounded β}
    (h : q.Reads node) (hf : ∀ a, (f a).Moves) :
    (q >>= fun a => advance >>= fun _ => f a).Consumes := by
  intro s b after hview hrun
  obtain ⟨a, middle, hq, hrest⟩ := of_runFrom_bind hrun
  obtain ⟨hmiddle, hne, front, hfront⟩ := h.taken hview hq
  obtain ⟨_, last, hadvance, hlast⟩ := of_runFrom_bind hrest
  obtain ⟨hview', htail⟩ := upcoming_of_advance hmiddle hadvance
  obtain ⟨hafter, more, hmore⟩ := hf a last b after hview' hlast
  obtain ⟨token, tokens, hcons⟩ := List.exists_cons_of_ne_nil hne
  refine ⟨hafter, front ++ token :: more, by simp, ?_⟩
  rw [hcons, List.tail_cons] at htail
  rw [← hfront, hcons, List.append_assoc, List.cons_append, hmore, htail]

theorem Consumes.onto {c : Token → Prop} [DecidablePred c] (hc : ∀ token, c token → token.kind ≠ .eof)
    {f g : Token → Unbounded α} (hf : ∀ token, (f token).Moves) (hg : ∀ token, (g token).Consumes) :
    (peek >>= fun token => if c token then advance >>= fun _ => f token else g token).Consumes := by
  intro s a after hview hrun
  change runFrom s (if c s.view.peek then _ else _) = _ at hrun
  split at hrun
  next hpeek =>
    obtain ⟨_, middle, hadvance, hrest⟩ := of_runFrom_bind hrun
    obtain ⟨hmiddle, htail⟩ := upcoming_of_advance hview hadvance
    obtain ⟨hafter, taken, htaken⟩ := hf _ middle a after hmiddle hrest
    refine ⟨hafter, s.view.current :: taken, List.cons_ne_nil _ _, ?_⟩
    rw [List.cons_append, htaken, htail, hview.upcoming_of_peek (hc _ hpeek)]
    rfl
  next => exact hg _ s a after hview hrun

theorem consumes_unexpected (expected : Expectation) (found : Token) :
    (unexpected expected found : Unbounded α).Consumes :=
  fun _ _ _ _ h => nomatch h

theorem consumes_expect {kind : TokenKind} (hkind : kind ≠ .eof) : (expect kind).Consumes :=
  .onto (fun _ h => by rwa [h]) (fun _ => moves_pure _) fun _ => consumes_unexpected _ _

theorem consumes_nextExpression : nextExpression.Consumes := by
  rw [nextExpression, Phrase.read]
  exact .advance_reads (reads_expression .lowest)

theorem consumes_pair : pair.Consumes := by
  rw [pair, Phrase.read]
  refine consumes_nextExpression.before fun _ => .bind (moves_expect _) fun _ => ?_
  exact consumes_nextExpression.moves.bind fun _ => moves_pure _

theorem consumes_item (listing : Listing) : (item listing).Consumes := by
  cases listing with
  | parameters =>
    rw [item, Phrase.read]
    exact (consumes_expect (by decide)).before fun _ => moves_pure _
  | values =>
    rw [item, Phrase.read]
    exact consumes_nextExpression
  | entries =>
    rw [item, Phrase.read]
    exact consumes_pair

theorem exists_ends_item (listing : Listing) :
    ∃ p : Nat → Parser listing.Item, ∀ blocks n, Ends blocks n (p n) (item listing) := by
  have he (blocks n : Nat) (precedence : Precedence) :
      Ends blocks (n - 1) (expressionWithin n (n + 2) precedence) (expression precedence) :=
    (ends_within n (n + 2)).1 blocks (n - 1) (Nat.sub_le n 1) (by omega) precedence
  cases listing with
  | parameters =>
    refine ⟨fun _ => Parser.ident, fun blocks n => ?_⟩
    rw [item, Phrase.read]
    exact ends_ident
  | values =>
    refine ⟨fun n => Parser.nextExpression (expressionWithin n (n + 2)), fun blocks n => ?_⟩
    rw [item, Phrase.read]
    exact ends_nextExpression (he blocks n)
  | entries =>
    refine ⟨fun n => Parser.pair (expressionWithin n (n + 2)), fun blocks n => ?_⟩
    rw [item, Phrase.read]
    exact ends_pair (he blocks n)

theorem moves_moreItems (listing : Listing) : (moreItems listing).Moves := by
  obtain ⟨p, hp⟩ := exists_ends_item listing
  exact moves_of_ends fun blocks n => ends_moreItems (hp blocks n) (Nat.le_refl n)

theorem consumes_items (listing : Listing) {close : TokenKind} (hclose : close ≠ .eof) :
    (items listing close).Consumes := by
  rw [items, Phrase.read]
  refine .onto (fun _ h => by rwa [h]) (fun _ => moves_pure _) fun _ => ?_
  refine (consumes_item listing).before fun _ => (moves_moreItems listing).bind fun _ => ?_
  exact (moves_expect _).bind fun _ => moves_pure _

theorem consumes_suffix (left : Expr) (next : Suffix) : (suffix left next).Consumes := by
  rw [suffix]
  cases next with
  | operator operator precedence =>
    rw [Phrase.read]
    refine .behind moves_current fun token => ?_
    have hright := Consumes.advance_reads (reads_expression precedence)
    have := hright.before fun right => moves_pure (Expr.binary token.span operator left right)
    rwa [bind_assoc] at this
  | call =>
    rw [Phrase.read]
    refine .behind moves_current fun token => ?_
    exact (consumes_items .values (by decide)).before fun _ => moves_pure _
  | index =>
    rw [Phrase.read]
    refine .behind moves_current fun _ => consumes_nextExpression.before fun _ => ?_
    exact (moves_expect _).bind fun _ => moves_pure _

theorem moves_skipSemicolons : skipSemicolons.Moves :=
  moves_of_ends fun _ n => ends_skipSemicolons (Nat.le_refl n)

theorem program_ends {s : Situation} (hview : Lawful s.view) :
    ∃ outcome after, program.runFrom s = some (outcome, after) ∧ after.blocks = s.blocks := by
  have hends : ∃ p, Ends s.blocks (upcoming s.view).length p program := by
    cases s.blocks with
    | zero => exact ⟨_, ends_outermost (Nat.le_refl _) (Nat.le_refl _)⟩
    | succ blocks => exact ⟨_, (ends_within _ _).2 blocks _ (Nat.le_refl _) (Nat.le_refl _)⟩
  obtain ⟨p, hp⟩ := hends
  have hrun := hp s.view hview (Nat.le_refl _)
  split at hrun
  next => exact ⟨_, _, hrun.1, rfl⟩
  next =>
    obtain ⟨-, next, hnext⟩ := hrun
    exact ⟨_, _, hnext, rfl⟩

end Unbounded

open Unbounded in
/-- Parsing ends on every source. From every state that the parser comes to, each expression and each
statement is read to its last token or not at all, so every round of a loop takes a token: the loops over
suffixes, over what stands between commas, and over statements. Without bounds a program is read as it is
with any limit of the nesting that is one more than there are tokens, with that of the end of input, and no
limit like that is met. However reading ends, as many blocks are open as before it. -/
theorem parsing_ends :
    (∀ source view, Parser.start (.ofSource source) = .ok view → Parser.Lawful view) ∧ advance.Moves ∧
    (∀ precedence, (expression precedence).Reads .expr) ∧ statement.Reads .stmt ∧
    (∀ left next, (do advance; suffix left next).Consumes) ∧
    (∀ listing, (item listing).Consumes ∧ (do advance; item listing).Consumes) ∧
    (do let first ← statement; advance; skipSemicolons; return first).Consumes ∧
    (∀ s, Parser.Lawful s.view →
      ∃ outcome after, program.runFrom s = some (outcome, after) ∧ after.blocks = s.blocks) ∧
    ∀ source, ∃ outcome, parseUnbounded source = some (outcome, 0) ∧
      (∀ found, outcome ≠ .error (.nestingTooDeep found)) ∧
      ∀ depth, (TokenStream.ofSource source).tokens.length + 1 + 1 ≤ depth →
        parseWithin depth source = outcome := by
  refine ⟨fun source view hstart => ?_, moves_advance, reads_expression, reads_statement,
    fun left next => ?_, fun listing => ⟨consumes_item listing, ?_⟩, ?_, fun s => program_ends,
    fun source => ?_⟩
  · exact (Parser.start_ok (TokenStream.wellEnded_ofSource source) hstart).1
  · exact .behind moves_advance fun _ => consumes_suffix left next
  · exact .behind moves_advance fun _ => consumes_item listing
  · exact .reads_advance reads_statement fun first => moves_skipSemicolons.bind fun _ => moves_pure first
  · have hends {depth : Nat} := @Parser.parseStream_ends _ depth (TokenStream.wellEnded_ofSource source)
    obtain ⟨hfirst, hne⟩ := hends (Nat.le_refl _)
    refine ⟨_, hfirst, hne, fun depth hdepth => ?_⟩
    obtain ⟨hdeep, -⟩ := hends hdepth
    exact congrArg Prod.fst (Option.some.inj (hdeep.symm.trans hfirst))

end MonkeyLang
