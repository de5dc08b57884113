import MonkeyLang.Proofs.Token.Munch
import MonkeyLang.Proofs.Token.Pulls

namespace MonkeyLang
namespace Cursor

def after (cursor : Cursor) : (calls : Nat) → Cursor
  | 0 => cursor
  | calls + 1 => (cursor.after calls).next.2

def answer (cursor : Cursor) (calls : Nat) : Except LexError Token :=
  (cursor.after calls).next.1

theorem after_next (cursor : Cursor) (calls : Nat) :
    cursor.next.2.after calls = cursor.after (calls + 1) := by
  induction calls with
  | zero => rfl
  | succ calls ih => exact congrArg (·.next.2) ih

theorem answer_next (cursor : Cursor) (calls : Nat) :
    cursor.next.2.answer calls = cursor.answer (calls + 1) :=
  congrArg (·.next.1) (cursor.after_next calls)

def StandsIn (source : String) (cursor : Cursor) : Prop :=
  ∃ passed, source.toList = passed ++ cursor.rest ∧ cursor.position = .behind passed

theorem standsIn_ofSource (source : String) : (ofSource source).StandsIn source :=
  ⟨[], rfl, rfl⟩

theorem passes_next (cursor : Cursor) : ∃ passed, cursor.Passes passed cursor.next.2 := by
  obtain ⟨hblanks, hskipped⟩ := passes_skipWhile cursor Text.isBlank
  obtain ⟨passed, hrest, hposition⟩ := passes_read (cursor.skipWhile Text.isBlank)
  refine ⟨cursor.rest.takeWhile Text.isBlank ++ passed, ?_, ?_⟩
  · rw [List.append_assoc]
    exact hblanks.trans (congrArg _ hrest)
  · rw [List.foldl_append, ← hskipped]
    exact hposition

/-- The cursor's position tells what was passed, and the rest is what was not. -/
structure Consistent (source : String) (cursor : Cursor) : Prop where
  offset : cursor.position.offset ≤ source.length
  char : cursor.rest.head? = source.toList[cursor.position.offset]?
  rest : cursor.rest = source.toList.drop cursor.position.offset
  line : cursor.position.line = (source.toList.take cursor.position.offset).count '\n'
  column : cursor.position.column =
    ((source.toList.take cursor.position.offset).reverse.takeWhile (· ≠ '\n')).length

namespace StandsIn

variable {source : String} {cursor : Cursor} (h : cursor.StandsIn source)
include h

theorem next : cursor.next.2.StandsIn source := by
  obtain ⟨passed, hsource, hposition⟩ := h
  obtain ⟨more, hrest, hmoved⟩ := cursor.passes_next
  refine ⟨passed ++ more, ?_, ?_⟩
  · rw [hsource, hrest, List.append_assoc]
  · rw [hmoved, hposition, Position.foldl_behind]

theorem after (calls : Nat) : (cursor.after calls).StandsIn source := by
  induction calls with
  | zero => exact h
  | succ calls ih => exact ih.next

theorem consistent : cursor.Consistent source := by
  obtain ⟨passed, hsource, hposition⟩ := h
  have hoffset : cursor.position.offset = passed.length := by
    rw [hposition]
    rfl
  have htake : source.toList.take cursor.position.offset = passed := by
    rw [hoffset, hsource, List.take_left]
  have hrest : cursor.rest = source.toList.drop cursor.position.offset := by
    rw [hoffset, hsource, List.drop_left]
  refine ⟨?_, ?_, hrest, ?_, ?_⟩
  · rw [hoffset, ← String.length_toList, hsource, List.length_append]
    exact Nat.le_add_right _ _
  · rw [hrest, List.head?_drop]
  · rw [htake, hposition]
    rfl
  · rw [htake, hposition]
    rfl

theorem offset_eq : cursor.position.offset + cursor.rest.length = source.length := by
  have hlength := congrArg List.length h.consistent.rest
  rw [List.length_drop, String.length_toList] at hlength
  have := h.consistent.offset
  omega

end StandsIn

/-- Behind the request that has the answer nothing more is passed. -/
def isLast : Except LexError Token → Bool
  | .ok token => token.kind = .eof
  | .error (.unsupported _ _) => true
  | .error (.invalidEscape _ _) | .error (.multiLine _ _) => false

theorem length_rest_next_le (cursor : Cursor) : cursor.next.2.rest.length ≤ cursor.rest.length := by
  obtain ⟨passed, hrest, -⟩ := cursor.passes_next
  rw [hrest, List.length_append]
  exact Nat.le_add_left _ _

theorem length_rest_next_lt_of_isLast {cursor : Cursor} (h : isLast cursor.next.1 = false) :
    cursor.next.2.rest.length < cursor.rest.length := by
  refine Nat.lt_of_lt_of_le (length_rest_read_lt (fun hrest => ?_) fun c span hread => ?_)
    (length_rest_skipWhile_le Text.isBlank cursor)
  · simp [next, read, hrest, tokenTo, Span.within, Except.map, isLast] at h
  · rw [next, hread] at h
    cases h

theorem tokenTo_ne_unsupported {start stop : Cursor} {kind : TokenKind} {literal : String} {c : Char}
    {span : Span} : tokenTo start stop kind literal ≠ .error (.unsupported c span) := by
  unfold tokenTo Span.within
  split <;> rintro ⟨⟩

theorem read_of_unsupported {cursor : Cursor} {c : Char} {span : Span}
    (h : cursor.read.1 = .error (.unsupported c span)) : cursor.read.2 = cursor := by
  revert h
  fun_cases read cursor with
  | case1 => exact fun _ => rfl
  | case2 | case3 | case4 | case6 | case7 => exact fun h => (tokenTo_ne_unsupported h).elim
  | case5 =>
    rw [readString]
    split
    · exact fun h => (tokenTo_ne_unsupported h).elim
    · rintro ⟨⟩
  | case8 => exact fun _ => rfl

theorem skipWhile_skipWhile (p : Char → Bool) (cursor : Cursor) :
    (cursor.skipWhile p).skipWhile p = cursor.skipWhile p := by
  have hhead : ∀ c ∈ (cursor.rest.dropWhile p).head?, p c = false := fun c mem => by
    simpa [Option.mem_def.mp mem] using List.head?_dropWhile_not p cursor.rest
  obtain ⟨htake, hdrop⟩ := @takeWhile_append_of_head p [] _ (by simp) hhead
  rw [List.nil_append] at htake hdrop
  simp only [skipWhile, skipTo, htake, hdrop, List.foldl_nil]

theorem next_of_unsupported {cursor after : Cursor} {c : Char} {span : Span}
    (h : cursor.next = (.error (.unsupported c span), after)) :
    after.next = (.error (.unsupported c span), after) := by
  have hafter : (cursor.skipWhile Text.isBlank).read.2 = cursor.skipWhile Text.isBlank :=
    read_of_unsupported (congrArg Prod.fst h)
  obtain rfl : cursor.skipWhile Text.isBlank = after := hafter.symm.trans (congrArg Prod.snd h)
  rw [next, skipWhile_skipWhile]
  exact h

theorem next_of_isLast {cursor : Cursor} (h : isLast cursor.next.1 = true) :
    cursor.next.2.next = cursor.next := by
  rcases hnext : cursor.next with ⟨error | token, after⟩
  · rw [hnext] at h
    cases error with
    | unsupported c span => exact next_of_unsupported hnext
    | invalidEscape | multiLine => cases h
  · rw [hnext] at h
    exact next_of_eof hnext (by simpa [isLast] using h)

theorem next_after_of_isLast {cursor : Cursor} {calls : Nat} (h : isLast (cursor.answer calls) = true)
    {later : Nat} (hlater : calls < later) : (cursor.after later).next = (cursor.after calls).next := by
  induction hlater with
  | refl => exact next_of_isLast h
  | step _ ih =>
    rw [after, ih]
    exact next_of_isLast h

theorem Gives.length_le {cursor : Cursor} {tokens : List Token} {last : Except LexError Token}
    (h : cursor.Gives tokens last) : tokens.length ≤ cursor.rest.length := by
  induction h with
  | last => exact Nat.zero_le _
  | @token cursor after token tokens last hnext hkind _ ih =>
    have hshorter := length_rest_next_lt (congrArg Prod.fst hnext) hkind
    rw [hnext] at hshorter
    exact Nat.lt_of_le_of_lt ih hshorter

theorem Gives.answers {cursor : Cursor} {tokens : List Token} {last : Except LexError Token}
    (h : cursor.Gives tokens last) :
    (∀ calls < tokens.length, ∃ token, cursor.answer calls = .ok token ∧ token.kind ≠ .eof) ∧
      cursor.answer tokens.length = last ∧ (∀ token, last = .ok token → token.kind = .eof) ∧
      (List.range (tokens.length + 1)).mapM cursor.answer = last.map fun token => tokens ++ [token] := by
  induction h with
  | @last cursor after last hnext hends =>
    have hanswer : cursor.answer 0 = last := congrArg Prod.fst hnext
    refine ⟨fun calls hcalls => absurd hcalls (Nat.not_lt_zero calls), hanswer, hends, ?_⟩
    rw [List.length_nil, List.range_one, List.mapM_cons, hanswer]
    cases last <;> rfl
  | @token cursor after token tokens last hnext hkind _ ih =>
    obtain ⟨hbefore, hlast, hends, hall⟩ := ih
    obtain rfl : cursor.next.2 = after := congrArg Prod.snd hnext
    have hfirst : cursor.answer 0 = .ok token := congrArg Prod.fst hnext
    refine ⟨fun calls hcalls => ?_, (cursor.answer_next _).symm.trans hlast, hends, ?_⟩
    · cases calls with
      | zero => exact ⟨token, hfirst, hkind⟩
      | succ calls =>
        rw [← answer_next]
        exact hbefore calls (Nat.lt_of_succ_lt_succ hcalls)
    · have hlater : cursor.answer ∘ Nat.succ = cursor.next.2.answer :=
        funext fun calls => (cursor.answer_next calls).symm
      rw [List.range_succ_eq_map, List.mapM_cons, hfirst, List.mapM_map, hlater, List.length_cons, hall]
      cases last <;> rfl

end Cursor

/-- However often the lexer is asked for a token, its position tells how much of the source was passed and
what follows, and it goes forward only. A request passes something unless it is the last that is answered in
a new way: with the end of input, or with a character that begins no token. Later ones give the same answer
and leave the lexer where it is. So the tokens of a source take one request more than it has characters at
the most. -/
theorem requests_consistent (source : String) :
    (∀ calls, ((Cursor.ofSource source).after calls).Consistent source ∧
      ((Cursor.ofSource source).after calls).position.offset ≤
        ((Cursor.ofSource source).after (calls + 1)).position.offset ∧
      (Cursor.isLast ((Cursor.ofSource source).answer calls) = false →
        ((Cursor.ofSource source).after calls).position.offset <
          ((Cursor.ofSource source).after (calls + 1)).position.offset) ∧
      (Cursor.isLast ((Cursor.ofSource source).answer calls) = true → ∀ later > calls,
        (Cursor.ofSource source).answer later = (Cursor.ofSource source).answer calls ∧
        (Cursor.ofSource source).after (later + 1) = (Cursor.ofSource source).after (calls + 1))) ∧
    ∃ calls ≤ source.length,
      (∀ before < calls, ∃ token, (Cursor.ofSource source).answer before = .ok token ∧ token.kind ≠ .eof) ∧
      (∀ token, (Cursor.ofSource source).answer calls = .ok token → token.kind = .eof) ∧
      tokenize source = (List.range (calls + 1)).mapM (Cursor.ofSource source).answer := by
  have hstart := Cursor.standsIn_ofSource source
  have hlength : (Cursor.ofSource source).rest.length = source.length := String.length_toList
  have htokenize : tokenize source = (TokenStream.ofCursor (.ofSource source)).toList := rfl
  rw [htokenize]
  generalize Cursor.ofSource source = lexer at hstart hlength ⊢
  have hstands : ∀ calls, (lexer.after calls).StandsIn source := hstart.after
  constructor
  · intro calls
    have hoffset := (hstands calls).offset_eq
    have hmoved := (hstands (calls + 1)).offset_eq
    refine ⟨(hstands calls).consistent, ?_, fun hlast => ?_, fun hlast later hlater => ?_⟩
    · have hle : (lexer.after (calls + 1)).rest.length ≤ (lexer.after calls).rest.length :=
        Cursor.length_rest_next_le _
      omega
    · have hlt : (lexer.after (calls + 1)).rest.length < (lexer.after calls).rest.length :=
        Cursor.length_rest_next_lt_of_isLast hlast
      omega
    · have hnext := Cursor.next_after_of_isLast hlast hlater
      exact ⟨congrArg Prod.fst hnext, congrArg Prod.snd hnext⟩
  · have hgives := Cursor.gives_ofCursor lexer
    obtain ⟨hbefore, hlast, hends, hall⟩ := hgives.answers
    refine ⟨_, ?_, hbefore, ?_, ?_⟩
    · rw [← hlength]
      exact hgives.length_le
    · rw [hlast]
      exact hends
    · rw [hall]
      rfl

/-- Behind an escape that does not exist the lexer goes on with its letter. -/
example : (List.range 3).map (Cursor.ofSource "\"\\q\"").answer =
    [.error (.invalidEscape 'q' ⟨0, 2, 3⟩), .ok ⟨.identifier, "q", ⟨0, 2, 3⟩⟩,
      .ok ⟨.string, "", ⟨0, 3, 4⟩⟩] := by
  cbv

end MonkeyLang
