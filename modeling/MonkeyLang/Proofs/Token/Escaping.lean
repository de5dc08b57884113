import MonkeyLang.Proofs.Token.Joining
import MonkeyLang.Proofs.Token.Places
import MonkeyLang.Proofs.Token.Requests

namespace MonkeyLang

namespace Cursor

theorem next_blanks {blanks : List Char} (h : ∀ c ∈ blanks, Text.isBlank c = true)
    (passed rest : List Char) :
    next ⟨blanks ++ rest, .behind passed⟩ = next ⟨rest, .behind (passed ++ blanks)⟩ := by
  induction blanks generalizing passed with
  | nil => rw [List.nil_append, List.append_nil]
  | cons c blanks ih =>
    obtain ⟨hc, hblanks⟩ := List.forall_mem_cons.mp h
    rw [List.append_cons passed, ← ih hblanks, ← Position.after_behind, next, next, List.cons_append,
      skipWhile_cons hc]

theorem next_literal (text : String) (passed rest : List Char) :
    next ⟨(Text.literal text).toList ++ rest, .behind passed⟩ =
      (.ok ⟨.string, text, .along passed (Text.literal text).toList⟩,
        ⟨rest, .behind (passed ++ (Text.literal text).toList)⟩) := by
  have hreads := reads_literal (.closed rest (decodes_escapeChars text.toList))
    (newline_notMem_escaped text.toList)
  have hliteral := toList_literal text
  rw [String.ofList_toList, ← List.cons_append, ← hliteral] at hreads
  obtain ⟨token, after, hread, hlexeme⟩ := hreads (.behind passed)
  obtain ⟨rfl, -, hspan⟩ := span_of_read hread
  have htoken : token = ⟨.string, text, .along passed (Text.literal text).toList⟩ :=
    Token.eq_of_lexeme hlexeme hspan
  rw [← htoken, ← hread, hliteral, List.cons_append]
  exact next_cons rfl _ _

/-- Only blanks are left in front of the text. -/
def StandsBefore (text : List Char) (cursor : Cursor) : Prop :=
  ∃ blanks, (∀ c ∈ blanks, Text.isBlank c = true) ∧ cursor.rest = blanks ++ text

theorem StandsBefore.blank {text rest : List Char} {c : Char} {position : Position}
    (h : StandsBefore text ⟨rest, position.after c⟩) (hc : Text.isBlank c = true) :
    StandsBefore text ⟨c :: rest, position⟩ := by
  obtain ⟨blanks, hblanks, rfl⟩ := h
  exact ⟨c :: blanks, List.forall_mem_cons.mpr ⟨hc, hblanks⟩, rfl⟩

end Cursor

theorem Cut.exists_standsBefore {passed text : List Char} {ls : List Lexeme} (h : Cut passed text ls none)
    (hclosed : Text.leavesOpen false text = false) {more : List Char} (hfence : Fenced more) :
    ∃ calls, ((Cursor.mk (text ++ more) (.behind passed)).after calls).StandsBefore more := by
  generalize hending : (none : Option LexError) = ending at h
  induction h with
  | stop => exact ⟨0, [], by simp, rfl⟩
  | @blank passed rest c lexemes ending hblank _ ih =>
    have hquote : ∀ d ∈ [c], d ≠ '"' := by
      rintro d mem rfl
      obtain rfl := List.mem_singleton.mp mem
      cases hblank
    obtain ⟨calls, hstands⟩ := ih (by rwa [← Text.leavesOpen_quoteless hquote]) hending
    rw [← Position.after_behind] at hstands
    cases calls with
    | zero => exact ⟨0, hstands.blank hblank⟩
    | succ calls =>
      refine ⟨calls + 1, ?_⟩
      rw [← Cursor.after_next] at hstands ⊢
      rwa [List.cons_append, Cursor.next, Cursor.skipWhile_cons hblank]
  | @lexeme passed front rest l lexemes ending hlongest _ ih =>
    obtain ⟨hrest, hlexical⟩ := hlongest.lexical.closed hclosed
    obtain ⟨calls, hstands⟩ := ih hrest hending
    obtain ⟨token, after, hread, -⟩ := hlongest.reads_append hfence (hlexical more) (.behind passed)
    obtain ⟨rfl, -, -⟩ := Cursor.span_of_read hread
    obtain ⟨⟨c, tail, rfl, hblank⟩, -⟩ := hlongest.lexical.shape.first
    refine ⟨calls + 1, ?_⟩
    rw [List.append_assoc, List.cons_append] at *
    rwa [← Cursor.after_next, Cursor.next_cons hblank, hread]
  | unsupported | invalidEscape | multiLine => cases hending

theorem length_literal (text : String) : (Text.literal text).length = (Text.escape text).length + 2 := by
  have hquote : "\"".length = 1 := rfl
  rw [Text.literal, String.length_append, String.length_append, hquote]
  omega

theorem tokenize_literal (text : String) : ∃ eof, eof.kind = .eof ∧ tokenize (Text.literal text) =
    .ok [⟨.string, text, ⟨0, 0, (Text.escape text).length + 2⟩⟩, eof] := by
  have hnext := Cursor.next_literal text [] []
  have hsource : Cursor.ofSource (Text.literal text) = ⟨(Text.literal text).toList, .behind []⟩ := rfl
  have hspan : Span.along [] (Text.literal text).toList = ⟨0, 0, (Text.escape text).length + 2⟩ := by
    rw [← length_literal, ← String.length_toList, ← Nat.zero_add (Text.literal text).toList.length]
    rfl
  rw [List.append_nil, hspan] at hnext
  refine ⟨⟨.eof, "", .along (Text.literal text).toList []⟩, rfl, ?_⟩
  rw [tokenize, TokenStream.ofSource, hsource, TokenStream.ofCursor_eq, hnext]
  simp only [List.nil_append, TokenStream.ofCursor_end]
  rfl

/-- Wherever the lexer comes to an escaped text between quotes, it gives the text, in the columns that are
written, and goes on right behind. In front may stand whatever leads it there, such as a source with all its
string literals closed, and behind anything. So a string literal may be spelled in any way: what it stands
for, escaped, gives it again. -/
theorem next_escaped (before text rest : String) :
    let lexer := Cursor.ofSource (before ++ Text.literal text ++ rest)
    let place := Position.behind before.toList
    (∀ calls, (lexer.after calls).StandsBefore (Text.literal text ++ rest).toList →
      (lexer.after calls).next =
        (.ok ⟨.string, text, ⟨place.line, place.column, place.column + ((Text.escape text).length + 2)⟩⟩,
          ⟨rest.toList, .behind (before ++ Text.literal text).toList⟩)) ∧
    ((∃ tokens, tokenize before = .ok tokens) → Text.endsInString before = false →
      ∃ calls, (lexer.after calls).StandsBefore (Text.literal text ++ rest).toList) ∧
    ∀ (source : String) (calls : Nat) (token : Token),
      (Cursor.ofSource source).answer calls = .ok token → token.kind = .string →
      ∃ eof, eof.kind = .eof ∧ tokenize (Text.literal token.literal) =
        .ok [⟨.string, token.literal, ⟨0, 0, (Text.escape token.literal).length + 2⟩⟩, eof] := by
  intro lexer place
  have hsource : (before ++ Text.literal text ++ rest).toList =
      before.toList ++ (Text.literal text ++ rest).toList := by
    simp only [String.toList_append, List.append_assoc]
  refine ⟨fun calls hstands => ?_, fun ⟨tokens, htokens⟩ hclosed => ?_,
    fun _ _ token _ _ => tokenize_literal token.literal⟩
  · obtain ⟨blanks, hblanks, hrest⟩ := hstands
    obtain ⟨passed, hpassed, hposition⟩ := (Cursor.standsIn_ofSource _).after calls
    rw [hsource, hrest, ← List.append_assoc] at hpassed
    have hbefore : before.toList = passed ++ blanks := List.append_cancel_right hpassed
    have hcursor : lexer.after calls = ⟨blanks ++ (Text.literal text ++ rest).toList, .behind passed⟩ := by
      rw [← hrest, ← hposition]
    have hspan : Span.along before.toList (Text.literal text).toList =
        ⟨place.line, place.column, place.column + ((Text.escape text).length + 2)⟩ := by
      rw [← length_literal, ← String.length_toList]
      rfl
    rw [hcursor, Cursor.next_blanks hblanks, ← hbefore, String.toList_append, Cursor.next_literal, hspan,
      String.toList_append]
  · have hfence : Fenced (Text.literal text ++ rest).toList := by
      rw [String.toList_append, toList_literal]
      exact fenced_cons rfl _
    obtain ⟨ls, ending, hcut⟩ := exists_cut [] before.toList
    cases ending with
    | some error => cases htokens.symm.trans hcut.tokenize
    | none =>
      obtain ⟨calls, hstands⟩ := hcut.exists_standsBefore hclosed hfence
      rw [← hsource] at hstands
      exact ⟨calls, hstands⟩

theorem next_escaped_backslash :
    let lexer := Cursor.ofSource ("a < " ++ Text.literal "\"\n\\" ++ "\"b")
    (lexer.after 2).StandsBefore (Text.literal "\"\n\\" ++ "\"b").toList ∧
      (lexer.after 2).next = (.ok ⟨.string, "\"\n\\", ⟨0, 4, 12⟩⟩, ⟨['"', 'b'], ⟨12, 0, 12⟩⟩) := by
  intro lexer
  have hrest : (lexer.after 2).rest = [' '] ++ (Text.literal "\"\n\\" ++ "\"b").toList := by
    cbv
  have hstands : (lexer.after 2).StandsBefore (Text.literal "\"\n\\" ++ "\"b").toList :=
    ⟨[' '], List.forall_mem_singleton.mpr rfl, hrest⟩
  refine ⟨hstands, ((next_escaped "a < " "\"\n\\" "\"b").1 2 hstands).trans ?_⟩
  cbv

end MonkeyLang
