import MonkeyLang.Proofs.Ast.Failure
import MonkeyLang.Proofs.Session.Congruence
import MonkeyLang.Proofs.Text.Excerpts
import MonkeyLang.Proofs.Token.Places

namespace MonkeyLang

def Span.Begins (passed text : List Char) (span : Span) : Prop :=
  ∃ more rest, text = more ++ rest ∧ span.line = (Position.behind (passed ++ more)).line ∧
    span.start = (Position.behind (passed ++ more)).column

theorem Span.begins_along (passed front rest : List Char) : (along passed front).Begins passed (front ++ rest) :=
  ⟨[], front ++ rest, rfl, by simp, by simp⟩

theorem Span.begins_behind (passed text : List Char) : (behind passed).Begins passed text :=
  ⟨[], text, rfl, by simp [behind], by simp [behind]⟩

theorem Span.Begins.append {passed front rest : List Char} {span : Span}
    (h : span.Begins (passed ++ front) rest) : span.Begins passed (front ++ rest) := by
  obtain ⟨more, behind, rfl, hline, hstart⟩ := h
  rw [List.append_assoc] at hline hstart
  exact ⟨front ++ more, behind, by simp, hline, hstart⟩

namespace TokenStream

theorem holds_cons {stream : TokenStream} {first token : Token} :
    (stream.cons first).Holds token ↔ token = first ∨ stream.Holds token := by
  rw [Holds, cons, List.mem_cons, or_assoc]
  rfl

theorem not_holds_error (error : LexError) (token : Token) : ¬ (mk [] (.error error)).Holds token := by
  rintro (h | h) <;> cases h

end TokenStream

theorem Cut.token_begins {passed text : List Char} {lexemes : List Lexeme} {ending : Option LexError}
    (h : Cut passed text lexemes ending) {token : Token}
    (hholds : (TokenStream.ofCursor ⟨text, .behind passed⟩).Holds token) : token.span.Begins passed text := by
  induction h with
  | stop passed =>
    rw [TokenStream.ofCursor_end] at hholds
    rcases hholds with mem | hending
    · cases mem
    · cases hending
      exact Span.begins_along passed [] []
  | @blank passed rest c lexemes ending hblank _ ih =>
    rw [TokenStream.ofCursor_blank hblank, Position.after_behind] at hholds
    exact (ih hholds).append
  | @lexeme passed front rest l lexemes ending hlongest _ ih =>
    obtain ⟨⟨c, tail, rfl, hblank⟩, hkind⟩ := hlongest.lexical.shape.first
    obtain ⟨first, after, hread, rfl⟩ := hlongest.reads (.behind passed)
    obtain ⟨rfl, -, hspan⟩ := Cursor.span_of_read hread
    rw [List.cons_append] at hread hholds
    rw [TokenStream.ofCursor_token hblank hread hkind] at hholds
    rcases TokenStream.holds_cons.mp hholds with rfl | hholds
    · rw [hspan]
      exact Span.begins_along passed _ rest
    · exact (ih hholds).append
  | @unsupported passed c rest hblank hquote hlexical =>
    obtain ⟨after, hread⟩ := Cursor.read_unsupported hquote hlexical (.behind passed)
    rw [TokenStream.ofCursor_error hblank hread] at hholds
    exact absurd hholds (TokenStream.not_holds_error _ _)
  | invalidEscape passed rest hbody he =>
    obtain ⟨after, hread⟩ := Cursor.read_invalidEscape hbody he rest passed
    exact absurd (TokenStream.ofCursor_error (by decide) hread ▸ hholds) (TokenStream.not_holds_error _ _)
  | multiLine passed hliteral hline =>
    obtain ⟨after, hread⟩ := Cursor.read_multiLine hliteral hline passed
    exact absurd (TokenStream.ofCursor_error (by decide) hread ▸ hholds) (TokenStream.not_holds_error _ _)

theorem Cut.error_begins {passed text : List Char} {lexemes : List Lexeme} {error : LexError}
    (h : Cut passed text lexemes (some error)) {span : Span} (hspan : error.span? = some span) :
    span.Begins passed text := by
  generalize hending : some error = ending at h
  induction h with
  | stop => cases hending
  | blank _ _ ih =>
    have hbegins := (ih hending).append
    exact hbegins
  | lexeme _ _ ih => exact (ih hending).append
  | unsupported passed =>
    cases hending
    cases hspan
    exact Span.begins_behind passed _
  | @invalidEscape passed body text e rest =>
    cases hending
    cases hspan
    have hbegins := (Span.begins_behind (passed ++ ('"' :: body ++ ['\\'])) (e :: rest)).append
    simpa using hbegins
  | multiLine =>
    cases hending
    cases hspan

theorem begins_of_parseWithin {depth : Nat} {source : String} {error : ParseError}
    (h : parseWithin depth source = .error error) {span : Span} (hspan : error.span? = some span) :
    span.Begins [] source.toList := by
  obtain ⟨lexemes, ending, hcut⟩ := exists_cut [] source.toList
  have habout := about_of_parseWithin h
  cases error with
  | lexical error =>
    obtain ⟨tokens, last, hstream, -, hends⟩ := hcut.reads
    obtain rfl : last = .error error := (congrArg TokenStream.ending hstream).symm.trans habout
    cases ending with
    | none =>
      obtain ⟨eof, ⟨⟩, -⟩ := hends
    | some other =>
      cases hends
      exact hcut.error_begins hspan
  | unexpected | nestingTooDeep =>
    cases hspan
    exact hcut.token_begins habout
  | tooManyDigits => cases hspan

theorem Span.Begins.line {source : String} {span : Span} (h : span.Begins [] source.toList) :
    ∃ content, (Text.lines source)[span.line]? = some content ∧ span.start ≤ content.length := by
  obtain ⟨passed, rest, hsource, hline, hstart⟩ := h
  obtain ⟨front, hlength, hlines⟩ := lines_behind hsource
  rw [List.nil_append] at hline hstart
  refine ⟨_, hline ▸ hlines, ?_⟩
  rw [hstart, ← hlength]
  simp

/-- If a script cannot be read, and the error is none of the host's, then what is reported has a place: a line of the script
and a column of this line or just behind it. The excerpt shows the line there if it is a row of the script
under the same number. When no other break than the newline comes before the end of the line, it is one, unless
it is the last line and empty. -/
theorem run_error_excerpt {session : Session} {source : String} {error : ParseError}
    (h : (session.run source).1 = .error (.parse error)) (hinternal : error.isInternal = false) :
    ∃ heading line column content,
      (heading = "LexError" ∨ heading = "ParseError") ∧
      (ScriptError.parse error).report source =
        ⟨heading ++ ": " ++ error.message ++ "\n" ++ ScriptError.excerpt source ⟨line, column⟩,
          some ⟨line, column⟩⟩ ∧
      1 ≤ line ∧ (Text.lines source)[line - 1]? = some content ∧
      1 ≤ column ∧ column ≤ content.length + 1 ∧
      (Text.Shows (ScriptError.excerpt source ⟨line, column⟩) line column content ↔
        (Text.rows source)[line - 1]? = some content) ∧
      ((∀ text ∈ (Text.lines source).take line, ∀ c ∈ text.toList, Text.isRowBreak c = false) →
        (Text.Shows (ScriptError.excerpt source ⟨line, column⟩) line column content ↔
          ¬ (line = (Text.lines source).length ∧ content = ""))) := by
  have hparse : parse source = .error error := by
    cases hparse : parse source with
    | ok program =>
      rw [Session.run_of_parse hparse] at h
      exact absurd h (Session.runProgram_ne_refused _ _ _)
    | error other =>
      rw [Session.run_of_parse_error hparse] at h
      cases h
      rfl
  -- Only the errors about limits of the reader have no place.
  have hplace : ∃ span, error.span? = some span := by
    cases error with
    | lexical error => cases error with
      | multiLine => cases hinternal
      | _ => exact ⟨_, rfl⟩
    | unexpected | nestingTooDeep => exact ⟨_, rfl⟩
    | tooManyDigits => cases hinternal
  obtain ⟨span, hspan⟩ := hplace
  obtain ⟨content, hline, hcolumn⟩ := (begins_of_parseWithin hparse hspan).line
  have hshows : Text.Shows (ScriptError.excerpt source ⟨span.line + 1, span.start + 1⟩) (span.line + 1)
      (span.start + 1) content ↔ (Text.rows source)[span.line]? = some content :=
    Text.shows_excerpt_iff (Nat.le_add_left _ _) (Nat.le_add_left _ _) 2
  refine ⟨(ScriptError.parse error).heading, span.line + 1, span.start + 1, content, ?_, ?_, Nat.le_add_left _ _,
    hline, Nat.le_add_left _ _, Nat.succ_le_succ hcolumn, hshows, fun hbreaks => ?_⟩
  · cases error with
    | lexical error => exact .inl (if_neg (Bool.eq_false_iff.mp hinternal))
    | tooManyDigits => cases hinternal
    | unexpected | nestingTooDeep => exact .inr rfl
  · rw [ScriptError.report, ScriptError.reportWith, hspan]
    rfl
  · rw [hshows, Text.getElem?_rows hbreaks hline]
    split
    next hlast => simp [hlast]
    next hlast => simpa using hlast

theorem run_error_excerpt_nameless :
    let source := "let a = 1;\nlet = 2;"
    let error : ParseError := .unexpected (.token .identifier) ⟨.assign, "=", ⟨1, 4, 5⟩⟩
    ((Session.start true).run source).1 = .error (.parse error) ∧
      Text.Shows (ScriptError.excerpt source ⟨2, 5⟩) 2 5 "let = 2;" := by
  intro source error
  have hparse : parse source = .error error := by
    cbv
  have hrun := Session.run_of_parse_error hparse (.start true)
  obtain ⟨heading, line, column, content, -, hreport, -, hline, -, -, -, hshows⟩ :=
    run_error_excerpt hrun rfl
  have hplace : some (Location.mk 2 5) = some ⟨line, column⟩ := congrArg Report.location hreport
  cases hplace
  have hlines : Text.lines source = ["let a = 1;", "let = 2;"] := by
    decide
  rw [hlines] at hline hshows
  cases hline
  exact ⟨hrun, (hshows (by simp [Text.isRowBreak])).mpr (by decide)⟩

/-- A carriage return ends a row and no line, so the excerpt shows the end of the first line for the second
one. -/
theorem run_error_excerpt_carriage :
    let source := "1;\r2;\n@"
    let error : ParseError := .lexical (.unsupported '@' ⟨1, 0, 1⟩)
    ((Session.start true).run source).1 = .error (.parse error) ∧
      ((ScriptError.parse error).report source).location = some ⟨2, 1⟩ ∧
      (Text.lines source)[1]? = some "@" ∧ ¬ Text.Shows (ScriptError.excerpt source ⟨2, 1⟩) 2 1 "@" := by
  intro source error
  have hparse : parse source = .error error := by
    cbv
  have hrun := Session.run_of_parse_error hparse (.start true)
  refine ⟨hrun, rfl, by decide, fun h => ?_⟩
  have hrow := (Text.shows_excerpt_iff (by decide) (by decide) 2).mp h
  exact absurd hrow (by decide)

end MonkeyLang
