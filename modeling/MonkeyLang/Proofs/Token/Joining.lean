import MonkeyLang.Proofs.Token.Munch

namespace MonkeyLang

namespace Text

def leavesOpen : (inside : Bool) → List Char → Bool
  | inside, [] => inside
  | false, c :: rest => leavesOpen (c == '"') rest
  | true, '"' :: rest => leavesOpen false rest
  | true, ['\\'] => true
  | true, '\\' :: _ :: rest => leavesOpen true rest
  | true, _ :: rest => leavesOpen true rest

/-- The text ends inside a string literal without its closing quote. -/
def endsInString (text : String) : Bool :=
  leavesOpen false text.toList

theorem leavesOpen_decodes {body text : List Char} (h : Decodes body text) (rest : List Char) :
    leavesOpen true (body ++ rest) = leavesOpen true rest := by
  induction h with
  | nil => rfl
  | plain hquote hslash _ ih =>
    rw [List.cons_append, leavesOpen, ih]
    · exact hquote
    · rintro rfl
      exact absurd rfl hslash
    · rintro _ _ rfl
      exact absurd rfl hslash
  | escape _ _ ih =>
    rw [List.cons_append, List.cons_append, leavesOpen, ih]

theorem leavesOpen_quoteless {front : List Char} (h : ∀ c ∈ front, c ≠ '"') (rest : List Char) :
    leavesOpen false (front ++ rest) = leavesOpen false rest := by
  induction front with
  | nil => rfl
  | cons c front ih =>
    obtain ⟨hc, hfront⟩ := List.forall_mem_cons.mp h
    have hquote : (c == '"') = false := by simpa using hc
    rw [List.cons_append, leavesOpen, hquote, ih hfront]

end Text

theorem Lexical.closed {front rest : List Char} {l : Lexeme} (h : Lexical front rest l)
    (hclosed : Text.leavesOpen false (front ++ rest) = false) :
    Text.leavesOpen false rest = false ∧ ∀ more, Lexical front (rest ++ more) l := by
  cases h.shape with
  | word _ hne hletters =>
    rw [Text.leavesOpen_quoteless fun c mem => (unmarked_of_isLetter (hletters c mem)).quote] at hclosed
    exact ⟨hclosed, fun _ => (Shape.word _ hne hletters).lexical⟩
  | digits _ hne hdigits =>
    rw [Text.leavesOpen_quoteless fun c mem => (unmarked_of_isDigit (hdigits c mem)).quote] at hclosed
    exact ⟨hclosed, fun _ => (Shape.digits _ hne hdigits).lexical⟩
  | mark _ hmark =>
    rw [Text.leavesOpen_quoteless] at hclosed
    · exact ⟨hclosed, fun _ => (Shape.mark _ hmark).lexical⟩
    · rintro c mem rfl
      obtain rfl := List.mem_singleton.mp mem
      cases hmark
  | alone _ hmark =>
    rw [Text.leavesOpen_quoteless] at hclosed
    · exact ⟨hclosed, fun _ => (Shape.alone _ hmark).lexical⟩
    · rintro c mem rfl
      obtain rfl := List.mem_singleton.mp mem
      cases hmark
  | grown _ hmark =>
    rw [Text.leavesOpen_quoteless] at hclosed
    · exact ⟨hclosed, fun _ => (Shape.grown _ hmark).lexical⟩
    · rintro c mem rfl
      rcases List.mem_cons.mp mem with rfl | mem
      · cases hmark
      · cases List.mem_singleton.mp mem
  | literal hliteral hline =>
    cases hliteral with
    | closed rest hbody =>
      rw [List.cons_append, List.append_assoc, Text.leavesOpen] at hclosed
      have hrest := (Text.leavesOpen_decodes hbody _).symm.trans hclosed
      exact ⟨hrest, fun more => .string (.closed (rest ++ more) hbody) hline⟩
    | unclosed hbody =>
      rw [List.cons_append, Text.leavesOpen] at hclosed
      cases (Text.leavesOpen_decodes hbody _).symm.trans hclosed
    | dropped hbody =>
      rw [List.cons_append, List.append_assoc, Text.leavesOpen] at hclosed
      cases (Text.leavesOpen_decodes hbody _).symm.trans hclosed

theorem Cut.lexes_append {passed text : List Char} {ls : List Lexeme} (h : Cut passed text ls none)
    {more : List Char} (hmore : more = [] ∨ Text.leavesOpen false text = false) (hfence : Fenced more)
    {ms : List Lexeme} (hlexes : Lexes more ms) : Lexes (text ++ more) (ls ++ ms) := by
  generalize hending : (none : Option LexError) = ending at h
  induction h with
  | stop passed => exact hlexes
  | @blank passed rest c lexemes ending hblank _ ih =>
    refine Lexes.blank hblank (ih ?_ hending)
    refine hmore.imp_right fun hclosed => ?_
    have hquote : ∀ d ∈ [c], d ≠ '"' := by
      rintro d mem rfl
      obtain rfl := List.mem_singleton.mp mem
      cases hblank
    rwa [← Text.leavesOpen_quoteless hquote]
  | @lexeme passed front rest l lexemes ending hlongest _ ih =>
    obtain ⟨hrest, hlexical⟩ : (more = [] ∨ Text.leavesOpen false rest = false) ∧
        Lexical front (rest ++ more) l := by
      rcases hmore with rfl | hclosed
      · exact ⟨.inl rfl, by simpa using hlongest.lexical⟩
      · obtain ⟨hrest, hlexical⟩ := hlongest.lexical.closed hclosed
        exact ⟨.inr hrest, hlexical more⟩
    obtain ⟨⟨c, tail, rfl, hblank⟩, hkind⟩ := hlongest.lexical.shape.first
    have hreads := hlongest.reads_append hfence hlexical
    rw [List.append_assoc, List.cons_append, List.cons_append] at *
    exact (ih hrest hending).token hblank hkind hreads
  | unsupported | invalidEscape | multiLine => cases hending

theorem Cut.lexes_line {passed text : List Char} {ls : List Lexeme} (h : Cut passed text ls none)
    (hclosed : Text.leavesOpen false text = false) {passed' line : List Char} {ms : List Lexeme}
    (hline : Cut passed' line ms none) :
    Lexes (text ++ ';' :: '\n' :: line) (ls ++ ⟨.semicolon, ";"⟩ :: ms) := by
  have hlexes := hline.lexes_append (.inl rfl) fenced_nil Lexes.nil
  rw [List.append_nil, List.append_nil] at hlexes
  exact h.lexes_append (.inr hclosed) (fenced_cons rfl _) ((hlexes.blank rfl).mark rfl)

end MonkeyLang
