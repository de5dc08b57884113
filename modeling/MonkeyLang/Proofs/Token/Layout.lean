import Mathlib.Data.List.Induction
import MonkeyLang.Proofs.Token.Places
import MonkeyLang.Token.Layout

namespace MonkeyLang

theorem Lexical.unique {front rest front' rest' : List Char} {l : Lexeme} (h : Lexical front rest l)
    (h' : Lexical front' rest' l) (happend : front ++ rest = front' ++ rest') :
    front = front' ∧ rest = rest' := by
  have hspelled := h.spelled
  have hspelled' := h'.spelled
  unfold Lexeme.Spelled at hspelled hspelled'
  split at hspelled
  next hkind =>
    rw [if_pos hkind] at hspelled'
    obtain ⟨inner, rfl, hliteral⟩ := hspelled
    obtain ⟨inner', rfl, hliteral'⟩ := hspelled'
    have hinner : inner ++ rest = inner' ++ rest' := (List.cons.inj happend).2
    have hread := Cursor.readText_literal hliteral ⟨0, 0, 0⟩
    rw [hinner, Cursor.readText_literal hliteral'] at hread
    obtain rfl : rest' = rest := congrArg (fun result => result.2.rest) hread
    exact ⟨List.append_cancel_right happend, rfl⟩
  next hkind =>
    rw [if_neg hkind] at hspelled'
    rw [hspelled, hspelled'] at happend
    exact ⟨hspelled.trans hspelled'.symm, List.append_cancel_left happend⟩

theorem cut_blank {passed rest : List Char} {c : Char} {ls : List Lexeme} {ending : Option LexError}
    (hc : Text.isBlank c = true) :
    Cut passed (c :: rest) ls ending ↔ Cut (passed ++ [c]) rest ls ending := by
  refine ⟨fun h => ?_, .blank hc⟩
  generalize htext : c :: rest = text at h
  cases h with
  | stop => cases htext
  | blank _ h =>
    cases htext
    exact h
  | lexeme hlongest h =>
    obtain ⟨⟨d, tail, rfl, hd⟩, -⟩ := hlongest.lexical.shape.first
    cases htext
    cases hc.symm.trans hd
  | unsupported _ hblank =>
    cases htext
    cases hc.symm.trans hblank
  | invalidEscape | multiLine =>
    cases htext
    cases hc

theorem cut_blanks {passed gap rest : List Char} {ls : List Lexeme} {ending : Option LexError}
    (hgap : ∀ c ∈ gap, Text.isBlank c = true) :
    Cut passed (gap ++ rest) ls ending ↔ Cut (passed ++ gap) rest ls ending := by
  induction gap generalizing passed with
  | nil => simp
  | cons c gap ih =>
    obtain ⟨hc, hgap⟩ := List.forall_mem_cons.mp hgap
    rw [List.cons_append, cut_blank hc, ih hgap, List.append_assoc, List.singleton_append]

theorem cut_lexeme {passed front rest : List Char} {l : Lexeme} {ls : List Lexeme}
    {ending : Option LexError} (h : Lexical front rest l) :
    Cut passed (front ++ rest) (l :: ls) ending ↔
      Longest front rest l ∧ Cut (passed ++ front) rest ls ending := by
  refine ⟨fun hcut => ?_, fun ⟨hlongest, hcut⟩ => .lexeme hlongest hcut⟩
  generalize htext : front ++ rest = text at hcut
  cases hcut with
  | blank hblank =>
    obtain ⟨⟨c, tail, rfl, hc⟩, -⟩ := h.shape.first
    cases htext
    cases hc.symm.trans hblank
  | lexeme hlongest hcut =>
    obtain ⟨rfl, rfl⟩ := h.unique hlongest.lexical htext
    exact ⟨hlongest, hcut⟩

theorem cut_of_tokenize {source : String} {tokens : List Token} {ls : List Lexeme}
    (h : tokenize source = .ok tokens) (hls : tokens.map Token.lexeme = ls ++ [⟨.eof, ""⟩]) :
    Cut [] source.toList ls none := by
  obtain ⟨ls', ending, hcut⟩ := exists_cut [] source.toList
  cases ending with
  | some error => cases h.symm.trans hcut.tokenize
  | none =>
    obtain ⟨tokens', htokens', hls'⟩ := hcut.tokenize
    obtain rfl := Except.ok.inj (h.symm.trans htokens')
    obtain rfl := List.append_cancel_right (hls.symm.trans hls')
    exact hcut

theorem lawful_of_tokenize {source : String} {tokens : List Token} (h : tokenize source = .ok tokens) :
    ∀ token ∈ tokens, token.lexeme.Lawful := by
  obtain ⟨body, eof, rfl, hstream, heof, -⟩ := ofSource_of_tokenize h
  have hlawful : ∀ token ∈ (TokenStream.ofSource source).tokens, token.lexeme.Lawful :=
    TokenStream.lawful_ofCursor _
  rw [hstream] at hlawful
  refine List.forall_mem_append.mpr ⟨hlawful, List.forall_mem_singleton.mpr ?_⟩
  rw [Token.lexeme, heof]
  trivial

theorem Token.lexical {token : Token} (h : token.lexeme.Lawful) (hkind : token.kind ≠ .eof)
    (rest : List Char) : Lexical token.text.toList rest token.lexeme := by
  obtain ⟨kind, literal, span⟩ := token
  have hfixed (hspelling : kind.spelling? = some literal) : Lexical literal.toList rest ⟨kind, literal⟩ := by
    rw [← String.ofList_toList (s := literal)] at hspelling
    have := Lexical.fixed rest hspelling
    rwa [String.ofList_toList] at this
  cases kind with
  | eof => exact absurd rfl hkind
  | identifier =>
    have hname : IsName literal := h
    have := (Shape.word rest hname.nonempty hname.letters).lexical
    rwa [String.ofList_toList, hname.word] at this
  | integer =>
    have := (Shape.digits rest h.1 h.2).lexical
    rwa [String.ofList_toList] at this
  | string =>
    have := Lexical.string (.closed rest (decodes_escapeChars literal.toList))
      (newline_notMem_escaped literal.toList)
    rwa [String.ofList_toList, ← toList_literal] at this
  | _ => exact hfixed h

theorem Token.text_ne_nil {token : Token} (h : token.lexeme.Lawful) (hkind : token.kind ≠ .eof) :
    token.text.toList ≠ [] :=
  (token.lexical h hkind []).shape.ne_nil

namespace Layout

def lines (tokens : List Token) : Array String :=
  tokens.foldl place #[""]

def width (tokens : List Token) (line : Nat) : Nat :=
  ((lines tokens)[line]?.getD "").length

theorem lines_append (tokens : List Token) (token : Token) :
    lines (tokens ++ [token]) = place (lines tokens) token := by
  rw [lines, List.foldl_append]
  rfl

theorem size_place (ls : Array String) (token : Token) :
    (place ls token).size = max ls.size (token.span.line + 1) := by
  simp only [place, Array.size_modify, Array.size_append, Array.size_replicate]
  omega

theorem getD_padded (ls : Array String) (count line : Nat) :
    (ls ++ Array.replicate count "")[line]?.getD "" = ls[line]?.getD "" := by
  rw [Array.getElem?_append]
  split
  · rfl
  next hline =>
    rw [Array.getElem?_replicate, Array.getElem?_eq_none (Nat.not_lt.mp hline)]
    split <;> rfl

theorem getD_place (ls : Array String) (token : Token) (line : Nat) :
    (place ls token)[line]?.getD "" =
      if token.span.line = line then append token (ls[line]?.getD "") else ls[line]?.getD "" := by
  rw [place, Array.getElem?_modify]
  split
  next hline =>
    have hsize : line < (ls ++ Array.replicate (token.span.line + 1 - ls.size) "").size := by
      rw [Array.size_append, Array.size_replicate]
      omega
    rw [← getD_padded ls (token.span.line + 1 - ls.size), Array.getElem?_eq_getElem hsize]
    rfl
  next => exact getD_padded _ _ _

theorem size_lines_append (tokens : List Token) (token : Token) :
    (lines (tokens ++ [token])).size = max (lines tokens).size (token.span.line + 1) := by
  rw [lines_append, size_place]

theorem width_append (tokens : List Token) (token : Token) (line : Nat) :
    width (tokens ++ [token]) line =
      if token.span.line = line then max token.span.start (width tokens line) + token.text.length
      else width tokens line := by
  rw [width, lines_append, getD_place]
  split
  · simp only [append, String.length_append, Text.length_spaces, width]
    omega
  · rfl

theorem size_lines_le {tokens : List Token} {line : Nat} (h : ∀ token ∈ tokens, token.span.line ≤ line) :
    (lines tokens).size ≤ line + 1 := by
  induction tokens using List.reverseRecOn with
  | nil => exact Nat.le_add_left 1 line
  | append_singleton tokens token ih =>
    obtain ⟨htokens, htoken⟩ := List.forall_mem_append.mp h
    have hline := htoken token (List.mem_singleton_self token)
    have hsize := ih htokens
    rw [size_lines_append]
    omega

theorem lines_ne_nil (tokens : List Token) : (lines tokens).toList ≠ [] := by
  have hsize : 0 < (lines tokens).size := by
    induction tokens using List.reverseRecOn with
    | nil => exact Nat.zero_lt_one
    | append_singleton tokens token ih =>
      rw [size_lines_append]
      omega
  exact List.ne_nil_of_length_pos hsize

theorem intercalate_concat_append (front : List String) (last more : String) :
    "\n".intercalate (front ++ [last ++ more]) = "\n".intercalate (front ++ [last]) ++ more := by
  by_cases hfront : front = []
  · simp [hfront]
  · rw [String.intercalate_append_of_ne_nil hfront (by simp),
      String.intercalate_append_of_ne_nil hfront (by simp)]
    simp [String.append_assoc]

theorem intercalate_modify_last {ls : List String} {line : Nat} (hline : ls.length = line + 1)
    (more : String → String) :
    "\n".intercalate (ls.modify line fun last => last ++ more last) =
      "\n".intercalate ls ++ more (ls[line]?.getD "") := by
  have hlt : line < ls.length := by omega
  have hsplit : ls = ls.take line ++ [ls[line]] := by
    rw [List.take_append_getElem hlt, ← hline, List.take_length]
  rw [List.modify_eq_take_cons_drop hlt, ← hline, List.drop_length, intercalate_concat_append, ← hsplit,
    List.getElem?_eq_getElem hlt]
  rfl

theorem intercalate_empty_lines {ls : List String} (hls : ls ≠ []) (count : Nat) :
    "\n".intercalate (ls ++ List.replicate count "") =
      "\n".intercalate ls ++ String.ofList (List.replicate count '\n') := by
  induction count with
  | zero => simp
  | succ count ih =>
    rw [List.replicate_succ', ← List.append_assoc,
      String.intercalate_append_of_ne_nil (by simp [hls]) (by simp), ih, List.replicate_succ']
    simp [String.append_assoc]

def gap (before : List Token) (token : Token) : List Char :=
  List.replicate (token.span.line + 1 - (lines before).size) '\n' ++
    List.replicate (token.span.start - width before token.span.line) ' '

theorem intercalate_place {before : List Token} {token : Token}
    (h : ∀ other ∈ before, other.span.line ≤ token.span.line) :
    "\n".intercalate (lines (before ++ [token])).toList =
      "\n".intercalate (lines before).toList ++ String.ofList (gap before token) ++ token.text := by
  have hsize := size_lines_le h
  let count := token.span.line + 1 - (lines before).size
  let padded := lines before ++ Array.replicate count ""
  have hlength : padded.toList.length = token.span.line + 1 := by
    simp only [padded, count, Array.length_toList, Array.size_append, Array.size_replicate]
    omega
  have hplace : (lines (before ++ [token])).toList = padded.toList.modify token.span.line fun last =>
      last ++ (Text.spaces (token.span.start - last.length) ++ token.text) := by
    rw [lines_append, place, Array.toList_modify]
    congr 1
    funext last
    exact String.append_assoc
  have hlast : padded.toList[token.span.line]?.getD "" = (lines before)[token.span.line]?.getD "" := by
    rw [Array.getElem?_toList]
    exact getD_padded (lines before) count token.span.line
  rw [hplace, intercalate_modify_last hlength, hlast, Array.toList_append, Array.toList_replicate,
    intercalate_empty_lines (lines_ne_nil before), gap, String.ofList_append]
  simp only [String.append_assoc]
  rfl

def behind (before : List Token) : List Token → List Char
  | [] => []
  | token :: tokens => gap before token ++ (token.text.toList ++ behind (before ++ [token]) tokens)

theorem toList_intercalate_lines {before tokens : List Token}
    (h : (before ++ tokens).Pairwise fun a b => a.span.line ≤ b.span.line) :
    ("\n".intercalate (lines (before ++ tokens)).toList).toList =
      ("\n".intercalate (lines before).toList).toList ++ behind before tokens := by
  induction tokens generalizing before with
  | nil => simp [behind]
  | cons token tokens ih =>
    have hbefore : ∀ other ∈ before, other.span.line ≤ token.span.line :=
      fun other mem => (List.pairwise_append.mp h).2.2 other mem token List.mem_cons_self
    rw [List.append_cons] at h ⊢
    rw [ih h, intercalate_place hbefore, behind]
    simp only [String.toList_append, String.toList_ofList, List.append_assoc]

theorem toList_detokenize {body : List Token} {eof : Token} (hbody : ∀ token ∈ body, token.kind ≠ .eof)
    (heof : eof.kind = .eof) (h : body.Pairwise fun a b => a.span.line ≤ b.span.line) :
    (detokenize (body ++ [eof])).toList = behind [] body := by
  have hbody' : (body ++ [eof]).takeWhile (·.kind ≠ .eof) = body := by
    rw [List.takeWhile_append_of_pos (by simpa using hbody), List.takeWhile_cons_of_neg (by simpa using heof),
      List.append_nil]
  rw [detokenize, hbody']
  have hlines := @toList_intercalate_lines [] body h
  rw [List.nil_append] at hlines
  exact hlines.trans (by simp [lines])

theorem gap_blank {before : List Token} {token : Token} {c : Char} (h : c ∈ gap before token) :
    Text.isBlank c = true ∧ isFence c = true := by
  rcases List.mem_append.mp h with mem | mem
  · rw [List.eq_of_mem_replicate mem]
    decide
  · rw [List.eq_of_mem_replicate mem]
    decide

theorem gap_eq_nil {before : List Token} {token : Token} :
    gap before token = [] ↔ token.span.line < (lines before).size ∧
      token.span.start ≤ width before token.span.line := by
  rw [gap, List.append_eq_nil_iff, List.replicate_eq_nil_iff, List.replicate_eq_nil_iff]
  omega

theorem longest_behind {a : Token} (ha : a.lexeme.Lawful) (hkind : a.kind ≠ .eof) {before tokens : List Token}
    (h : ∀ token ∈ tokens, token.lexeme.Lawful ∧ token.kind ≠ .eof) :
    Longest a.text.toList (behind before tokens) a.lexeme ↔
      ∀ b rest, tokens = b :: rest → gap before b = [] → Longest a.text.toList b.text.toList a.lexeme := by
  rw [(Token.lexical ha hkind _).longest_iff]
  cases tokens with
  | nil => simp [behind]
  | cons b tokens =>
    obtain ⟨hb, hbkind⟩ := h b List.mem_cons_self
    obtain ⟨c, tail, hc⟩ := List.exists_cons_of_ne_nil (Token.text_ne_nil hb hbkind)
    rw [behind]
    cases hgap : gap before b with
    | nil =>
      constructor
      · rintro hbehind _ _ ⟨⟩ -
        rw [(Token.lexical ha hkind _).longest_iff]
        simpa [hc] using hbehind
      · intro hlongest
        have := (hlongest b tokens rfl hgap).absorbs
        simpa [hc] using this
    | cons d gap =>
      refine iff_of_true (fun e mem => ?_) ?_
      · obtain rfl : d = e := Option.some.inj mem
        have hmem : d ∈ Layout.gap before b := hgap ▸ List.mem_cons_self
        exact TokenKind.absorbs_of_isFence (gap_blank hmem).2 _
      · rintro _ _ ⟨⟩ hnil
        cases hgap.symm.trans hnil

/-- Laid out behind others, the tokens are cut out again just when each that is followed at once is a longest
lexeme in front of what follows. -/
theorem cut_behind {before tokens : List Token} {passed : List Char}
    (h : ∀ token ∈ tokens, token.lexeme.Lawful ∧ token.kind ≠ .eof) :
    Cut passed (behind before tokens) (tokens.map Token.lexeme) none ↔
      ∀ front a b rest, tokens = front ++ a :: b :: rest → gap (before ++ front ++ [a]) b = [] →
        Longest a.text.toList b.text.toList a.lexeme := by
  induction tokens generalizing before passed with
  | nil => exact iff_of_true (.stop passed) (by simp)
  | cons a tokens ih =>
    obtain ⟨⟨ha, hkind⟩, htokens⟩ := List.forall_mem_cons.mp h
    rw [behind, List.map_cons, cut_blanks fun c mem => (gap_blank mem).1, cut_lexeme (Token.lexical ha hkind _),
      longest_behind ha hkind htokens, ih htokens]
    constructor
    · rintro ⟨hfirst, hrest⟩ front b c rest happend hgap
      rcases front with _ | ⟨a', front⟩
      · obtain ⟨rfl, htokens⟩ := List.cons.inj happend
        exact hfirst c rest htokens (by simpa using hgap)
      · obtain ⟨rfl, htokens⟩ := List.cons.inj happend
        exact hrest front b c rest htokens (by simpa using hgap)
    · intro hall
      refine ⟨fun b rest happend hgap => ?_, fun front b c rest happend hgap => ?_⟩
      · exact hall [] a b rest (by rw [happend]; rfl) (by simpa using hgap)
      · exact hall (a :: front) b c rest (by rw [happend]; rfl) (by simpa using hgap)

theorem width_le {tokens : List Token} {line column : Nat}
    (hfits : ∀ token ∈ tokens, token.span.start + token.text.length ≤ token.span.stop)
    (hordered : tokens.Pairwise fun a b => a.span.Precedes b.span)
    (h : ∀ token ∈ tokens, token.span.line = line → token.span.stop ≤ column) : width tokens line ≤ column := by
  induction tokens using List.reverseRecOn generalizing column with
  | nil =>
    have hnil : width [] line = 0 := by
      rcases line with _ | line <;> rfl
    omega
  | append_singleton tokens token ih =>
    obtain ⟨hfits, htoken⟩ := List.forall_mem_append.mp hfits
    obtain ⟨hordered, -, hbefore⟩ := List.pairwise_append.mp hordered
    obtain ⟨htokens, hcolumn⟩ := List.forall_mem_append.mp h
    rw [width_append]
    split
    next hline =>
      have hwidth : width tokens line ≤ token.span.start := by
        refine ih hfits hordered fun other mem hother => ?_
        have := hbefore other mem token (List.mem_singleton_self token)
        unfold Span.Precedes at this
        omega
      have := htoken token (List.mem_singleton_self token)
      have := hcolumn token (List.mem_singleton_self token) hline
      omega
    next => exact ih hfits hordered htokens

theorem width_le_stop {before : List Token} {token : Token}
    (hfits : ∀ other ∈ before ++ [token], other.span.start + other.text.length ≤ other.span.stop)
    (hordered : (before ++ [token]).Pairwise fun a b => a.span.Precedes b.span) :
    width (before ++ [token]) token.span.line ≤ token.span.stop := by
  refine width_le hfits hordered (List.forall_mem_append.mpr ⟨fun other mem hline => ?_, ?_⟩)
  · have hprecedes := (List.pairwise_append.mp hordered).2.2 other mem token List.mem_cons_self
    have htoken := hfits token (by simp)
    unfold Span.Precedes at hprecedes
    omega
  · exact List.forall_mem_singleton.mpr fun _ => Nat.le_refl _

/-- Of two neighbours on one line the second is laid out behind a gap, or the first is a longest lexeme right
in front of it. -/
def Apart (tokens : List Token) : Prop :=
  ∀ before a b after, tokens = before ++ a :: b :: after → a.span.line = b.span.line →
    width (before ++ [a]) b.span.line < b.span.start ∨ Longest a.text.toList b.text.toList a.lexeme

theorem longest_of_eof {a b : Token} (ha : a.lexeme.Lawful) (hkind : a.kind ≠ .eof)
    (hb : b.lexeme = ⟨.eof, ""⟩) : Longest a.text.toList b.text.toList a.lexeme := by
  have htext : b.text = "" := by
    have hbkind : b.kind = .eof := congrArg Lexeme.kind hb
    rw [Token.text, if_neg (by simp [hbkind])]
    exact congrArg Lexeme.literal hb
  rw [htext, (Token.lexical ha hkind _).longest_iff]
  simp

theorem apart_concat {body : List Token} {eof : Token} (heof : eof.lexeme = ⟨.eof, ""⟩)
    (h : ∀ token ∈ body, token.lexeme.Lawful ∧ token.kind ≠ .eof) :
    Apart (body ++ [eof]) ↔ ∀ before a b after, body = before ++ a :: b :: after → a.span.line = b.span.line →
      width (before ++ [a]) b.span.line < b.span.start ∨ Longest a.text.toList b.text.toList a.lexeme := by
  constructor
  · intro hapart before a b after hbody
    exact hapart before a b (after ++ [eof]) (by rw [hbody]; simp)
  · intro hbody before a b after htokens hline
    rcases List.eq_nil_or_concat after with rfl | ⟨after, last, rfl⟩
    · rw [List.append_cons before a [b]] at htokens
      obtain ⟨rfl, hlast⟩ := List.append_inj' htokens rfl
      obtain rfl := List.singleton_inj.mp hlast
      obtain ⟨ha, hkind⟩ := h a (by simp)
      exact .inr (longest_of_eof ha hkind heof)
    · have hsplit : before ++ a :: b :: after.concat last = (before ++ a :: b :: after) ++ [last] := by simp
      rw [hsplit] at htokens
      exact hbody before a b after (List.append_inj' htokens rfl).1 hline

theorem gap_neighbours {before after : List Token} {a b : Token}
    (h : (before ++ a :: b :: after).Pairwise fun a b => a.span.line ≤ b.span.line) :
    gap (before ++ [a]) b = [] ↔
      a.span.line = b.span.line ∧ b.span.start ≤ width (before ++ [a]) b.span.line := by
  obtain ⟨-, hrest, hbefore⟩ := List.pairwise_append.mp h
  have hab : a.span.line ≤ b.span.line := List.rel_of_pairwise_cons hrest List.mem_cons_self
  have hsize : (lines before).size ≤ a.span.line + 1 :=
    size_lines_le fun other mem => hbefore other mem a List.mem_cons_self
  rw [gap_eq_nil, size_lines_append]
  omega

end Layout

end MonkeyLang
