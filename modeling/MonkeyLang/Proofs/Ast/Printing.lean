import MonkeyLang.Ast.Printer
import MonkeyLang.Proofs.Ast.Binding
import MonkeyLang.Proofs.Ast.WellFormed
import MonkeyLang.Proofs.Token.Spelling

namespace MonkeyLang
open Grammar

structure Spells (text : String) (lexemes : List Lexeme) : Prop where
  lexes : ∀ {rest : List Char} {more : List Lexeme}, Fenced rest → Lexes rest more →
    Lexes (text.toList ++ rest) (lexemes ++ more)
  head : ∀ c ∈ text.toList.head?, c ≠ '='

theorem head_append {text more : List Char} (htext : ∀ c ∈ text.head?, c ≠ '=')
    (hmore : ∀ c ∈ more.head?, c ≠ '=') : ∀ c ∈ (text ++ more).head?, c ≠ '=' := by
  rcases text with _ | ⟨c, text⟩
  · exact hmore
  · exact htext

theorem head_append_of_some {text : List Char} {c : Char} (h : text.head? = some c) (hc : c ≠ '=')
    (more : List Char) : ∀ d ∈ (text ++ more).head?, d ≠ '=' := by
  rcases text with _ | ⟨_, text⟩
  · cases h
  · cases h
    rintro _ ⟨⟩
    exact hc

theorem spells_name {name : String} (h : IsName name) : Spells name [⟨.identifier, name⟩] where
  lexes hrest hmore := by
    have := Lexes.word h.nonempty h.letters (by rw [h.word]; decide) hrest hmore
    rwa [h.word] at this
  head c mem := by
    rintro rfl
    have := h.letters '=' (List.mem_of_mem_head? mem)
    cases this

theorem spells_word {word : String} {kind : TokenKind} (hne : word.toList ≠ [])
    (hletters : word.toList.all isLetter = true) (hkind : TokenKind.ofWord word = kind)
    (heof : kind ≠ .eof) : Spells word [⟨kind, word⟩] where
  lexes hrest hmore := by
    subst hkind
    exact Lexes.word hne (List.all_eq_true.mp hletters) heof hrest hmore
  head c mem := by
    rintro rfl
    have := List.all_eq_true.mp hletters '=' (List.mem_of_mem_head? mem)
    cases this

theorem spells_integer (value : Nat) : Spells (toString value) [⟨.integer, toString value⟩] where
  lexes hrest hmore := by
    rw [Nat.toString_eq_repr, Nat.toList_repr, Nat.repr_eq_ofList_toDigits]
    exact Lexes.digits Nat.toDigits_ne_nil
      (fun c mem => Nat.isDigit_of_mem_toDigits (by decide) (by decide) mem) hrest hmore
  head c mem := by
    rintro rfl
    rw [Nat.toString_eq_repr, Nat.toList_repr] at mem
    have := Nat.isDigit_of_mem_toDigits (by decide) (by decide) (List.mem_of_mem_head? mem)
    cases this

theorem spells_literal (text : String) : Spells (Text.literal text) [⟨.string, text⟩] where
  lexes _ hmore := Lexes.literal text hmore
  head c mem := by
    obtain rfl : '"' = c := by simpa [Text.literal] using mem
    decide

theorem derives_integer {value : Nat} (h : value ≤ maxInteger) :
    Derives (.expr .atom (.integer default value)) [⟨.integer, toString value⟩] := by
  refine .integer rfl ?_ ?_ h
  · rw [Nat.toString_eq_repr, Nat.length_repr_le_iff (by decide)]
    exact Nat.lt_of_le_of_lt h (by decide +kernel)
  · rw [Nat.toString_eq_repr, Nat.toList_repr, Nat.ofDigitChars_toDigits (by decide) (by decide)]

theorem lexes_sign {kind : TokenKind} {stratum : Stratum} {operator : Operator}
    (h : binary? kind = some (stratum, operator)) {rest : List Char} {more : List Lexeme}
    (hmore : Lexes rest more) :
    Lexes (operator.symbol.toList ++ ' ' :: rest) (⟨kind, operator.symbol⟩ :: more) := by
  have hspace : Lexes (' ' :: rest) more := hmore.blank rfl
  have hhead : ∀ d ∈ (' ' :: rest).head?, d ≠ '=' := by
    rintro _ ⟨⟩
    decide
  cases kind <;> simp only [binary?, Option.some.injEq, Prod.mk.injEq, reduceCtorEq] at h <;>
    obtain ⟨-, rfl⟩ := h
  case plus | minus | asterisk | slash => exact hspace.mark rfl
  case lessThan | greaterThan => exact hspace.alone rfl hhead
  case equal | notEqual | lessThanEqual | greaterThanEqual => exact hspace.grown rfl

theorem lexes_unary {kind : TokenKind} {operator : Operator} (h : unary? kind = some operator)
    {rest : List Char} {more : List Lexeme} (hrest : ∀ d ∈ rest.head?, d ≠ '=')
    (hmore : Lexes rest more) :
    Lexes (operator.symbol.toList ++ rest) (⟨kind, operator.symbol⟩ :: more) := by
  rcases unary?_eq_some h with ⟨rfl, rfl⟩ | ⟨rfl, rfl⟩
  · exact hmore.alone rfl hrest
  · exact hmore.mark rfl

theorem Spells.append {text more : String} {ls ms : List Lexeme} (h : Spells text ls)
    (hmore : Spells more ms) (hfence : ∀ rest, Fenced (more.toList ++ rest)) :
    Spells (text ++ more) (ls ++ ms) where
  lexes {rest behind} hrest hbehind := by
    have := h.lexes (hfence rest) (hmore.lexes hrest hbehind)
    simpa [List.append_assoc] using this
  head := by
    rw [String.toList_append]
    exact head_append h.head hmore.head

theorem Spells.enclose {text : String} {ls : List Lexeme} (h : Spells text ls) {o c : Char}
    {opening closing : TokenKind} (ho : TokenKind.ofMark? o = some opening)
    (hc : TokenKind.ofMark? c = some closing) (hfence : isFence c = true) :
    Spells (String.ofList [o] ++ text ++ String.ofList [c])
      (⟨opening, String.ofList [o]⟩ :: ls ++ [⟨closing, String.ofList [c]⟩]) where
  lexes {rest more} hrest hmore := by
    have := (h.lexes (fenced_cons hfence _) (hmore.mark hc)).mark ho
    simpa [List.append_assoc] using this
  head d mem := by
    obtain rfl : o = d := by simpa using mem
    rintro rfl
    cases ho

theorem fenced_bracket {text : String} (o c : Char) (ho : isFence o = true) (rest : List Char) :
    Fenced ((String.ofList [o] ++ text ++ String.ofList [c]).toList ++ rest) := by
  rw [String.toList_append, String.toList_append, String.toList_ofList, List.singleton_append]
  exact fenced_cons ho _

theorem spells_unary {kind : TokenKind} {operator : Operator} (h : unary? kind = some operator)
    {text : String} {ls : List Lexeme} (hright : Spells text ls) :
    Spells (operator.symbol ++ text) (⟨kind, operator.symbol⟩ :: ls) where
  lexes {rest more} hrest hmore := by
    rw [String.toList_append, List.append_assoc]
    exact lexes_unary h (head_append hright.head hrest.ne_equals) (hright.lexes hrest hmore)
  head := by
    rcases unary?_eq_some h with ⟨-, rfl⟩ | ⟨-, rfl⟩
    all_goals
      rw [String.toList_append]
      exact head_append_of_some rfl (by decide) _

theorem spells_binary {kind : TokenKind} {stratum : Stratum} {operator : Operator}
    (h : binary? kind = some (stratum, operator)) {left right : String} {ls rs : List Lexeme}
    (hleft : Spells left ls) (hright : Spells right rs) :
    Spells (left ++ " " ++ operator.symbol ++ " " ++ right) (ls ++ ⟨kind, operator.symbol⟩ :: rs) where
  lexes {rest more} hrest hmore := by
    have hsign := (lexes_sign h (hright.lexes hrest hmore)).blank (c := ' ') rfl
    have := hleft.lexes (fenced_cons rfl _) hsign
    simpa [List.append_assoc] using this
  head := by
    simp only [String.toList_append, List.append_assoc]
    exact head_append hleft.head (head_append_of_some rfl (by decide) _)

theorem spells_function {params body : String} {ps ls : List Lexeme} (hparams : Spells params ps)
    (hbody : Spells body ls) :
    Spells ("fn(" ++ params ++ ") " ++ body)
      (⟨.fnWord, "fn"⟩ :: ⟨.leftParen, "("⟩ :: ps ++ ⟨.rightParen, ")"⟩ :: ls) where
  lexes {rest more} hrest hmore := by
    have hclose := ((hbody.lexes hrest hmore).blank (c := ' ') rfl).mark (c := ')') rfl
    have hopen := (hparams.lexes (fenced_cons rfl _) hclose).mark (c := '(') rfl
    have hword : Spells "fn" [⟨.fnWord, "fn"⟩] := spells_word (by decide) rfl rfl (by decide)
    have := hword.lexes (fenced_cons rfl _) hopen
    simpa [List.append_assoc] using this
  head := by
    simp only [String.toList_append, List.append_assoc]
    exact head_append_of_some rfl (by decide) _

theorem spells_pair {key value : String} {ks vs : List Lexeme} (hkey : Spells key ks)
    (hvalue : Spells value vs) :
    Spells (key ++ ": " ++ value) (ks ++ ⟨.colon, ":"⟩ :: vs) where
  lexes {rest more} hrest hmore := by
    have hcolon := ((hvalue.lexes hrest hmore).blank (c := ' ') rfl).mark (c := ':') rfl
    have := hkey.lexes (fenced_cons rfl _) hcolon
    simpa [List.append_assoc] using this
  head := by
    simp only [String.toList_append, List.append_assoc]
    exact head_append hkey.head (head_append_of_some rfl (by decide) _)

theorem spells_bind {name value : String} {vs : List Lexeme} (hname : IsName name)
    (hvalue : Spells value vs) :
    Spells ("let " ++ name ++ " = " ++ value)
      (⟨.letWord, "let"⟩ :: ⟨.identifier, name⟩ :: ⟨.assign, "="⟩ :: vs) where
  lexes {rest more} hrest hmore := by
    have hspace : ∀ d ∈ (' ' :: (value.toList ++ rest)).head?, d ≠ '=' := by
      rintro _ ⟨⟩
      decide
    have hsign := (((hvalue.lexes hrest hmore).blank (c := ' ') rfl).alone (c := '=') rfl
      hspace).blank (c := ' ') rfl
    have hnamed := ((spells_name hname).lexes (fenced_cons rfl _) hsign).blank (c := ' ') rfl
    have hword : Spells "let" [⟨.letWord, "let"⟩] := spells_word (by decide) rfl rfl (by decide)
    have := hword.lexes (fenced_cons rfl _) hnamed
    simpa [List.append_assoc] using this
  head := by
    simp only [String.toList_append, List.append_assoc]
    exact head_append_of_some rfl (by decide) _

theorem spells_ret {value : String} {vs : List Lexeme} (hvalue : Spells value vs) :
    Spells ("return " ++ value) (⟨.returnWord, "return"⟩ :: vs) where
  lexes {rest more} hrest hmore := by
    have hword : Spells "return" [⟨.returnWord, "return"⟩] :=
      spells_word (by decide) rfl rfl (by decide)
    have := hword.lexes (fenced_cons rfl _) ((hvalue.lexes hrest hmore).blank (c := ' ') rfl)
    simpa [List.append_assoc] using this
  head := by
    rw [String.toList_append]
    exact head_append_of_some rfl (by decide) _

theorem spells_branch {condition body : String} {cs ls : List Lexeme} (hcondition : Spells condition cs)
    (hbody : Spells body ls) :
    Spells ("if (" ++ condition ++ ") " ++ body)
      (⟨.ifWord, "if"⟩ :: ⟨.leftParen, "("⟩ :: cs ++ ⟨.rightParen, ")"⟩ :: ls) where
  lexes {rest more} hrest hmore := by
    have hclose := ((hbody.lexes hrest hmore).blank (c := ' ') rfl).mark (c := ')') rfl
    have hopen := ((hcondition.lexes (fenced_cons rfl _) hclose).mark (c := '(') rfl).blank (c := ' ') rfl
    have hword : Spells "if" [⟨.ifWord, "if"⟩] := spells_word (by decide) rfl rfl (by decide)
    have := hword.lexes (fenced_cons rfl _) hopen
    simpa [List.append_assoc] using this
  head := by
    simp only [String.toList_append, List.append_assoc]
    exact head_append_of_some rfl (by decide) _

theorem spells_else {text body : String} {ts ls : List Lexeme} (htext : Spells text ts)
    (hbody : Spells body ls) : Spells (text ++ " else " ++ body) (ts ++ ⟨.elseWord, "else"⟩ :: ls) where
  lexes {rest more} hrest hmore := by
    have hword : Spells "else" [⟨.elseWord, "else"⟩] := spells_word (by decide) rfl rfl (by decide)
    have helse := (hword.lexes (fenced_cons rfl _) ((hbody.lexes hrest hmore).blank (c := ' ') rfl)).blank
      (c := ' ') rfl
    have := htext.lexes (fenced_cons rfl _) helse
    simpa [List.append_assoc] using this
  head := by
    simp only [String.toList_append, List.append_assoc]
    exact head_append htext.head (head_append_of_some rfl (by decide) _)

def Prints (phrase : Phrase) (text : String) : Prop :=
  ∃ ls, Derives phrase ls ∧ Spells text ls

variable {text : String}

theorem Prints.loosen {tight : Stratum} {e : Expr} (h : Prints (.expr tight e) text) (loose : Stratum)
    (hlevel : loose.level ≤ tight.level) : Prints (.expr loose e) text := by
  obtain ⟨ls, hderives, hspells⟩ := h
  exact ⟨ls, hderives.loosen hlevel, hspells⟩

theorem prints_atom {e : Expr} {ls : List Lexeme} (hderives : Derives (.expr .atom e) ls)
    (hspells : Spells text ls) : Prints (.expr .suffixed e) text :=
  Prints.loosen ⟨ls, hderives, hspells⟩ .suffixed (by decide)

theorem prints_name {name : String} (h : IsName name) :
    Prints (.expr .suffixed (.name ⟨default, name⟩)) name :=
  prints_atom (@Derives.name ⟨.identifier, name⟩ rfl) (spells_name h)

theorem prints_integer {value : Nat} (h : value ≤ maxInteger) :
    Prints (.expr .suffixed (.integer default value)) (toString value) :=
  prints_atom (derives_integer h) (spells_integer value)

theorem prints_boolean (value : Bool) :
    Prints (.expr .suffixed (.boolean default value)) (if value then "true" else "false") := by
  cases value with
  | true =>
    have hword : Spells "true" [⟨.trueWord, "true"⟩] := spells_word (by decide) rfl rfl (by decide)
    exact prints_atom (.trueWord rfl) hword
  | false =>
    have hword : Spells "false" [⟨.falseWord, "false"⟩] :=
      spells_word (by decide) rfl rfl (by decide)
    exact prints_atom (.falseWord rfl) hword

theorem prints_literal (value : String) :
    Prints (.expr .suffixed (.string default value)) (Text.literal value) :=
  prints_atom (@Derives.string ⟨.string, value⟩ rfl) (spells_literal value)

theorem Prints.group {e : Expr} (h : Prints (.expr .equality e) text) :
    Prints (.expr .suffixed e) ("(" ++ text ++ ")") := by
  obtain ⟨ls, hderives, hspells⟩ := h
  exact prints_atom (.group rfl rfl hderives) (hspells.enclose (o := '(') (c := ')') rfl rfl rfl)

theorem prints_unary {kind : TokenKind} {operator : Operator} (hkind : unary? kind = some operator)
    {right : Expr} (h : Prints (.expr .suffixed right) text) :
    Prints (.expr .suffixed (.unary default operator right)) ("(" ++ operator.symbol ++ text ++ ")") := by
  obtain ⟨rs, hderives, hspells⟩ := h.loosen .unary (by decide)
  have hunary := @Derives.unary _ _ ⟨kind, operator.symbol⟩ _ hkind hderives
  have := Prints.group ⟨_, hunary.loosen (by decide), spells_unary hkind hspells⟩
  simpa [String.append_assoc] using this

theorem prints_binary {kind : TokenKind} {stratum : Stratum} {operator : Operator}
    (hkind : binary? kind = some (stratum, operator)) {left right : Expr} {first second : String}
    (hleft : Prints (.expr .suffixed left) first) (hright : Prints (.expr .suffixed right) second) :
    Prints (.expr .suffixed (.binary default operator left right))
      ("(" ++ first ++ " " ++ operator.symbol ++ " " ++ second ++ ")") := by
  have hlevel : stratum.level ≤ Stratum.suffixed.level ∧ stratum.inner.level ≤ Stratum.suffixed.level := by
    cases kind <;> simp only [binary?, Option.some.injEq, Prod.mk.injEq, reduceCtorEq] at hkind
    all_goals
      obtain ⟨rfl, -⟩ := hkind
      decide
  obtain ⟨ls, hls, hspells⟩ := hleft.loosen stratum hlevel.1
  obtain ⟨rs, hrs, hspells'⟩ := hright.loosen stratum.inner hlevel.2
  have hbinary := @Derives.binary _ _ _ _ _ _ ⟨kind, operator.symbol⟩ hkind hls hrs
  have := Prints.group ⟨_, hbinary.loosen (Nat.zero_le _), spells_binary hkind hspells hspells'⟩
  simpa [String.append_assoc] using this

theorem prints_index {left index : Expr} {first second : String}
    (hleft : Prints (.expr .suffixed left) first) (hindex : Prints (.expr .suffixed index) second) :
    Prints (.expr .suffixed (.index default left index)) ("(" ++ first ++ "[" ++ second ++ "])") := by
  obtain ⟨ls, hls, hspells⟩ := hleft
  obtain ⟨is, his, hspells'⟩ := hindex.loosen .equality (by decide)
  have henclosed := hspells'.enclose (o := '[') (c := ']') rfl rfl rfl
  have hsuffix := hspells.append henclosed (fenced_bracket '[' ']' rfl)
  have hindex := @Derives.index _ _ _ _ ⟨.leftBracket, "["⟩ ⟨.rightBracket, "]"⟩ hls rfl rfl his
  rw [List.append_assoc] at hindex
  have := Prints.group ⟨_, hindex.loosen (Nat.zero_le _), hsuffix⟩
  simpa [String.append_assoc] using this

theorem spells_commas (parts : List (String × List Lexeme)) (h : ∀ part ∈ parts, Spells part.1 part.2) :
    ∃ ls, Commas (parts.map (·.2)) ls ∧ Spells (", ".intercalate (parts.map (·.1))) ls := by
  induction parts with
  | nil => exact ⟨[], .none, fun _ hmore => hmore, by rintro _ ⟨⟩⟩
  | cons part parts ih =>
    obtain ⟨hpart, hparts⟩ := List.forall_mem_cons.mp h
    obtain ⟨text, item⟩ := part
    cases parts with
    | nil => exact ⟨item, .one item, hpart⟩
    | cons next parts =>
      obtain ⟨ls, hcommas, hspells⟩ := ih hparts
      refine ⟨item ++ ⟨.comma, ","⟩ :: ls, .more rfl hcommas, fun hrest hmore => ?_, ?_⟩
      · have hcomma := ((hspells.lexes hrest hmore).blank (c := ' ') rfl).mark (c := ',') rfl
        have := hpart.lexes (fenced_cons rfl _) hcomma
        simpa [String.intercalate_cons_cons, List.append_assoc] using this
      · rw [List.map_cons, List.map_cons, String.intercalate_cons_cons, String.toList_append,
          String.toList_append, List.append_assoc]
        exact head_append hpart.head (head_append_of_some rfl (by decide) _)

theorem prints_commas {α : Type} {phrase : α → Phrase} (parts : List (String × α))
    (h : ∀ part ∈ parts, Prints (phrase part.2) part.1) :
    ∃ (items : List (α × List Lexeme)) (ls : List Lexeme), items.map (·.1) = parts.map (·.2) ∧
      (∀ item ∈ items, Derives (phrase item.1) item.2) ∧ Commas (items.map (·.2)) ls ∧
      Spells (", ".intercalate (parts.map (·.1))) ls := by
  obtain ⟨read, rfl, hread⟩ : ∃ read : List (String × α × List Lexeme),
      parts = read.map (fun part => (part.1, part.2.1)) ∧
      ∀ part ∈ read, Derives (phrase part.2.1) part.2.2 ∧ Spells part.1 part.2.2 := by
    induction parts with
    | nil => exact ⟨[], rfl, by simp⟩
    | cons part parts ih =>
      obtain ⟨⟨ls, hpart⟩, hparts⟩ := List.forall_mem_cons.mp h
      obtain ⟨read, rfl, hread⟩ := ih hparts
      exact ⟨(part.1, part.2, ls) :: read, rfl, List.forall_mem_cons.mpr ⟨hpart, hread⟩⟩
  obtain ⟨ls, hcommas, hspells⟩ := spells_commas (read.map fun part => (part.1, part.2.2))
    (List.forall_mem_map.mpr fun part mem => (hread part mem).2)
  refine ⟨read.map (·.2), ls, by simp [Function.comp_def],
    List.forall_mem_map.mpr fun part mem => (hread part mem).1, ?_, ?_⟩
  · simpa [Function.comp_def] using hcommas
  · simpa [Function.comp_def] using hspells

theorem prints_expressions {es : List Expr} {width : Nat} {level : Int}
    (h : ∀ e ∈ es, Prints (.expr .suffixed e.erase) (e.print width level)) :
    ∃ (items : List (Expr × List Lexeme)) (ls : List Lexeme), items.map (·.1) = Expr.eraseAll es ∧
      (∀ item ∈ items, Derives (.expr .equality item.1) item.2) ∧ Commas (items.map (·.2)) ls ∧
      Spells (", ".intercalate (Expr.printAll width level es)) ls := by
  have hall : ∀ part ∈ es.map fun e => (e.print width level, e.erase),
      Prints (.expr .equality part.2) part.1 :=
    List.forall_mem_map.mpr fun e mem => (h e mem).loosen .equality (by decide)
  have htexts : Expr.printAll width level es = es.map fun e => e.print width level := by
    clear h hall
    induction es with
    | nil => rfl
    | cons e es ih => rw [Expr.printAll, ih, List.map_cons]
  obtain ⟨items, ls, hitems, hderives, hcommas, hspells⟩ := prints_commas _ hall
  rw [List.map_map] at hitems hspells
  exact ⟨items, ls, by rw [hitems, Expr.eraseAll_eq_map]; rfl, hderives, hcommas, by rw [htexts]; exact hspells⟩

theorem prints_array {es : List Expr} {width : Nat} {level : Int}
    (h : ∀ e ∈ es, Prints (.expr .suffixed e.erase) (e.print width level)) :
    Prints (.expr .suffixed (.array default (Expr.eraseAll es)))
      ("[" ++ ", ".intercalate (Expr.printAll width level es) ++ "]") := by
  obtain ⟨items, ls, hitems, hderives, hcommas, hspells⟩ := prints_expressions h
  have harray := @Derives.array items ls ⟨.leftBracket, "["⟩ ⟨.rightBracket, "]"⟩ rfl rfl hderives hcommas
  rw [hitems] at harray
  exact prints_atom harray (hspells.enclose (o := '[') (c := ']') rfl rfl rfl)

theorem prints_call {callee : Expr} (hcallee : Prints (.expr .suffixed callee) text) {es : List Expr}
    {width : Nat} {level : Int} (h : ∀ e ∈ es, Prints (.expr .suffixed e.erase) (e.print width level)) :
    Prints (.expr .suffixed (.call default callee (Expr.eraseAll es)))
      (text ++ "(" ++ ", ".intercalate (Expr.printAll width level es) ++ ")") := by
  obtain ⟨cs, hcs, hspells⟩ := hcallee
  obtain ⟨items, ls, hitems, hderives, hcommas, hspells'⟩ := prints_expressions h
  have hcall := @Derives.call _ items _ _ ⟨.leftParen, "("⟩ ⟨.rightParen, ")"⟩ hcs rfl rfl hderives hcommas
  rw [hitems, List.append_assoc] at hcall
  have henclosed := hspells'.enclose (o := '(') (c := ')') rfl rfl rfl
  have hsuffix := hspells.append henclosed (fenced_bracket '(' ')' rfl)
  refine ⟨_, hcall, ?_⟩
  simpa [String.append_assoc] using hsuffix

theorem prints_pair {key value : Expr} {first second : String}
    (hkey : Prints (.expr .suffixed key) first) (hvalue : Prints (.expr .suffixed value) second) :
    Prints (.pair (key, value)) (first ++ ": " ++ second) := by
  obtain ⟨ks, hks, hspells⟩ := hkey.loosen .equality (by decide)
  obtain ⟨vs, hvs, hspells'⟩ := hvalue.loosen .equality (by decide)
  exact ⟨_, @Derives.pair _ _ _ _ ⟨.colon, ":"⟩ hks rfl hvs, spells_pair hspells hspells'⟩

theorem prints_hash {pairs : List (Expr × Expr)} {width : Nat} {level : Int}
    (h : ∀ pair ∈ pairs, Prints (.expr .suffixed pair.1.erase) (pair.1.print width level) ∧
      Prints (.expr .suffixed pair.2.erase) (pair.2.print width level)) :
    Prints (.expr .suffixed (.hash default (Expr.erasePairs pairs)))
      ("\x7b" ++ ", ".intercalate (Expr.printPairs width level pairs) ++ "\x7d") := by
  have hall : ∀ part ∈ pairs.map fun pair =>
      (pair.1.print width level ++ ": " ++ pair.2.print width level, (pair.1.erase, pair.2.erase)),
      Prints (.pair part.2) part.1 :=
    List.forall_mem_map.mpr fun pair mem => prints_pair (h pair mem).1 (h pair mem).2
  have htexts : Expr.printPairs width level pairs = pairs.map fun pair =>
      pair.1.print width level ++ ": " ++ pair.2.print width level := by
    clear h hall
    induction pairs with
    | nil => rfl
    | cons pair pairs ih => rw [Expr.printPairs, ih, List.map_cons]
  obtain ⟨items, ls, hitems, hderives, hcommas, hspells⟩ := prints_commas _ hall
  rw [List.map_map] at hitems hspells
  have hhash := @Derives.hash items ls ⟨.leftBrace, "\x7b"⟩ ⟨.rightBrace, "\x7d"⟩ rfl rfl hderives hcommas
  rw [hitems] at hhash
  rw [Expr.erasePairs_eq_map, htexts]
  exact prints_atom hhash (hspells.enclose (o := '{') (c := '}') rfl rfl rfl)

def PrintsBlock (b : Block) (text : String) : Prop :=
  ∃ ls, Derives (.body b) ls ∧ Spells text (⟨.leftBrace, "\x7b"⟩ :: ls ++ [⟨.rightBrace, "\x7d"⟩])

theorem prints_function {params : List Ident} (hparams : ∀ param ∈ params, IsName param.name)
    {body : Block} (hbody : PrintsBlock body text) :
    Prints (.expr .suffixed (.function default (params.map Ident.erase) body))
      ("fn(" ++ Ident.printAll params ++ ") " ++ text) := by
  obtain ⟨ls, hderives, hspells⟩ := hbody
  obtain ⟨ps, hcommas, hspells'⟩ : ∃ ps, Commas (params.map fun param => [⟨.identifier, param.name⟩]) ps ∧
      Spells (Ident.printAll params) ps := by
    obtain ⟨ps, hcommas, hspells⟩ := spells_commas
      (params.map fun param => (param.name, [⟨.identifier, param.name⟩]))
      (List.forall_mem_map.mpr fun param mem => spells_name (hparams param mem))
    rw [List.map_map] at hcommas hspells
    exact ⟨ps, hcommas, hspells⟩
  have hfunction := @Derives.function (params.map fun param => ⟨.identifier, param.name⟩) _ _ _
    ⟨.fnWord, "fn"⟩ ⟨.leftParen, "("⟩ ⟨.rightParen, ")"⟩ ⟨.leftBrace, "\x7b"⟩ ⟨.rightBrace, "\x7d"⟩
    rfl rfl rfl rfl rfl (List.forall_mem_map.mpr fun _ _ => rfl) (by simpa [Function.comp_def] using hcommas)
    hderives
  rw [List.map_map] at hfunction
  refine prints_atom hfunction ?_
  simpa using spells_function hspells' hspells

theorem prints_bind {name : String} (hname : IsName name) {value : Expr}
    (hvalue : Prints (.expr .suffixed value) text) :
    Prints (.stmt (.bind default ⟨default, name⟩ value)) ("let " ++ name ++ " = " ++ text) := by
  obtain ⟨vs, hderives, hspells⟩ := hvalue.loosen .equality (by decide)
  exact ⟨_, @Derives.bind ⟨.letWord, "let"⟩ ⟨.identifier, name⟩ ⟨.assign, "="⟩ _ _ rfl rfl rfl hderives,
    spells_bind hname hspells⟩

theorem prints_ret {value : Expr} (hvalue : Prints (.expr .suffixed value) text) :
    Prints (.stmt (.ret default value)) ("return " ++ text) := by
  obtain ⟨vs, hderives, hspells⟩ := hvalue.loosen .equality (by decide)
  exact ⟨_, @Derives.ret ⟨.returnWord, "return"⟩ _ _ rfl hderives, spells_ret hspells⟩

theorem prints_expr {value : Expr} (hvalue : Prints (.expr .suffixed value) text) :
    Prints (.stmt (.expr default value)) text := by
  obtain ⟨vs, hderives, hspells⟩ := hvalue.loosen .equality (by decide)
  exact ⟨vs, .expr hderives, hspells⟩

theorem prints_branch {condition : Expr} {consequence : Block} {first second : String}
    (hcondition : Prints (.expr .suffixed condition) first) (hconsequence : PrintsBlock consequence second) :
    Prints (.stmt (.branch default condition consequence none)) ("if (" ++ first ++ ") " ++ second) := by
  obtain ⟨cs, hcs, hspells⟩ := hcondition.loosen .equality (by decide)
  obtain ⟨ls, hls, hspells'⟩ := hconsequence
  have hbranch := @Derives.branch _ _ _ _ ⟨.ifWord, "if"⟩ ⟨.leftParen, "("⟩ ⟨.rightParen, ")"⟩
    ⟨.leftBrace, "\x7b"⟩ ⟨.rightBrace, "\x7d"⟩ rfl rfl rfl rfl rfl hcs hls
  refine ⟨_, hbranch, ?_⟩
  simpa using spells_branch hspells hspells'

theorem prints_branchElse {condition : Expr} {consequence alternative : Block}
    {first second third : String} (hcondition : Prints (.expr .suffixed condition) first)
    (hconsequence : PrintsBlock consequence second) (halternative : PrintsBlock alternative third) :
    Prints (.stmt (.branch default condition consequence (some alternative)))
      ("if (" ++ first ++ ") " ++ second ++ " else " ++ third) := by
  obtain ⟨cs, hcs, hspells⟩ := hcondition.loosen .equality (by decide)
  obtain ⟨ls, hls, hspells'⟩ := hconsequence
  obtain ⟨as, has, hspells''⟩ := halternative
  have hbranch := @Derives.branchElse _ _ _ _ _ _ ⟨.ifWord, "if"⟩ ⟨.leftParen, "("⟩ ⟨.rightParen, ")"⟩
    ⟨.leftBrace, "\x7b"⟩ ⟨.rightBrace, "\x7d"⟩ ⟨.elseWord, "else"⟩ ⟨.leftBrace, "\x7b"⟩
    ⟨.rightBrace, "\x7d"⟩ rfl rfl rfl rfl rfl rfl rfl rfl hcs hls has
  refine ⟨_, hbranch, ?_⟩
  simpa using spells_else (spells_branch hspells hspells') hspells''

theorem lexes_spaces {text : List Char} (htext : ∀ c ∈ text, c = ' ') {rest : List Char}
    {more : List Lexeme} (h : Lexes rest more) : Lexes (text ++ rest) more := by
  induction text with
  | nil => exact h
  | cons c text ih =>
    obtain ⟨rfl, hspaces⟩ := List.forall_mem_cons.mp htext
    exact (ih hspaces).blank rfl

theorem mem_indentation (width : Nat) (level : Int) :
    ∀ c ∈ (indentation width level).toList, c = ' ' := by
  intro c mem
  rw [indentation, Text.toList_spaces] at mem
  exact List.eq_of_mem_replicate mem

theorem lexes_lines {indent : String} (hindent : ∀ c ∈ indent.toList, c = ' ')
    (parts : List (String × Stmt)) (h : ∀ part ∈ parts, Prints (.stmt part.2) part.1) :
    ∃ ls, Derives (.body (.mk default (parts.map (·.2)))) ls ∧ ∀ {rest more}, Lexes rest more →
      Lexes (("\n".intercalate (parts.map fun part => indent ++ part.1 ++ ";")).toList ++ rest)
        (ls ++ more) := by
  induction parts with
  | nil => exact ⟨[], .empty, fun hmore => hmore⟩
  | cons part parts ih =>
    obtain ⟨⟨item, hderives, hspells⟩, hparts⟩ := List.forall_mem_cons.mp h
    obtain ⟨ls, hbody, hlines⟩ := ih hparts
    refine ⟨item ++ [⟨.semicolon, ";"⟩] ++ ls,
      .statement hderives (by simp) hbody (by simp [continues, binary?]), ?_⟩
    intro rest more hmore
    have hline : ∀ {rest more}, Lexes rest more →
        Lexes ((indent ++ part.1 ++ ";").toList ++ rest) (item ++ [⟨.semicolon, ";"⟩] ++ more) := by
      intro rest more hmore
      have := lexes_spaces hindent (hspells.lexes (fenced_cons rfl _) (hmore.mark (c := ';') rfl))
      simpa [List.append_assoc] using this
    cases parts with
    | nil =>
      cases hbody
      simpa using hline hmore
    | cons next parts =>
      have := hline ((hlines hmore).blank (c := '\n') rfl)
      simpa [String.intercalate_cons_cons, List.append_assoc] using this

theorem Stmt.printLines_eq_map (width : Nat) (level : Int) (ss : List Stmt) :
    Stmt.printLines width level ss =
      ss.map fun s => indentation width level ++ s.print width level ++ ";" := by
  induction ss with
  | nil => rfl
  | cons s ss ih => rw [Stmt.printLines, ih, List.map_cons]

theorem printsBlock {ss : List Stmt} {width : Nat} {level : Int}
    (h : ∀ s ∈ ss, Prints (.stmt s.erase) (s.print width (level + 1))) (span : Span) :
    PrintsBlock (Block.erase (.mk span ss)) (Block.print width level (.mk span ss)) := by
  cases ss with
  | nil =>
    have hempty : Spells "" [] := ⟨fun _ hmore => hmore, by rintro _ ⟨⟩⟩
    exact ⟨[], .empty, hempty.enclose (o := '{') (c := '}') rfl rfl rfl⟩
  | cons s ss =>
    have hall : ∀ part ∈ (s :: ss).map fun s => (s.print width (level + 1), s.erase),
        Prints (.stmt part.2) part.1 := List.forall_mem_map.mpr h
    obtain ⟨ls, hderives, hlines⟩ := lexes_lines (mem_indentation width (level + 1)) _ hall
    rw [List.map_map] at hderives hlines
    refine ⟨ls, ?_, fun {rest more} _ hmore => ?_, ?_⟩
    · rw [Block.erase, Stmt.eraseAll_eq_map]
      exact hderives
    · have hclose := (lexes_spaces (mem_indentation width level)
        (hmore.mark (c := '}') rfl)).blank (c := '\n') rfl
      have := ((hlines hclose).blank (c := '\n') rfl).mark (c := '{') rfl
      rw [Block.print, Stmt.printLines_eq_map]
      simpa [List.append_assoc, Function.comp_def] using this
    · simp only [Block.print, String.toList_append, List.append_assoc]
      exact head_append_of_some rfl (by decide) _

mutual

theorem Expr.prints (width : Nat) (level : Int) (e : Expr) (h : (Node.expr e).WellFormed) :
    Prints (.expr .suffixed e.erase) (e.print width level) := by
  cases e with
  | name ident => exact prints_name h.lawful
  | integer _ value => exact prints_integer h.lawful
  | boolean _ value => exact prints_boolean value
  | string _ value => exact prints_literal value
  | unary _ operator right =>
    obtain ⟨kind, hkind⟩ := h.lawful
    exact prints_unary hkind (Expr.prints width level right (h.child (by simp [Node.children])))
  | binary _ operator left right =>
    obtain ⟨kind, stratum, hkind⟩ := h.lawful
    exact prints_binary hkind (Expr.prints width level left (h.child (by simp [Node.children])))
      (Expr.prints width level right (h.child (by simp [Node.children])))
  | function _ params body =>
    exact prints_function h.lawful (Block.prints width level body (h.child (by simp [Node.children])))
  | call _ callee arguments =>
    exact prints_call (Expr.prints width level callee (h.child (by simp [Node.children])))
      (Expr.prints_all width level arguments fun e mem => h.child (by simp [Node.children, mem]))
  | array _ elements =>
    exact prints_array (Expr.prints_all width level elements fun e mem =>
      h.child (by simp [Node.children, mem]))
  | index _ left index =>
    exact prints_index (Expr.prints width level left (h.child (by simp [Node.children])))
      (Expr.prints width level index (h.child (by simp [Node.children])))
  | hash _ pairs =>
    exact prints_hash (Expr.prints_pairs width level pairs fun pair mem =>
      ⟨h.child (List.mem_flatMap.mpr ⟨pair, mem, by simp⟩),
        h.child (List.mem_flatMap.mpr ⟨pair, mem, by simp⟩)⟩)

theorem Expr.prints_all (width : Nat) (level : Int) (es : List Expr)
    (h : ∀ e ∈ es, (Node.expr e).WellFormed) :
    ∀ e ∈ es, Prints (.expr .suffixed e.erase) (e.print width level) := by
  cases es with
  | nil => simp
  | cons e es =>
    obtain ⟨he, hes⟩ := List.forall_mem_cons.mp h
    exact List.forall_mem_cons.mpr ⟨Expr.prints width level e he, Expr.prints_all width level es hes⟩

theorem Expr.prints_pairs (width : Nat) (level : Int) (pairs : List (Expr × Expr))
    (h : ∀ pair ∈ pairs, (Node.expr pair.1).WellFormed ∧ (Node.expr pair.2).WellFormed) :
    ∀ pair ∈ pairs, Prints (.expr .suffixed pair.1.erase) (pair.1.print width level) ∧
      Prints (.expr .suffixed pair.2.erase) (pair.2.print width level) := by
  match pairs with
  | [] => simp
  | (key, value) :: pairs =>
    obtain ⟨⟨hkey, hvalue⟩, hpairs⟩ := List.forall_mem_cons.mp h
    exact List.forall_mem_cons.mpr ⟨⟨Expr.prints width level key hkey,
      Expr.prints width level value hvalue⟩, Expr.prints_pairs width level pairs hpairs⟩

theorem Stmt.prints (width : Nat) (level : Int) (s : Stmt) (h : (Node.stmt s).WellFormed) :
    Prints (.stmt s.erase) (s.print width level) := by
  match s with
  | .bind _ name value =>
    exact prints_bind h.lawful (Expr.prints width level value (h.child (by simp [Node.children])))
  | .ret _ value =>
    exact prints_ret (Expr.prints width level value (h.child (by simp [Node.children])))
  | .branch _ condition consequence none =>
    exact prints_branch (Expr.prints width level condition (h.child (by simp [Node.children])))
      (Block.prints width level consequence (h.child (by simp [Node.children])))
  | .branch _ condition consequence (some alternative) =>
    exact prints_branchElse (Expr.prints width level condition (h.child (by simp [Node.children])))
      (Block.prints width level consequence (h.child (by simp [Node.children])))
      (Block.prints width level alternative (h.child (by simp [Node.children])))
  | .expr _ value =>
    exact prints_expr (Expr.prints width level value (h.child (by simp [Node.children])))

theorem Stmt.prints_all (width : Nat) (level : Int) (ss : List Stmt)
    (h : ∀ s ∈ ss, (Node.stmt s).WellFormed) :
    ∀ s ∈ ss, Prints (.stmt s.erase) (s.print width level) := by
  cases ss with
  | nil => simp
  | cons s ss =>
    obtain ⟨hs, hss⟩ := List.forall_mem_cons.mp h
    exact List.forall_mem_cons.mpr ⟨Stmt.prints width level s hs, Stmt.prints_all width level ss hss⟩

theorem Block.prints (width : Nat) (level : Int) (b : Block) (h : (Node.block b).WellFormed) :
    PrintsBlock b.erase (b.print width level) := by
  cases b with
  | mk span ss =>
    exact printsBlock (Stmt.prints_all width (level + 1) ss fun s mem =>
      h.child (by simp [Node.children, mem])) span

end

theorem Block.lexes_printProgram (width : Nat) (level : Int) {program : Block}
    (h : (Node.block program).WellFormed) :
    ∃ ls, Derives (.body program.erase) ls ∧ Lexes (program.printProgram width level).toList ls := by
  obtain ⟨span, ss⟩ := program
  have hall : ∀ part ∈ ss.map fun s => (s.print width level, s.erase), Prints (.stmt part.2) part.1 :=
    List.forall_mem_map.mpr (Stmt.prints_all width level ss fun s mem =>
      h.child (by simp [Node.children, mem]))
  have hempty : ∀ c ∈ "".toList, c = ' ' := by simp
  obtain ⟨ls, hderives, hlines⟩ := lexes_lines hempty _ hall
  rw [List.map_map] at hderives hlines
  refine ⟨ls, ?_, ?_⟩
  · rw [Block.erase, Stmt.eraseAll_eq_map]
    exact hderives
  · have := hlines Lexes.nil
    simpa [Block.printProgram, Function.comp_def] using this

end MonkeyLang
