import MonkeyLang.Proofs.Ast.WellFormed

namespace MonkeyLang
open Grammar

def Token.ident (word : Token) : Ident :=
  ⟨word.span, word.literal⟩

inductive Separated : List (List Token) → List Token → Prop where
  | none : Separated [] []
  | one (item : List Token) : Separated [item] item
  | more {item next : List Token} {items : List (List Token)} {comma : Token} {rest : List Token} :
      comma.kind = .comma → Separated (next :: items) rest →
      Separated (item :: next :: items) (item ++ comma :: rest)

theorem Separated.split {items : List (List Token)} {ts : List Token} (h : Separated items ts) :
    ∀ item ∈ items, ∃ front behind, ts = front ++ item ++ behind := by
  induction h with
  | none => simp
  | one item => exact List.forall_mem_singleton.mpr ⟨[], [], by simp⟩
  | @more item _ _ comma rest _ _ ih =>
    refine List.forall_mem_cons.mpr ⟨⟨[], comma :: rest, by simp⟩, fun other mem => ?_⟩
    obtain ⟨front, behind, rfl⟩ := ih other mem
    exact ⟨item ++ comma :: front, behind, by simp⟩

structure Entry where
  key : Expr
  keyTokens : List Token
  colon : Token
  value : Expr
  valueTokens : List Token

namespace Entry

def pair (entry : Entry) : Expr × Expr :=
  (entry.key, entry.value)

def tokens (entry : Entry) : List Token :=
  entry.keyTokens ++ entry.colon :: entry.valueTokens

end Entry

structure Sentence where
  stmt : Stmt
  own : List Token
  semicolons : List Token

def Sentence.tokens (sentence : Sentence) : List Token :=
  sentence.own ++ sentence.semicolons

/-- The tokens spell the node, and each rule's node has the span of one of them. Those of a block end
with the token that closes it. -/
inductive Written : Node → List Token → Prop where
  | name {word : Token} : word.kind = .identifier → Written (.expr (.name word.ident)) [word]
  | integer {digits : Token} {value : Nat} :
      digits.kind = .integer → value = Nat.ofDigitChars 10 digits.literal.toList 0 →
      value ≤ maxInteger → Written (.expr (.integer digits.span value)) [digits]
  | trueWord {word : Token} : word.kind = .trueWord → Written (.expr (.boolean word.span true)) [word]
  | falseWord {word : Token} :
      word.kind = .falseWord → Written (.expr (.boolean word.span false)) [word]
  | string {text : Token} :
      text.kind = .string → Written (.expr (.string text.span text.literal)) [text]
  | unary {operator : Operator} {right : Expr} {sign : Token} {rs : List Token} :
      unary? sign.kind = some operator → Written (.expr right) rs →
      Written (.expr (.unary sign.span operator right)) (sign :: rs)
  | binary {stratum : Stratum} {operator : Operator} {left right : Expr} {ls rs : List Token}
      {sign : Token} :
      binary? sign.kind = some (stratum, operator) → Written (.expr left) ls →
      Written (.expr right) rs →
      Written (.expr (.binary sign.span operator left right)) (ls ++ sign :: rs)
  | group {e : Expr} {ts : List Token} {opening closing : Token} :
      opening.kind = .leftParen → closing.kind = .rightParen → Written (.expr e) ts →
      Written (.expr e) (opening :: ts ++ [closing])
  | function {params : List Token} {body : Block} {ps bs : List Token}
      {word opening closing opened closed : Token} :
      word.kind = .fnWord → opening.kind = .leftParen → closing.kind = .rightParen →
      opened.kind = .leftBrace → closed.kind = .rightBrace →
      (∀ param ∈ params, param.kind = .identifier) → Separated (params.map ([·])) ps →
      Written (.block body) (bs ++ [closed]) →
      Written (.expr (.function word.span (params.map Token.ident) body))
        (word :: opening :: ps ++ closing :: opened :: bs ++ [closed])
  | call {callee : Expr} {arguments : List (Expr × List Token)} {ls as : List Token}
      {opening closing : Token} :
      Written (.expr callee) ls → opening.kind = .leftParen → closing.kind = .rightParen →
      (∀ argument ∈ arguments, Written (.expr argument.1) argument.2) →
      Separated (arguments.map (·.2)) as →
      Written (.expr (.call opening.span callee (arguments.map (·.1)))) (ls ++ opening :: as ++ [closing])
  | index {left index : Expr} {ls is : List Token} {opening closing : Token} :
      Written (.expr left) ls → opening.kind = .leftBracket → closing.kind = .rightBracket →
      Written (.expr index) is →
      Written (.expr (.index opening.span left index)) (ls ++ opening :: is ++ [closing])
  | array {elements : List (Expr × List Token)} {es : List Token} {opening closing : Token} :
      opening.kind = .leftBracket → closing.kind = .rightBracket →
      (∀ element ∈ elements, Written (.expr element.1) element.2) →
      Separated (elements.map (·.2)) es →
      Written (.expr (.array opening.span (elements.map (·.1)))) (opening :: es ++ [closing])
  | hash {entries : List Entry} {es : List Token} {opening closing : Token} :
      opening.kind = .leftBrace → closing.kind = .rightBrace →
      (∀ entry ∈ entries, Written (.expr entry.key) entry.keyTokens) →
      (∀ entry ∈ entries, entry.colon.kind = .colon) →
      (∀ entry ∈ entries, Written (.expr entry.value) entry.valueTokens) →
      Separated (entries.map Entry.tokens) es →
      Written (.expr (.hash opening.span (entries.map Entry.pair))) (opening :: es ++ [closing])
  | bind {word name sign : Token} {value : Expr} {vs : List Token} :
      word.kind = .letWord → name.kind = .identifier → sign.kind = .assign →
      Written (.expr value) vs →
      Written (.stmt (.bind word.span name.ident value)) (word :: name :: sign :: vs)
  | ret {word : Token} {value : Expr} {vs : List Token} :
      word.kind = .returnWord → Written (.expr value) vs →
      Written (.stmt (.ret word.span value)) (word :: vs)
  | branch {condition : Expr} {consequence : Block} {cs bs : List Token}
      {word opening closing opened closed : Token} :
      word.kind = .ifWord → opening.kind = .leftParen → closing.kind = .rightParen →
      opened.kind = .leftBrace → closed.kind = .rightBrace →
      Written (.expr condition) cs → Written (.block consequence) (bs ++ [closed]) →
      Written (.stmt (.branch word.span condition consequence none))
        (word :: opening :: cs ++ closing :: opened :: bs ++ [closed])
  | branchElse {condition : Expr} {consequence alternative : Block} {cs bs as : List Token}
      {word opening closing opened closed otherwise reopened reclosed : Token} :
      word.kind = .ifWord → opening.kind = .leftParen → closing.kind = .rightParen →
      opened.kind = .leftBrace → closed.kind = .rightBrace →
      otherwise.kind = .elseWord → reopened.kind = .leftBrace → reclosed.kind = .rightBrace →
      Written (.expr condition) cs → Written (.block consequence) (bs ++ [closed]) →
      Written (.block alternative) (as ++ [reclosed]) →
      Written (.stmt (.branch word.span condition consequence (some alternative)))
        (word :: opening :: cs ++ closing :: opened :: bs ++ closed :: otherwise :: reopened :: as ++
          [reclosed])
  | expr {value : Expr} {vs : List Token} {first : Token} :
      Written (.expr value) vs → vs.head? = some first → Written (.stmt (.expr first.span value)) vs
  | block {sentences : List Sentence} {first closed : Token} :
      closed.kind = .rightBrace ∨ closed.kind = .eof →
      (∀ sentence ∈ sentences, Written (.stmt sentence.stmt) sentence.own) →
      (∀ sentence ∈ sentences, ∀ token ∈ sentence.semicolons, token.kind = .semicolon) →
      (sentences.flatMap Sentence.tokens ++ [closed]).head? = some first →
      Written (.block (.mk first.span (sentences.map (·.stmt))))
        (sentences.flatMap Sentence.tokens ++ [closed])

namespace Node

def Opened (front : List Token) : Node → Prop
  | .block _ => ∃ opened, front.getLast? = some opened ∧ opened.kind = .leftBrace
  | _ => True

theorem Opened.append {front : List Token} {node : Node} (h : node.Opened front) (before : List Token) :
    node.Opened (before ++ front) := by
  cases node with
  | block =>
    obtain ⟨opened, hlast, hopened⟩ := h
    exact ⟨opened, by rw [List.getLast?_append, hlast]; rfl, hopened⟩
  | _ => trivial

def StretchOf (tokens : List Token) (node : Node) : Prop :=
  ∃ front own behind, tokens = front ++ own ++ behind ∧ Written node own ∧ node.Opened front

theorem StretchOf.widen {tokens : List Token} {node : Node} (h : node.StretchOf tokens)
    (before after : List Token) : node.StretchOf (before ++ tokens ++ after) := by
  obtain ⟨front, own, behind, rfl, hown, hopened⟩ := h
  exact ⟨before ++ front, own, behind ++ after, by simp, hown, hopened.append before⟩

end Node
namespace Written

theorem ne_nil {node : Node} {own : List Token} (h : Written node own) : own ≠ [] := by
  cases h with
  | expr _ hfirst =>
    rintro rfl
    cases hfirst
  | _ => simp

theorem stretch_expr {e : Expr} {ts : List Token} (h : Written (.expr e) ts) (before after : List Token) :
    (Node.expr e).StretchOf (before ++ ts ++ after) :=
  ⟨before, ts, after, rfl, h, trivial⟩

theorem stretch_block {b : Block} {ts : List Token} (h : Written (.block b) ts) {opened : Token}
    (hopened : opened.kind = .leftBrace) (before after : List Token) :
    (Node.block b).StretchOf (before ++ opened :: ts ++ after) :=
  ⟨before ++ [opened], ts, after, by simp, h, opened, by simp, hopened⟩

theorem child {node : Node} {own : List Token} (h : Written node own) :
    ∀ child ∈ node.children, child.StretchOf own := by
  -- In each case the rest of the rule's tokens stands on the two sides of the part.
  induction h with
  | name | integer | trueWord | falseWord | string => simp [Node.children]
  | @unary _ _ sign _ _ hright =>
    refine List.forall_mem_singleton.mpr ?_
    simpa using hright.stretch_expr [sign] []
  | @binary _ _ _ _ ls rs sign _ hleft hright =>
    refine List.forall_mem_cons.mpr ⟨?_, List.forall_mem_singleton.mpr ?_⟩
    · exact hleft.stretch_expr [] (sign :: rs)
    · simpa using hright.stretch_expr (ls ++ [sign]) []
  | @group _ _ opening closing _ _ _ ih =>
    intro child mem
    exact (ih child mem).widen [opening] [closing]
  | @function _ _ ps _ word opening closing _ _ _ _ _ hopened _ _ _ hbody =>
    refine List.forall_mem_singleton.mpr ?_
    simpa using hbody.stretch_block hopened (word :: opening :: ps ++ [closing]) []
  | @call _ _ ls as opening closing hcallee _ _ harguments has =>
    refine List.forall_mem_cons.mpr ⟨?_, ?_⟩
    · simpa using hcallee.stretch_expr [] (opening :: as ++ [closing])
    rw [List.map_map]
    refine List.forall_mem_map.mpr fun argument mem => ?_
    obtain ⟨front, behind, rfl⟩ := has.split argument.2 (List.mem_map_of_mem mem)
    simpa using (harguments argument mem).stretch_expr (ls ++ opening :: front) (behind ++ [closing])
  | @index _ _ ls is opening closing hleft _ _ hindex =>
    refine List.forall_mem_cons.mpr ⟨?_, List.forall_mem_singleton.mpr ?_⟩
    · simpa using hleft.stretch_expr [] (opening :: is ++ [closing])
    · simpa using hindex.stretch_expr (ls ++ [opening]) [closing]
  | @array _ _ opening closing _ _ helements hes =>
    simp only [Node.children, List.map_map]
    refine List.forall_mem_map.mpr fun element mem => ?_
    obtain ⟨front, behind, rfl⟩ := hes.split element.2 (List.mem_map_of_mem mem)
    simpa using (helements element mem).stretch_expr (opening :: front) (behind ++ [closing])
  | @hash entries _ opening closing _ _ hkeys _ hvalues hes =>
    simp only [Node.children, List.flatMap_map]
    intro child hmem
    obtain ⟨entry, mem, hchild⟩ := List.mem_flatMap.mp hmem
    obtain ⟨front, behind, rfl⟩ := hes.split entry.tokens (List.mem_map_of_mem mem)
    simp only [Entry.pair, List.mem_cons, List.not_mem_nil, or_false] at hchild
    rcases hchild with rfl | rfl
    · simpa [Entry.tokens] using (hkeys entry mem).stretch_expr (opening :: front)
        (entry.colon :: entry.valueTokens ++ behind ++ [closing])
    · simpa [Entry.tokens] using (hvalues entry mem).stretch_expr
        (opening :: front ++ entry.keyTokens ++ [entry.colon]) (behind ++ [closing])
  | @bind word name sign _ _ _ _ _ hvalue =>
    refine List.forall_mem_singleton.mpr ?_
    simpa using hvalue.stretch_expr [word, name, sign] []
  | @ret word _ _ _ hvalue =>
    refine List.forall_mem_singleton.mpr ?_
    simpa using hvalue.stretch_expr [word] []
  | @branch _ _ cs bs word opening closing opened closed _ _ _ hopened _ hcondition hconsequence =>
    refine List.forall_mem_cons.mpr ⟨?_, List.forall_mem_singleton.mpr ?_⟩
    · simpa using hcondition.stretch_expr [word, opening] (closing :: opened :: bs ++ [closed])
    · simpa using hconsequence.stretch_block hopened (word :: opening :: cs ++ [closing]) []
  | @branchElse _ _ _ cs bs as word opening closing opened closed otherwise reopened reclosed _ _ _ hopened
      _ _ hreopened _ hcondition hconsequence halternative =>
    refine List.forall_mem_cons.mpr ⟨?_, List.forall_mem_cons.mpr ⟨?_, List.forall_mem_singleton.mpr ?_⟩⟩
    · simpa using hcondition.stretch_expr [word, opening]
        (closing :: opened :: bs ++ closed :: otherwise :: reopened :: as ++ [reclosed])
    · simpa using hconsequence.stretch_block hopened (word :: opening :: cs ++ [closing])
        (otherwise :: reopened :: as ++ [reclosed])
    · simpa using halternative.stretch_block hreopened
        (word :: opening :: cs ++ closing :: opened :: bs ++ [closed, otherwise]) []
  | expr hvalue =>
    refine List.forall_mem_singleton.mpr ?_
    simpa using hvalue.stretch_expr [] []
  | @block sentences _ closed _ hsentences =>
    simp only [Node.children, List.map_map]
    refine List.forall_mem_map.mpr fun sentence mem => ?_
    obtain ⟨before, after, rfl⟩ := List.append_of_mem mem
    refine ⟨before.flatMap Sentence.tokens, sentence.own,
      sentence.semicolons ++ after.flatMap Sentence.tokens ++ [closed], ?_, hsentences sentence mem, trivial⟩
    simp [Sentence.tokens]

theorem within {root node : Node} {tokens : List Token} (h : Written root tokens)
    (within : Node.Within node root) : node = root ∨ node.StretchOf tokens := by
  induction within generalizing tokens with
  | root => exact .inl rfl
  | child mem _ ih =>
    obtain ⟨front, own, behind, rfl, hchild, hopened⟩ := h.child _ mem
    -- Only the child itself has its brace in what stands in front of the child's tokens.
    rcases ih hchild with rfl | hstretch
    · exact .inr ⟨front, own, behind, rfl, hchild, hopened⟩
    · exact .inr (hstretch.widen front behind)

end Written

namespace Node

def idents : Node → List Ident
  | .expr (.name ident) | .stmt (.bind _ ident _) => [ident]
  | .expr (.function _ params _) => params
  | _ => []

/-- The token is the one that says what the node is. A block and a statement that is an expression have
none, and begin with the token. -/
def SpeltBy (own : List Token) (token : Token) : Node → Prop
  | .expr (.name ident) => token.lexeme = ⟨.identifier, ident.name⟩
  | .expr (.integer _ value) =>
    token.kind = .integer ∧ value = Nat.ofDigitChars 10 token.literal.toList 0
  | .expr (.boolean _ value) =>
    token.lexeme = if value then ⟨.trueWord, "true"⟩ else ⟨.falseWord, "false"⟩
  | .expr (.string _ value) => token.lexeme = ⟨.string, value⟩
  | .expr (.unary _ operator _) =>
    token.lexeme = ⟨.bang, "!"⟩ ∧ operator = .not ∨ token.lexeme = ⟨.minus, "-"⟩ ∧ operator = .neg
  | .expr (.binary _ operator _ _) =>
    (binary? token.kind).map (·.2) = some operator ∧ token.literal = operator.symbol
  | .expr (.function ..) => token.lexeme = ⟨.fnWord, "fn"⟩
  | .expr (.call ..) => token.lexeme = ⟨.leftParen, "("⟩
  | .expr (.index ..) | .expr (.array ..) => token.lexeme = ⟨.leftBracket, "["⟩
  | .expr (.hash ..) => token.lexeme = ⟨.leftBrace, "\x7b"⟩
  | .stmt (.bind ..) => token.lexeme = ⟨.letWord, "let"⟩
  | .stmt (.ret ..) => token.lexeme = ⟨.returnWord, "return"⟩
  | .stmt (.branch ..) => token.lexeme = ⟨.ifWord, "if"⟩
  | .stmt (.expr ..) | .block _ => own.head? = some token

end Node

theorem Lexeme.Lawful.literal {l : Lexeme} (h : l.Lawful) {text : String}
    (hspelling : l.kind.spelling? = some text) : l.literal = text := by
  obtain ⟨kind, literal⟩ := l
  cases kind with
  | eof | identifier | integer | string => cases hspelling
  | _ => exact Option.some.inj (Eq.trans (Eq.symm h) hspelling)

theorem Token.lexeme_of_lawful {token : Token} (h : token.lexeme.Lawful) {kind : TokenKind}
    (hkind : token.kind = kind) {text : String} (hspelling : kind.spelling? = some text) :
    token.lexeme = ⟨kind, text⟩ := by
  subst hkind
  rw [← h.literal hspelling]
  rfl

theorem spelling?_of_binary {kind : TokenKind} {stratum : Stratum} {operator : Operator}
    (h : binary? kind = some (stratum, operator)) : kind.spelling? = some operator.symbol := by
  cases kind <;> simp only [binary?, Option.some.injEq, Prod.mk.injEq, reduceCtorEq] at h
  all_goals
    obtain ⟨-, rfl⟩ := h
    rfl

namespace Written

theorem located {node : Node} {own : List Token} (h : Written node own)
    (hlawful : ∀ token ∈ own, token.lexeme.Lawful) :
    ∃ token ∈ own, token.span = node.span ∧ node.SpeltBy own token := by
  induction h with
  | @name word hkind => exact ⟨word, by simp, rfl, congrArg (Lexeme.mk · _) hkind⟩
  | @integer digits _ hkind hvalue => exact ⟨digits, by simp, rfl, hkind, hvalue⟩
  | @trueWord word hkind | @falseWord word hkind =>
    exact ⟨word, by simp, rfl, Token.lexeme_of_lawful (hlawful word (by simp)) hkind rfl⟩
  | @string text hkind => exact ⟨text, by simp, rfl, congrArg (Lexeme.mk · _) hkind⟩
  | @unary _ _ sign _ hsign =>
    have hsign' := hlawful sign (by simp)
    rcases unary?_eq_some hsign with ⟨hkind, rfl⟩ | ⟨hkind, rfl⟩
    · exact ⟨sign, by simp, rfl, .inl ⟨Token.lexeme_of_lawful hsign' hkind rfl, rfl⟩⟩
    · exact ⟨sign, by simp, rfl, .inr ⟨Token.lexeme_of_lawful hsign' hkind rfl, rfl⟩⟩
  | @binary _ _ _ _ _ _ sign hsign =>
    have hliteral := (hlawful sign (by simp)).literal (spelling?_of_binary hsign)
    exact ⟨sign, by simp, rfl, congrArg (Option.map (·.2)) hsign, hliteral⟩
  | @group e _ _ _ _ _ _ ih =>
    -- Parentheses leave an expression the token that it had.
    obtain ⟨token, mem, hspan, hspelt⟩ := ih fun token mem => hlawful token (by simp [mem])
    refine ⟨token, by simp [mem], hspan, ?_⟩
    cases e <;> exact hspelt
  | @function _ _ _ _ word _ _ _ _ hkind
  | @bind word _ _ _ _ hkind
  | @ret word _ _ hkind
  | @branch _ _ _ _ word _ _ _ _ hkind
  | @branchElse _ _ _ _ _ _ word _ _ _ _ _ _ _ hkind =>
    exact ⟨word, by simp, rfl, Token.lexeme_of_lawful (hlawful word (by simp)) hkind rfl⟩
  | @array _ _ opening _ hkind | @hash _ _ opening _ hkind =>
    exact ⟨opening, by simp, rfl, Token.lexeme_of_lawful (hlawful opening (by simp)) hkind rfl⟩
  | @call _ _ _ _ opening _ _ hkind | @index _ _ _ _ opening _ _ hkind =>
    exact ⟨opening, by simp, rfl, Token.lexeme_of_lawful (hlawful opening (by simp)) hkind rfl⟩
  | @expr _ vs first _ hfirst => exact ⟨first, List.mem_of_mem_head? hfirst, rfl, hfirst⟩
  | @block _ first _ _ _ _ hfirst => exact ⟨first, List.mem_of_mem_head? hfirst, rfl, hfirst⟩

theorem idents {node : Node} {own : List Token} (h : Written node own) :
    ∀ ident ∈ node.idents, ∃ token ∈ own, token.kind = .identifier ∧ token.ident = ident := by
  induction h with
  | @name word hkind => exact List.forall_mem_singleton.mpr ⟨word, by simp, hkind, rfl⟩
  | @bind _ name _ _ _ _ hkind => exact List.forall_mem_singleton.mpr ⟨name, by simp, hkind, rfl⟩
  | @function params _ _ _ _ _ _ _ _ _ _ _ _ _ hparams hps =>
    refine List.forall_mem_map.mpr fun param mem => ?_
    obtain ⟨front, behind, rfl⟩ := hps.split [param] (List.mem_map_of_mem mem)
    exact ⟨param, by simp, hparams param mem, rfl⟩
  | group _ _ _ ih =>
    intro ident mem
    obtain ⟨token, htoken, hword⟩ := ih ident mem
    exact ⟨token, by simp [htoken], hword⟩
  | _ => simp [Node.idents]

end Written

end MonkeyLang
