import MonkeyLang.Ast.Parser
import MonkeyLang.Proofs.Ast.Grammar

namespace MonkeyLang

namespace Grammar

def Stratum.level : Stratum → Nat
  | equality => 0
  | comparison => 1
  | sum => 2
  | product => 3
  | unary => 4
  | suffixed => 5
  | atom => 6

def Stratum.precedence : Stratum → Precedence
  | equality => .equality
  | comparison => .comparison
  | sum => .sum
  | product => .product
  | unary => .unary
  | suffixed | atom => .index

theorem Stratum.level_le_inner (stratum : Stratum) : stratum.level ≤ stratum.inner.level := by
  cases stratum <;> decide

theorem Stratum.rank_le_inner (stratum : Stratum) :
    stratum.precedence.rank ≤ stratum.inner.precedence.rank := by
  cases stratum <;> decide

theorem Derives.loosen {loose tight : Stratum} {e : Expr} {ls : List Lexeme}
    (h : loose.level ≤ tight.level) (derives : Derives (.expr tight e) ls) :
    Derives (.expr loose e) ls := by
  obtain ⟨n, hn⟩ := Nat.exists_eq_add_of_le h
  induction n generalizing loose with
  | zero =>
    have : loose = tight := by cases loose <;> cases tight <;> simp_all [Stratum.level]
    exact this ▸ derives
  | succ n ih =>
    have : loose.inner.level = loose.level + 1 := by
      cases loose <;> cases tight <;> simp_all [Stratum.level, Stratum.inner]
    exact .inner (ih (by omega) (by omega))

end Grammar

open Grammar

def Precedence.stratum : Precedence → Stratum
  | lowest => .equality
  | equality => .comparison
  | comparison => .sum
  | sum => .product
  | product | unary | call | index => .unary

theorem Precedence.level_stratum_le (precedence : Precedence) :
    precedence.stratum.level ≤ Stratum.unary.level := by
  cases precedence <;> decide

theorem Precedence.level_stratum_le_of_lt {precedence : Precedence} {stratum : Stratum}
    (h : precedence.rank < stratum.precedence.rank) :
    precedence.stratum.level ≤ stratum.level := by
  cases precedence <;> cases stratum <;> revert h <;> decide

theorem stratum_of_binary {kind : TokenKind} {stratum : Stratum} {operator : Operator}
    (h : binary? kind = some (stratum, operator)) :
    stratum.precedence.stratum = stratum.inner := by
  cases kind <;> simp only [binary?, Option.some.injEq, Prod.mk.injEq, reduceCtorEq] at h
  all_goals
    obtain ⟨rfl, -⟩ := h
    rfl

theorem rank_le_unary_of_binary {kind : TokenKind} {stratum : Stratum} {operator : Operator}
    (h : binary? kind = some (stratum, operator)) :
    stratum.precedence.rank ≤ Precedence.unary.rank := by
  cases kind <;> simp only [binary?, Option.some.injEq, Prod.mk.injEq, reduceCtorEq] at h
  all_goals
    obtain ⟨rfl, -⟩ := h
    decide

theorem rank_lt_of_binary {kind : TokenKind} {stratum : Stratum} {operator : Operator}
    (h : binary? kind = some (stratum, operator)) {precedence : Precedence}
    (hlevel : precedence.stratum.level ≤ stratum.level) :
    precedence.rank < stratum.precedence.rank := by
  cases kind <;> simp only [binary?, Option.some.injEq, Prod.mk.injEq, reduceCtorEq] at h
  all_goals
    obtain ⟨rfl, -⟩ := h
    cases precedence <;> revert hlevel <;> decide

theorem Suffix.ofKind?_binary {kind : TokenKind} {stratum : Stratum} {operator : Operator}
    (h : binary? kind = some (stratum, operator)) :
    Suffix.ofKind? kind = some (.operator operator stratum.precedence) := by
  cases kind <;> simp only [binary?, Option.some.injEq, Prod.mk.injEq, reduceCtorEq] at h
  all_goals
    obtain ⟨rfl, rfl⟩ := h
    rfl

theorem Suffix.ofKind?_cases {kind : TokenKind} {suffix : Suffix}
    (h : Suffix.ofKind? kind = some suffix) :
    (∃ stratum operator, binary? kind = some (stratum, operator) ∧
      suffix = .operator operator stratum.precedence) ∨
    (kind = .leftParen ∧ suffix = .call) ∨ (kind = .leftBracket ∧ suffix = .index) := by
  cases kind <;> simp only [ofKind?, Option.some.injEq, reduceCtorEq] at h <;> subst h
  case leftParen => exact .inr (.inl ⟨rfl, rfl⟩)
  case leftBracket => exact .inr (.inr ⟨rfl, rfl⟩)
  all_goals exact .inl ⟨_, _, rfl, rfl⟩

theorem level_le_of_binary {kind : TokenKind} {loose tight : Stratum} {operator : Operator}
    (h : binary? kind = some (loose, operator))
    (hle : loose.precedence.rank ≤ tight.precedence.rank) : loose.level ≤ tight.level := by
  cases kind <;> simp only [binary?, Option.some.injEq, Prod.mk.injEq, reduceCtorEq] at h
  all_goals
    obtain ⟨rfl, -⟩ := h
    cases tight <;> revert hle <;> decide

theorem level_suffixed_le {stratum : Stratum} (h : Precedence.call.rank ≤ stratum.precedence.rank) :
    Stratum.suffixed.level ≤ stratum.level := by
  cases stratum <;> revert h <;> decide

theorem Suffix.lowest_lt {kind : TokenKind} {suffix : Suffix} (h : Suffix.ofKind? kind = some suffix) :
    Precedence.lowest.rank < suffix.precedence.rank := by
  cases kind <;> simp only [ofKind?, Option.some.injEq, reduceCtorEq] at h
  all_goals
    subst h
    decide

def Settled (precedence : Precedence) (tokens : List Token) : Prop :=
  ∀ token ∈ tokens.head?, ∀ suffix, Suffix.ofKind? token.kind = some suffix →
    suffix.precedence.rank ≤ precedence.rank

theorem settled_nil (precedence : Precedence) : Settled precedence [] := by
  rintro _ ⟨⟩

theorem settled_of_none {token : Token} (h : Suffix.ofKind? token.kind = none)
    (precedence : Precedence) (tokens : List Token) : Settled precedence (token :: tokens) := by
  rintro _ ⟨⟩ suffix hs
  rw [h] at hs
  cases hs

theorem Settled.mono {loose tight : Precedence} {tokens : List Token} (h : Settled loose tokens)
    (hle : loose.rank ≤ tight.rank) : Settled tight tokens :=
  fun token mem suffix hs => Nat.le_trans (h token mem suffix hs) hle

theorem settled_index (tokens : List Token) : Settled .index tokens := by
  intro token _ suffix _
  cases suffix.precedence <;> decide

theorem ofKind?_eq_none_iff {kind : TokenKind} :
    Suffix.ofKind? kind = none ↔ continues kind = false := by
  cases kind <;> decide

theorem settled_lowest_iff {tokens : List Token} :
    Settled .lowest tokens ↔ ∀ token ∈ tokens.head?, continues token.kind = false := by
  constructor
  · intro h token mem
    rw [← ofKind?_eq_none_iff]
    cases hs : Suffix.ofKind? token.kind with
    | none => rfl
    | some suffix => exact absurd (h token mem suffix hs) (Nat.not_le_of_lt (Suffix.lowest_lt hs))
  · intro h token mem suffix hs
    rw [ofKind?_eq_none_iff.mpr (h token mem)] at hs
    cases hs

end MonkeyLang
