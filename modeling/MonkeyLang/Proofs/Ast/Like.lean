import Mathlib.Data.List.Forall2
import MonkeyLang.Ast.Basic

namespace MonkeyLang

def Like {α : Type} (erase : α → α) (spans : Prop) (a b : α) : Prop :=
  erase a = erase b ∧ (spans → a = b)

theorem Like.refl {α : Type} {erase : α → α} {spans : Prop} (a : α) : Like erase spans a a :=
  ⟨rfl, fun _ => rfl⟩

abbrev Ident.Like := MonkeyLang.Like Ident.erase
abbrev Expr.Like := MonkeyLang.Like Expr.erase
abbrev Stmt.Like := MonkeyLang.Like Stmt.erase
abbrev Block.Like := MonkeyLang.Like Block.erase

variable {spans : Prop}

theorem Like.forall₂ {α : Type} {erase : α → α} {as bs : List α} (h : Like (List.map erase) spans as bs) :
    List.Forall₂ (Like erase spans) as bs := by
  obtain ⟨herase, hspans⟩ := h
  induction as generalizing bs with
  | nil => cases bs with
    | nil => exact .nil
    | cons b bs => cases herase
  | cons a as ih => cases bs with
    | nil => cases herase
    | cons b bs =>
      obtain ⟨hhead, htail⟩ := List.cons.inj herase
      exact .cons ⟨hhead, fun h => (List.cons.inj (hspans h)).1⟩
        (ih htail fun h => (List.cons.inj (hspans h)).2)

theorem Ident.name_of_erase {a b : Ident} (h : a.erase = b.erase) : a.name = b.name :=
  (Ident.mk.inj h).2

inductive Expr.PartsLike (spans : Prop) : Expr → Expr → Prop where
  | name {a b : Ident} : a.name = b.name → PartsLike spans (.name a) (.name b)
  | integer (s t : Span) (value : Nat) : PartsLike spans (.integer s value) (.integer t value)
  | boolean (s t : Span) (value : Bool) : PartsLike spans (.boolean s value) (.boolean t value)
  | string (s t : Span) (value : String) : PartsLike spans (.string s value) (.string t value)
  | unary (s t : Span) (operator : Operator) {a b : Expr} : a.Like spans b →
      PartsLike spans (.unary s operator a) (.unary t operator b)
  | binary (s t : Span) (operator : Operator) {a b a' b' : Expr} : a.Like spans b → a'.Like spans b' →
      PartsLike spans (.binary s operator a a') (.binary t operator b b')
  | function (s t : Span) {params params' : List Ident} {a b : Block} :
      MonkeyLang.Like (List.map Ident.erase) spans params params' → a.Like spans b →
      PartsLike spans (.function s params a) (.function t params' b)
  | call {s t : Span} {a b : Expr} {as bs : List Expr} : (spans → s = t) → a.Like spans b →
      List.Forall₂ (Expr.Like spans) as bs → PartsLike spans (.call s a as) (.call t b bs)
  | array (s t : Span) {as bs : List Expr} : List.Forall₂ (Expr.Like spans) as bs →
      PartsLike spans (.array s as) (.array t bs)
  | index (s t : Span) {a b a' b' : Expr} : a.Like spans b → a'.Like spans b' →
      PartsLike spans (.index s a a') (.index t b b')
  | hash (s t : Span) {as bs : List (Expr × Expr)} :
      List.Forall₂ (fun a b => a.1.Like spans b.1 ∧ a.2.Like spans b.2) as bs →
      PartsLike spans (.hash s as) (.hash t bs)

inductive Stmt.PartsLike (spans : Prop) : Stmt → Stmt → Prop where
  | bind (s t : Span) {x y : Ident} {a b : Expr} : x.name = y.name → a.Like spans b →
      PartsLike spans (.bind s x a) (.bind t y b)
  | ret (s t : Span) {a b : Expr} : a.Like spans b → PartsLike spans (.ret s a) (.ret t b)
  | branch (s t : Span) {a b : Expr} {c d : Block} {o p : Option Block} : a.Like spans b → c.Like spans d →
      Option.Rel (Block.Like spans) o p → PartsLike spans (.branch s a c o) (.branch t b d p)
  | expr (s t : Span) {a b : Expr} : a.Like spans b → PartsLike spans (.expr s a) (.expr t b)

theorem Expr.Like.parts {a b : Expr} (h : a.Like spans b) : a.PartsLike spans b := by
  obtain ⟨herase, hspans⟩ := h
  cases a <;> cases b <;> simp only [Expr.erase, reduceCtorEq] at herase
  case name.name a b =>
    exact .name (Ident.name_of_erase (Expr.name.inj herase))
  case integer.integer =>
    obtain ⟨-, rfl⟩ := Expr.integer.inj herase
    exact .integer _ _ _
  case boolean.boolean =>
    obtain ⟨-, rfl⟩ := Expr.boolean.inj herase
    exact .boolean _ _ _
  case string.string =>
    obtain ⟨-, rfl⟩ := Expr.string.inj herase
    exact .string _ _ _
  case unary.unary =>
    obtain ⟨-, rfl, ha⟩ := Expr.unary.inj herase
    exact .unary _ _ _ ⟨ha, fun h => (Expr.unary.inj (hspans h)).2.2⟩
  case binary.binary =>
    obtain ⟨-, rfl, ha, ha'⟩ := Expr.binary.inj herase
    exact .binary _ _ _ ⟨ha, fun h => (Expr.binary.inj (hspans h)).2.2.1⟩
      ⟨ha', fun h => (Expr.binary.inj (hspans h)).2.2.2⟩
  case function.function =>
    obtain ⟨-, hparams, ha⟩ := Expr.function.inj herase
    exact .function _ _ ⟨hparams, fun h => (Expr.function.inj (hspans h)).2.1⟩
      ⟨ha, fun h => (Expr.function.inj (hspans h)).2.2⟩
  case call.call =>
    obtain ⟨-, ha, has⟩ := Expr.call.inj herase
    rw [eraseAll_eq_map, eraseAll_eq_map] at has
    exact .call (fun h => (Expr.call.inj (hspans h)).1) ⟨ha, fun h => (Expr.call.inj (hspans h)).2.1⟩
      (MonkeyLang.Like.forall₂ ⟨has, fun h => (Expr.call.inj (hspans h)).2.2⟩)
  case array.array =>
    obtain ⟨-, has⟩ := Expr.array.inj herase
    rw [eraseAll_eq_map, eraseAll_eq_map] at has
    exact .array _ _ (MonkeyLang.Like.forall₂ ⟨has, fun h => (Expr.array.inj (hspans h)).2⟩)
  case index.index =>
    obtain ⟨-, ha, ha'⟩ := Expr.index.inj herase
    exact .index _ _ ⟨ha, fun h => (Expr.index.inj (hspans h)).2.1⟩
      ⟨ha', fun h => (Expr.index.inj (hspans h)).2.2⟩
  case hash.hash =>
    obtain ⟨-, has⟩ := Expr.hash.inj herase
    rw [erasePairs_eq_map, erasePairs_eq_map] at has
    refine .hash _ _ ((MonkeyLang.Like.forall₂ ⟨has, fun h => (Expr.hash.inj (hspans h)).2⟩).imp ?_)
    rintro a b ⟨herase, hspans⟩
    exact ⟨⟨congrArg (·.1) herase, fun h => congrArg (·.1) (hspans h)⟩,
      ⟨congrArg (·.2) herase, fun h => congrArg (·.2) (hspans h)⟩⟩

theorem Stmt.Like.parts {a b : Stmt} (h : a.Like spans b) : a.PartsLike spans b := by
  obtain ⟨herase, hspans⟩ := h
  match a, b with
  | .bind .., .bind .. =>
    obtain ⟨-, hname, ha⟩ := Stmt.bind.inj herase
    exact .bind _ _ (Ident.name_of_erase hname) ⟨ha, fun h => (Stmt.bind.inj (hspans h)).2.2⟩
  | .ret .., .ret .. =>
    exact .ret _ _ ⟨(Stmt.ret.inj herase).2, fun h => (Stmt.ret.inj (hspans h)).2⟩
  | .expr .., .expr .. =>
    exact .expr _ _ ⟨(Stmt.expr.inj herase).2, fun h => (Stmt.expr.inj (hspans h)).2⟩
  | .branch _ _ _ none, .branch _ _ _ none =>
    obtain ⟨-, ha, hc, -⟩ := Stmt.branch.inj herase
    exact .branch _ _ ⟨ha, fun h => (Stmt.branch.inj (hspans h)).2.1⟩
      ⟨hc, fun h => (Stmt.branch.inj (hspans h)).2.2.1⟩ .none
  | .branch _ _ _ (some _), .branch _ _ _ (some _) =>
    obtain ⟨-, ha, hc, ho⟩ := Stmt.branch.inj herase
    exact .branch _ _ ⟨ha, fun h => (Stmt.branch.inj (hspans h)).2.1⟩
      ⟨hc, fun h => (Stmt.branch.inj (hspans h)).2.2.1⟩
      (.some ⟨Option.some.inj ho, fun h => Option.some.inj (Stmt.branch.inj (hspans h)).2.2.2⟩)
  | .branch _ _ _ none, .branch _ _ _ (some _) | .branch _ _ _ (some _), .branch _ _ _ none =>
    simp [Stmt.erase] at herase
  | .bind .., .ret .. | .bind .., .expr .. | .ret .., .bind .. | .ret .., .expr ..
  | .expr .., .bind .. | .expr .., .ret .. => cases herase
  | .bind .., .branch _ _ _ o | .ret .., .branch _ _ _ o | .expr .., .branch _ _ _ o
  | .branch _ _ _ o, .bind .. | .branch _ _ _ o, .ret .. | .branch _ _ _ o, .expr .. =>
    cases o <;> cases herase

theorem Block.Like.statements {a b : Block} (h : a.Like spans b) :
    List.Forall₂ (Stmt.Like spans) a.statements b.statements := by
  obtain ⟨herase, hspans⟩ := h
  cases a
  cases b
  rw [Block.erase, Block.erase, Stmt.eraseAll_eq_map, Stmt.eraseAll_eq_map] at herase
  exact MonkeyLang.Like.forall₂ ⟨(Block.mk.inj herase).2, fun h => (Block.mk.inj (hspans h)).2⟩

end MonkeyLang
