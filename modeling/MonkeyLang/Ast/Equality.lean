import MonkeyLang.Ast.Basic

namespace MonkeyLang

def Ident.sameAll (as bs : List Ident) : Bool :=
  as.map (·.name) == bs.map (·.name)

theorem Ident.sameAll_iff {as bs : List Ident} :
    Ident.sameAll as bs = true ↔ as.map Ident.erase = bs.map Ident.erase := by
  simp only [Ident.sameAll, beq_iff_eq]
  induction as generalizing bs with
  | nil => cases bs <;> simp
  | cons a as ih => cases bs <;> simp [ih, Ident.erase]

mutual

def Expr.same : Expr → Expr → Bool
  | .name a, .name b => a.name == b.name
  | .integer _ a, .integer _ b => a == b
  | .boolean _ a, .boolean _ b => a == b
  | .string _ a, .string _ b => a == b
  | .unary _ o a, .unary _ p b => o == p && a.same b
  | .binary _ o a c, .binary _ p b d => o == p && a.same b && c.same d
  | .function _ ps a, .function _ qs b => Ident.sameAll ps qs && a.same b
  | .call _ f as, .call _ g bs => f.same g && Expr.sameAll as bs
  | .array _ as, .array _ bs => Expr.sameAll as bs
  | .index _ a i, .index _ b j => a.same b && i.same j
  | .hash _ as, .hash _ bs => Expr.samePairs as bs
  | _, _ => false
termination_by structural a => a

def Expr.sameAll : List Expr → List Expr → Bool
  | [], [] => true
  | a :: as, b :: bs => a.same b && Expr.sameAll as bs
  | _, _ => false
termination_by structural a => a

def Expr.samePairs : List (Expr × Expr) → List (Expr × Expr) → Bool
  | [], [] => true
  | (k, v) :: as, (l, w) :: bs => k.same l && v.same w && Expr.samePairs as bs
  | _, _ => false
termination_by structural a => a

def Stmt.same : Stmt → Stmt → Bool
  | .bind _ x a, .bind _ y b => x.name == y.name && a.same b
  | .ret _ a, .ret _ b => a.same b
  | .branch _ c a none, .branch _ d b none => c.same d && a.same b
  | .branch _ c a (some e), .branch _ d b (some f) => c.same d && a.same b && e.same f
  | .expr _ a, .expr _ b => a.same b
  | _, _ => false
termination_by structural a => a

def Stmt.sameAll : List Stmt → List Stmt → Bool
  | [], [] => true
  | a :: as, b :: bs => a.same b && Stmt.sameAll as bs
  | _, _ => false
termination_by structural a => a

def Block.same : Block → Block → Bool
  | .mk _ as, .mk _ bs => Stmt.sameAll as bs
termination_by structural a => a

end

mutual

theorem Expr.same_iff (a b : Expr) : a.same b = true ↔ a.erase = b.erase := by
  cases a <;> cases b <;> simp [Expr.same, Expr.erase, Ident.erase]
  case unary.unary _ _ x _ _ y => intro _; exact Expr.same_iff x y
  case binary.binary _ _ x z _ _ y w =>
    rw [Expr.same_iff x y, Expr.same_iff z w, and_assoc]
  case function.function _ ps x _ qs y => rw [Ident.sameAll_iff, Block.same_iff x y]
  case call.call _ f as _ g bs => rw [Expr.same_iff f g, Expr.sameAll_iff as bs]
  case array.array _ as _ bs => exact Expr.sameAll_iff as bs
  case index.index _ x i _ y j => rw [Expr.same_iff x y, Expr.same_iff i j]
  case hash.hash _ as _ bs => exact Expr.samePairs_iff as bs
termination_by structural a

theorem Expr.sameAll_iff (as bs : List Expr) :
    Expr.sameAll as bs = true ↔ Expr.eraseAll as = Expr.eraseAll bs := by
  match as, bs with
  | [], [] => simp [Expr.sameAll]
  | [], _ :: _ => simp [Expr.sameAll, Expr.eraseAll]
  | _ :: _, [] => simp [Expr.sameAll, Expr.eraseAll]
  | a :: as, b :: bs =>
    simp [Expr.sameAll, Expr.eraseAll, Expr.same_iff a b, Expr.sameAll_iff as bs]
termination_by structural as

theorem Expr.samePairs_iff (as bs : List (Expr × Expr)) :
    Expr.samePairs as bs = true ↔ Expr.erasePairs as = Expr.erasePairs bs := by
  match as, bs with
  | [], [] => simp [Expr.samePairs]
  | [], (_, _) :: _ => simp [Expr.samePairs, Expr.erasePairs]
  | (_, _) :: _, [] => simp [Expr.samePairs, Expr.erasePairs]
  | (k, v) :: as, (l, w) :: bs =>
    simp [Expr.samePairs, Expr.erasePairs, Expr.same_iff k l, Expr.same_iff v w,
      Expr.samePairs_iff as bs]
termination_by structural as

theorem Stmt.same_iff (a b : Stmt) : a.same b = true ↔ a.erase = b.erase := by
  match a, b with
  | .bind _ _ x, .bind _ _ y => simp [Stmt.same, Stmt.erase, Ident.erase, Expr.same_iff x y]
  | .ret _ x, .ret _ y => simp [Stmt.same, Stmt.erase, Expr.same_iff x y]
  | .branch _ c x none, .branch _ d y none =>
    simp [Stmt.same, Stmt.erase, Expr.same_iff c d, Block.same_iff x y]
  | .branch _ c x (some e), .branch _ d y (some f) =>
    simp [Stmt.same, Stmt.erase, Expr.same_iff c d, Block.same_iff x y, Block.same_iff e f, and_assoc]
  | .expr _ x, .expr _ y => simp [Stmt.same, Stmt.erase, Expr.same_iff x y]
  | .branch _ _ _ none, .branch _ _ _ (some _) => simp [Stmt.same, Stmt.erase]
  | .branch _ _ _ (some _), .branch _ _ _ none => simp [Stmt.same, Stmt.erase]
  | .bind .., .ret .. | .bind .., .expr .. | .ret .., .bind .. | .ret .., .expr ..
  | .expr .., .bind .. | .expr .., .ret .. => simp [Stmt.same, Stmt.erase]
  | .bind .., .branch _ _ _ o | .ret .., .branch _ _ _ o | .expr .., .branch _ _ _ o =>
    cases o <;> simp [Stmt.same, Stmt.erase]
  | .branch _ _ _ o, .bind .. | .branch _ _ _ o, .ret .. | .branch _ _ _ o, .expr .. =>
    cases o <;> simp [Stmt.same, Stmt.erase]
termination_by structural a

theorem Stmt.sameAll_iff (as bs : List Stmt) :
    Stmt.sameAll as bs = true ↔ Stmt.eraseAll as = Stmt.eraseAll bs := by
  match as, bs with
  | [], [] => simp [Stmt.sameAll]
  | [], _ :: _ => simp [Stmt.sameAll, Stmt.eraseAll]
  | _ :: _, [] => simp [Stmt.sameAll, Stmt.eraseAll]
  | a :: as, b :: bs =>
    simp [Stmt.sameAll, Stmt.eraseAll, Stmt.same_iff a b, Stmt.sameAll_iff as bs]
termination_by structural as

theorem Block.same_iff (a b : Block) : a.same b = true ↔ a.erase = b.erase := by
  match a, b with
  | .mk _ as, .mk _ bs => simp [Block.same, Block.erase, Stmt.sameAll_iff as bs]
termination_by structural a

end

end MonkeyLang
