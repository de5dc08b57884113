import MonkeyLang.Ast.Printer

namespace MonkeyLang

theorem Ident.printAll_erase (params : List Ident) :
    Ident.printAll (params.map Ident.erase) = Ident.printAll params := by
  simp [Ident.printAll, Function.comp_def, Ident.erase]

mutual

theorem Expr.print_erase (width : Nat) (level : Int) (e : Expr) :
    e.erase.print width level = e.print width level := by
  cases e with
  | name ident => rfl
  | integer | boolean | string => rfl
  | unary _ operator right => rw [Expr.erase, Expr.print, Expr.print, Expr.print_erase]
  | binary _ operator left right =>
    rw [Expr.erase, Expr.print, Expr.print, Expr.print_erase, Expr.print_erase]
  | function _ params body =>
    rw [Expr.erase, Expr.print, Expr.print, Block.print_erase, Ident.printAll_erase]
  | call _ callee arguments =>
    rw [Expr.erase, Expr.print, Expr.print, Expr.print_erase, Expr.printAll_eraseAll]
  | array _ elements => rw [Expr.erase, Expr.print, Expr.print, Expr.printAll_eraseAll]
  | index _ left index =>
    rw [Expr.erase, Expr.print, Expr.print, Expr.print_erase, Expr.print_erase]
  | hash _ pairs => rw [Expr.erase, Expr.print, Expr.print, Expr.printPairs_erasePairs]

theorem Expr.printAll_eraseAll (width : Nat) (level : Int) (es : List Expr) :
    Expr.printAll width level (Expr.eraseAll es) = Expr.printAll width level es := by
  cases es with
  | nil => rfl
  | cons e es =>
    rw [Expr.eraseAll, Expr.printAll, Expr.printAll, Expr.print_erase, Expr.printAll_eraseAll]

theorem Expr.printPairs_erasePairs (width : Nat) (level : Int) (pairs : List (Expr × Expr)) :
    Expr.printPairs width level (Expr.erasePairs pairs) = Expr.printPairs width level pairs := by
  match pairs with
  | [] => rfl
  | (key, value) :: pairs =>
    rw [Expr.erasePairs, Expr.printPairs, Expr.printPairs, Expr.print_erase, Expr.print_erase,
      Expr.printPairs_erasePairs]

theorem Stmt.print_erase (width : Nat) (level : Int) (s : Stmt) :
    s.erase.print width level = s.print width level := by
  match s with
  | .bind _ name value =>
    rw [Stmt.erase, Stmt.print, Stmt.print, Expr.print_erase]
    rfl
  | .ret _ value => rw [Stmt.erase, Stmt.print, Stmt.print, Expr.print_erase]
  | .branch _ condition consequence none =>
    rw [Stmt.erase, Stmt.print, Stmt.print, Expr.print_erase, Block.print_erase]
  | .branch _ condition consequence (some alternative) =>
    rw [Stmt.erase, Stmt.print, Stmt.print, Expr.print_erase, Block.print_erase, Block.print_erase]
  | .expr _ value => rw [Stmt.erase, Stmt.print, Stmt.print, Expr.print_erase]

theorem Stmt.printLines_eraseAll (width : Nat) (level : Int) (ss : List Stmt) :
    Stmt.printLines width level (Stmt.eraseAll ss) = Stmt.printLines width level ss := by
  cases ss with
  | nil => rfl
  | cons s ss =>
    rw [Stmt.eraseAll, Stmt.printLines, Stmt.printLines, Stmt.print_erase, Stmt.printLines_eraseAll]

theorem Block.print_erase (width : Nat) (level : Int) (b : Block) :
    b.erase.print width level = b.print width level := by
  match b with
  | .mk _ [] => rfl
  | .mk _ (s :: ss) =>
    rw [Block.erase, Stmt.eraseAll, Block.print, Block.print, Stmt.printLines, Stmt.printLines,
      Stmt.print_erase, Stmt.printLines_eraseAll]

end

theorem Block.printProgram_erase (width : Nat) (level : Int) (program : Block) :
    program.erase.printProgram width level = program.printProgram width level := by
  obtain ⟨span, ss⟩ := program
  simp only [Block.printProgram, Block.erase, Block.statements_mk, Stmt.eraseAll_eq_map, List.map_map,
    Function.comp_def, Stmt.print_erase]

end MonkeyLang
