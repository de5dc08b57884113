import MonkeyLang.Proofs.Ast.RoundTrip
import MonkeyLang.Proofs.Ast.Verdict
import MonkeyLang.Proofs.Eval.Ends

namespace MonkeyLang
open Grammar

def Expr.negations : Nat → Expr
  | 0 => .integer default 1
  | n + 1 => .unary default .not (negations n)

def Value.negated : Nat → Value
  | 0 => .integer 1
  | n + 1 => .boolean (n % 2 == 1)

theorem Expr.erase_negations (n : Nat) : (negations n).erase = negations n := by
  induction n with
  | zero => rfl
  | succ n ih => exact congrArg (unary default .not) ih

namespace Negations

theorem unary_negated (n : Nat) : Value.unary .not (.negated n) = .negated (n + 1) := by
  cases n with
  | zero => rfl
  | succ n =>
    have hparity : (!(n % 2 == 1)) = ((n + 1) % 2 == 1) := by
      rcases Nat.mod_two_eq_zero_or_one n with h | h <;> simp [h, Nat.add_mod]
    exact congrArg Value.boolean hparity

theorem evalWithin_negations {n depth : Nat} (h : n < depth) (frame : FrameId) (m : Machine) :
    evalWithin depth (.expr (.negations n)) frame m = .ok (.negated n) m := by
  induction n generalizing depth with
  | zero =>
    obtain ⟨depth, rfl⟩ := Nat.exists_eq_succ_of_ne_zero (Nat.ne_zero_of_lt h)
    rfl
  | succ n ih =>
    obtain ⟨depth, rfl⟩ := Nat.exists_eq_succ_of_ne_zero (Nat.ne_zero_of_lt h)
    have hright := ih (Nat.lt_of_succ_lt_succ h)
    show Eval.unlessError (evalWithin depth (.expr (.negations n)) frame)
      (fun right => pure (Value.unary .not right)) m = _
    rw [Eval.unlessError, bind_of_ok hright, ← unary_negated]
    cases n <;> rfl

theorem evaluate_negations {n : Nat} (h : n + 2 < evaluationLimit) (frame : FrameId) (m : Machine) :
    evaluate (.mk default [.expr default (.negations n)]) frame m = .ok (.negated n) m := by
  have hblock : ∀ {depth}, n < depth → evalWithin (depth + 2)
      (.block (.mk default [.expr default (.negations n)])) frame m = .ok (.negated n) m := by
    intro depth hdepth
    have hstmt : evalWithin (depth + 1) (.stmt (.expr default (.negations n))) frame m =
        .ok (.negated n) m := evalWithin_negations hdepth frame m
    show Eval.statements (evalWithin (depth + 1)) frame .null [.expr default (.negations n)] m = _
    rw [Eval.statements, bind_of_ok hstmt]
    cases n <;> rfl
  obtain ⟨depth, hdepth⟩ := Nat.exists_eq_add_of_lt h
  have hlimit : evaluationLimit = n + depth + 1 + 2 := by omega
  rw [evaluate, hlimit, bind_of_ok (hblock (by omega))]
  cases n <;> rfl

def text (n : Nat) : String :=
  String.ofList (List.replicate n '!' ++ ['1'])

def plain (n : Nat) : List Lexeme :=
  List.replicate n ⟨.bang, "!"⟩ ++ [⟨.integer, "1"⟩]

def enclosed : Nat → List Lexeme
  | 0 => [⟨.integer, "1"⟩]
  | n + 1 => ⟨.leftParen, "("⟩ :: ⟨.bang, "!"⟩ :: enclosed n ++ [⟨.rightParen, ")"⟩]

theorem spells_text (n : Nat) : Spells (text n) (plain n) := by
  induction n with
  | zero => exact spells_integer 1
  | succ n ih =>
    have htext : text (n + 1) = Operator.not.symbol ++ text n := by
      rw [text, text, List.replicate_succ, List.cons_append, String.ofList_cons]
      rfl
    rw [htext]
    exact spells_unary rfl ih

theorem derives_plain (n : Nat) : Derives (.expr .unary (.negations n)) (plain n) := by
  induction n with
  | zero => exact Derives.loosen (by decide) (derives_integer (show 1 ≤ maxInteger by decide))
  | succ n ih => exact .unary rfl ih

theorem spells_print (width : Nat) (level : Int) (n : Nat) :
    Spells ((Expr.negations n).print width level) (enclosed n) := by
  induction n with
  | zero => exact spells_integer 1
  | succ n ih =>
    have hright : Spells (Operator.not.symbol ++ (Expr.negations n).print width level)
        (⟨.bang, "!"⟩ :: enclosed n) := spells_unary rfl ih
    have henclosed := @Spells.enclose _ _ hright '(' ')' .leftParen .rightParen rfl rfl rfl
    simpa [Expr.negations, Expr.print, enclosed, String.append_assoc] using henclosed

section Reading
open MonkeyLang.Parser

variable {eof : Token} {rounds : Nat} {expression : Precedence → Parser Expr} {program : Parser Block}
  {first : Token} {tokens : List Token} {error : ParseError}

theorem operand_group_error (hfirst : first.kind = .leftParen)
    (h : (expression .lowest).run (window eof tokens) = .error error) :
    (operand rounds expression program).run (window eof (first :: tokens)) = .error error := by
  rw [operand, run_current_bind, current_window_cons]
  simp only [hfirst]
  rw [run_bind_error, nextExpression, run_advance_bind]
  exact .inl h

theorem operand_negation_error (hfirst : first.kind = .bang)
    (h : (expression .unary).run (window eof tokens) = .error error) :
    (operand rounds expression program).run (window eof (first :: tokens)) = .error error := by
  rw [operand, run_current_bind, current_window_cons]
  simp only [hfirst]
  rw [run_advance_bind, run_bind_error]
  exact .inl h

theorem expressionWithin_error {depth : Nat} (precedence : Precedence)
    (h : (operand rounds (expressionWithin rounds depth) (programWithin rounds depth)).run
      (window eof tokens) = .error error) :
    (expressionWithin rounds (depth + 1) precedence).run (window eof tokens) = .error error := by
  rw [expressionWithin, run_bind_error]
  exact .inl h

theorem expressionWithin_enclosed {n depth : Nat} (hdepth : depth ≤ 2 * n) (precedence : Precedence)
    {more : List Lexeme} (h : tokens.map Token.lexeme = enclosed n ++ more) :
    ∃ found, (expressionWithin rounds depth precedence).run (window eof tokens) =
      .error (.nestingTooDeep found) := by
  induction n generalizing depth precedence tokens more with
  | zero =>
    obtain rfl := Nat.le_zero.mp hdepth
    rw [expressionWithin]
    exact ⟨_, rfl⟩
  | succ n ih =>
    rw [enclosed, List.append_assoc, List.cons_append, List.cons_append, List.cons_append] at h
    obtain ⟨opening, tokens, rfl, hopening, h⟩ := List.map_eq_cons_iff.mp h
    obtain ⟨sign, tokens, rfl, hsign, h⟩ := List.map_eq_cons_iff.mp h
    rcases depth with _ | _ | depth
    · rw [expressionWithin]
      exact ⟨_, rfl⟩
    · refine ⟨sign, expressionWithin_error precedence (operand_group_error (congrArg Lexeme.kind hopening) ?_)⟩
      rw [expressionWithin]
      exact run_nestingTooDeep _
    · obtain ⟨found, hinner⟩ := ih (show depth ≤ 2 * n by omega) .unary h
      refine ⟨found, expressionWithin_error precedence (operand_group_error (congrArg Lexeme.kind hopening) ?_)⟩
      exact expressionWithin_error .lowest (operand_negation_error (congrArg Lexeme.kind hsign) hinner)

theorem programWithin_enclosed {n depth : Nat} (hdepth : depth ≤ 2 * (n + 1)) {more : List Lexeme}
    (h : tokens.map Token.lexeme = enclosed (n + 1) ++ more) :
    ∃ found, (programWithin (rounds + 1) depth).run (window eof tokens) = .error (.nestingTooDeep found) := by
  match depth with
  | 0 =>
    rw [programWithin]
    exact ⟨_, rfl⟩
  | depth + 1 =>
    obtain ⟨found, hexpression⟩ := @expressionWithin_enclosed eof (rounds + 1) tokens (n + 1) depth (by omega) .lowest more h
    obtain ⟨opening, tokens, rfl, hopening, -⟩ := List.map_eq_cons_iff.mp h
    have hkind : opening.kind = .leftParen := congrArg Lexeme.kind hopening
    have hends : endsBlock opening = false := by simp [endsBlock, hkind]
    refine ⟨found, ?_⟩
    rw [programWithin, run_current_bind, run_bind_error, statements, run_current_bind, current_window_cons,
      hends]
    refine .inl ?_
    simp only [Bool.false_eq_true, if_false]
    rw [run_bind_error, statement, run_current_bind, current_window_cons]
    refine .inl ?_
    simp only [hkind]
    rw [run_bind_error]
    exact .inl hexpression

end Reading

end Negations

open Negations

theorem parseWithin_negations {n depth : Nat} (h : n + 2 < depth) :
    ∃ program, parseWithin depth (text n) = .ok program ∧
      program.erase = .mk default [.expr default (.negations n)] := by
  have hlexes := (spells_text n).lexes fenced_nil Lexes.nil
  have hderives := Derives.statement (.expr ((derives_plain n).loosen (by decide)))
    (List.forall_mem_nil _) .empty (by simp)
  simp only [List.append_nil] at hlexes hderives
  exact parseWithin_of_lexes hlexes hderives (by simpa [plain] using h)

theorem parseWithin_print_negations {n depth : Nat} (h : depth ≤ 2 * (n + 1)) (width : Nat) (level : Int)
    {program : Block} (hprogram : program.erase = .mk default [.expr default (.negations (n + 1))]) :
    ∃ found, parseWithin depth (program.printProgram width level) = .error (.nestingTooDeep found) := by
  have hprint : program.printProgram width level =
      (Expr.negations (n + 1)).print width level ++ ";" := by
    rw [← Block.printProgram_erase, hprogram]
    simp [Block.printProgram, Stmt.print]
  have hlexes := (spells_print width level (n + 1)).lexes (fenced_cons rfl []) (Lexes.nil.mark (c := ';') rfl)
  rw [show [';'] = ";".toList from rfl, ← String.toList_append, ← hprint] at hlexes
  obtain ⟨tokens, eof, hstream, hlexemes⟩ := hlexes ⟨0, 0, 0⟩
  have hstream : TokenStream.ofSource (program.printProgram width level) = ⟨tokens, .ok eof⟩ := hstream
  obtain ⟨found, hprogram⟩ := @programWithin_enclosed eof tokens.length tokens n depth h _ hlexemes
  refine ⟨found, ?_⟩
  rw [parseWithin, hstream, Parser.parseStream, Parser.start_eq_window]
  show ((Parser.programWithin (tokens.length + 1) depth).run (Parser.window eof tokens) >>= _) = _
  rw [hprogram]
  rfl

end MonkeyLang
