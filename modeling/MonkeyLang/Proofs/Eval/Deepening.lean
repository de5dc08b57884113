import MonkeyLang.Proofs.Eval.Ends

namespace MonkeyLang

variable {α β : Type}

def Deepens (x y : EvalM α) : Prop :=
  ∀ m, (∃ span last, x m = .error (.tooDeep span) last) ∨ x m = y m

namespace Deepens

theorem refl (x : EvalM α) : Deepens x x :=
  fun _ => .inr rfl

theorem bind {x y : EvalM α} {f g : α → EvalM β} (h : Deepens x y) (hf : ∀ a, Deepens (f a) (g a)) :
    Deepens (x >>= f) (y >>= g) := by
  intro m
  rcases h m with ⟨span, last, hx⟩ | hsame
  · exact .inl ⟨span, last, bind_of_error hx⟩
  · cases hx : x m with
    | ok a last =>
      rw [bind_of_ok hx, bind_of_ok (hsame.symm.trans hx)]
      exact hf a last
    | error fault last =>
      rw [bind_of_error hx, bind_of_error (hsame.symm.trans hx)]
      exact .inr rfl

theorem unlessError {x y : EvalM Value} {f g : Value → EvalM Value} (h : Deepens x y)
    (hf : ∀ a, Deepens (f a) (g a)) : Deepens (Eval.unlessError x f) (Eval.unlessError y g) := by
  refine .bind h fun value => ?_
  cases value
  case error => exact .refl _
  all_goals exact hf _

theorem during {x y : EvalM Value} (h : Deepens x y) (call : Call) :
    Deepens (Machine.during call x) (Machine.during call y) := by
  intro m
  rw [Machine.during, Machine.during]
  rcases h { m with calls := call :: m.calls } with ⟨span, last, hx⟩ | hsame
  · rw [hx]
    exact .inl ⟨span, _, rfl⟩
  · rw [hsame]
    exact .inr rfl

end Deepens

namespace Eval

section Rules

variable {recurse deeper : Node → FrameId → EvalM Value} {frame : FrameId}
  (hrec : ∀ node frame, Deepens (recurse node frame) (deeper node frame))
include hrec

theorem deepens_statements (result : Value) (ss : List Stmt) :
    Deepens (statements recurse frame result ss) (statements deeper frame result ss) := by
  induction ss generalizing result with
  | nil => exact .refl _
  | cons s ss ih =>
    refine .bind (hrec (.stmt s) frame) fun value => ?_
    cases value
    case returned => exact .refl _
    all_goals exact ih _

theorem deepens_arguments (es : List Expr) :
    Deepens (arguments recurse frame es) (arguments deeper frame es) := by
  induction es with
  | nil => exact .refl _
  | cons e es ih =>
    refine .bind (hrec (.expr e) frame) fun value => ?_
    cases value
    case error => exact .refl _
    all_goals exact .bind ih fun _ => .refl _

theorem deepens_entries (done : List (Key × Value)) (pairs : List (Expr × Expr)) :
    Deepens (entries recurse frame done pairs) (entries deeper frame done pairs) := by
  induction pairs generalizing done with
  | nil => exact .refl _
  | cons pair pairs ih =>
    obtain ⟨k, v⟩ := pair
    refine .unlessError (hrec (.expr k) frame) fun key => ?_
    cases key.key? with
    | none => exact .refl _
    | some key => exact .unlessError (hrec (.expr v) frame) fun value => ih _

theorem deepens_call (callee : Value) (values : List Value) (site : Option Span) :
    Deepens (call recurse callee values site) (call deeper callee values site) := by
  cases callee with
  | function closure =>
    refine .bind (.refl _) fun inner => .bind (.refl _) fun _ => .bind (.refl _) fun _ => ?_
    exact .bind (.during (hrec (.block closure.body) inner) _) fun _ => .refl _
  | _ => exact .refl _

theorem deepens_callExpr (site : Span) (callee : Expr) (es : List Expr) :
    Deepens (callExpr recurse frame site callee es) (callExpr deeper frame site callee es) := by
  refine .bind (hrec (.expr callee) frame) fun value => ?_
  split
  · refine .bind (deepens_arguments hrec es) fun values => ?_
    cases values with
    | error message => exact .refl _
    | ok values => exact deepens_call hrec value values _
  · exact .refl _

theorem deepens_expr (e : Expr) : Deepens (expr recurse frame e) (expr deeper frame e) := by
  cases e with
  | name | integer | boolean | string | function => exact .refl _
  | unary _ operator right => exact .unlessError (hrec (.expr right) frame) fun _ => .refl _
  | binary _ operator left right =>
    exact .unlessError (hrec (.expr left) frame) fun _ =>
      .unlessError (hrec (.expr right) frame) fun _ => .refl _
  | call site callee es => exact deepens_callExpr hrec site callee es
  | array _ elements => exact .bind (deepens_arguments hrec elements) fun _ => .refl _
  | index _ left index =>
    exact .unlessError (hrec (.expr left) frame) fun _ =>
      .unlessError (hrec (.expr index) frame) fun _ => .refl _
  | hash _ pairs => exact deepens_entries hrec [] pairs

theorem deepens_stmt (s : Stmt) : Deepens (stmt recurse frame s) (stmt deeper frame s) := by
  cases s with
  | bind _ name value => exact .unlessError (hrec (.expr value) frame) fun _ => .refl _
  | ret _ value => exact .bind (hrec (.expr value) frame) fun _ => .refl _
  | branch _ condition consequence alternative =>
    refine .unlessError (hrec (.expr condition) frame) fun value => ?_
    split
    · exact deepens_statements hrec _ _
    · cases alternative with
      | none => exact .refl _
      | some alternative => exact deepens_statements hrec _ _
  | expr _ value => exact hrec (.expr value) frame

theorem deepens_node (node : Node) (frame : FrameId) :
    Deepens (Eval.node recurse node frame) (Eval.node deeper node frame) := by
  cases node with
  | block b => exact deepens_statements hrec _ _
  | stmt s => exact deepens_stmt hrec s
  | expr e => exact deepens_expr hrec e

end Rules

end Eval

/-- Evaluation with another one in the place of the failure at the bound. -/
def evalOver (beyond : Node → FrameId → EvalM Value) : Nat → Node → FrameId → EvalM Value
  | 0 => beyond
  | depth + 1 => Eval.node (evalOver beyond depth)

theorem evalOver_evalWithin (more depth : Nat) :
    evalOver (evalWithin more) depth = evalWithin (more + depth) := by
  induction depth with
  | zero => rfl
  | succ depth ih =>
    rw [evalOver, ih]
    rfl

theorem evalWithin_beyond (beyond : Node → FrameId → EvalM Value) (depth : Nat) (node : Node)
    (frame : FrameId) : Deepens (evalWithin depth node frame) (evalOver beyond depth node frame) := by
  induction depth generalizing node frame with
  | zero => exact fun m => .inl ⟨node.span, m, rfl⟩
  | succ depth ih => exact Eval.deepens_node ih node frame

theorem evalWithin_deepens {shallow deep : Nat} (h : shallow ≤ deep) (node : Node) (frame : FrameId) :
    Deepens (evalWithin shallow node frame) (evalWithin deep node frame) := by
  obtain ⟨more, rfl⟩ : ∃ more, deep = more + shallow := ⟨deep - shallow, by omega⟩
  rw [← evalOver_evalWithin]
  exact evalWithin_beyond _ shallow node frame

theorem evalWithin_ok_of_le {shallow deep : Nat} (h : shallow ≤ deep) {node : Node} {frame : FrameId}
    {m last : Machine} {value : Value} (hx : evalWithin shallow node frame m = .ok value last) :
    evalWithin deep node frame m = .ok value last :=
  ((evalWithin_deepens h node frame m).resolve_left (by simp [hx])).symm.trans hx

end MonkeyLang
