import MonkeyLang.Proofs.Eval.Ends

namespace MonkeyLang

namespace Machine

/-- Holds over each step; a call has ended when its body has, and what is left of it is checked then. -/
structure Stable (holds : Machine → Machine → Prop) : Prop where
  refl : ∀ m, holds m m
  trans : ∀ {m middle last}, holds m middle → holds middle last → holds m last
  child : ∀ m parent, holds m { m with store := (m.store.child parent).2 }
  bind : ∀ m frame name value, holds m { m with store := m.store.bind frame name value }
  record : ∀ m event, holds m { m with trace := m.trace.push event }
  closure : ∀ m, holds m { m with closures := m.closures + 1 }
  during : ∀ {m call last}, holds { m with calls := call :: m.calls } last →
    holds m { last with calls := last.calls.tail }

def Moves {α : Type} (holds : Machine → Machine → Prop) (x : EvalM α) : Prop :=
  ∀ m, Ends x m (fun _ last => holds m last) fun _ last => holds m last

variable {α β : Type} {holds : Machine → Machine → Prop} (h : Stable holds)
include h

theorem Stable.pure (a : α) : Moves holds (Pure.pure a) :=
  fun m => h.refl m

theorem Stable.throw (fault : Fault) : Moves holds (throw fault : EvalM α) :=
  fun m => h.refl m

theorem Stable.andThen {x : EvalM α} {f : α → EvalM β} (hx : Moves holds x) (hf : ∀ a, Moves holds (f a)) :
    Moves holds (x >>= f) := by
  intro m
  rw [ends_bind]
  refine (hx m).mono (fun a ready hready => ?_) fun _ _ hlast => hlast
  exact (hf a ready).mono (fun _ _ hlast => h.trans hready hlast) fun _ _ hlast => h.trans hready hlast

theorem Stable.notCallable (callee : Value) (site : Option Span) :
    Moves holds (Machine.notCallable callee site : EvalM α) :=
  fun m => h.refl m

theorem Stable.bindName (frame : FrameId) (name : String) (value : Value) :
    Moves holds (Machine.bind frame name value) := by
  intro m
  rw [ends_bind_value]
  cases value
  case returned => exact h.refl m
  all_goals exact h.bind m frame name _

theorem Stable.call {body : EvalM Value} (hbody : Moves holds body) (call : Call) :
    Moves holds (Machine.during call body) := by
  intro m
  rw [ends_during]
  exact (hbody _).mono (fun _ _ => h.during) fun _ _ => h.during

theorem Stable.unlessError {x : EvalM Value} {next : Value → EvalM Value} (hx : Moves holds x)
    (hnext : ∀ value, Moves holds (next value)) : Moves holds (Eval.unlessError x next) := by
  refine h.andThen hx fun value => ?_
  cases value
  case error => exact h.pure _
  all_goals exact hnext _

end Machine

namespace Eval
open Machine

section Rules

variable {holds : Machine → Machine → Prop} (h : Stable holds) {recurse : Node → FrameId → EvalM Value}
  {frame : FrameId} (hrec : ∀ node frame, Moves holds (recurse node frame))
include h hrec

theorem moves_statements (result : Value) (ss : List Stmt) :
    Moves holds (statements recurse frame result ss) := by
  induction ss generalizing result with
  | nil => exact h.pure _
  | cons s ss ih =>
    refine h.andThen (hrec _ _) fun value => ?_
    cases value
    case returned => exact h.pure _
    all_goals exact ih _

theorem moves_arguments (es : List Expr) : Moves holds (arguments recurse frame es) := by
  induction es with
  | nil => exact h.pure _
  | cons e es ih =>
    refine h.andThen (hrec _ _) fun value => ?_
    cases value
    case error => exact h.pure _
    all_goals exact h.andThen ih fun _ => h.pure _

theorem moves_entries (done : List (Key × Value)) (pairs : List (Expr × Expr)) :
    Moves holds (entries recurse frame done pairs) := by
  induction pairs generalizing done with
  | nil => exact h.pure _
  | cons pair pairs ih =>
    obtain ⟨k, v⟩ := pair
    refine h.unlessError (hrec _ _) fun key => ?_
    cases key.key? with
    | none => exact h.pure _
    | some key => exact h.unlessError (hrec _ _) fun value => ih _

omit hrec in
theorem moves_bindParams (params : List Ident) (values : List Value) :
    Moves holds (bindParams frame params values) := by
  induction params generalizing values with
  | nil => exact h.pure _
  | cons param params ih =>
    cases values with
    | nil => exact h.pure _
    | cons value values => exact h.andThen (h.bindName frame param.name value) fun _ => ih values

theorem moves_call (callee : Value) (values : List Value) (site : Option Span) :
    Moves holds (call recurse callee values site) := by
  cases callee
  case function closure =>
    refine h.andThen (fun m => h.child m _) fun frame => ?_
    refine h.andThen (moves_bindParams h closure.params values) fun _ => ?_
    refine h.andThen (fun m => h.record m _) fun _ => ?_
    exact h.andThen (h.call (hrec _ _) _) fun _ => h.pure _
  case builtin op owner =>
    rw [call, callBuiltin_eq]
    split
    · exact h.andThen (fun m => h.record m _) fun _ => h.pure _
    · exact h.pure _
  all_goals exact h.notCallable _ _

theorem moves_callExpr (site : Span) (callee : Expr) (es : List Expr) :
    Moves holds (callExpr recurse frame site callee es) := by
  refine h.andThen (hrec _ _) fun callee => ?_
  split
  · refine h.andThen (moves_arguments h hrec es) fun values => ?_
    cases values with
    | error message => exact h.pure _
    | ok values => exact moves_call h hrec _ _ _
  · exact h.notCallable _ _

theorem moves_expr (e : Expr) : Moves holds (expr recurse frame e) := by
  cases e with
  | name ident => exact fun m => h.refl m
  | integer | boolean | string => exact h.pure _
  | unary _ operator right => exact h.unlessError (hrec _ _) fun _ => h.pure _
  | binary _ operator left right =>
    exact h.unlessError (hrec _ _) fun _ => h.unlessError (hrec _ _) fun _ => h.pure _
  | function _ params body => exact fun m => h.closure m
  | call site callee es => exact moves_callExpr h hrec site callee es
  | array _ elements =>
    refine h.andThen (moves_arguments h hrec elements) fun values => ?_
    cases values with
    | error message => exact h.pure _
    | ok values => exact h.pure _
  | index _ left index =>
    exact h.unlessError (hrec _ _) fun _ => h.unlessError (hrec _ _) fun _ => h.pure _
  | hash _ pairs => exact moves_entries h hrec [] pairs

theorem moves_stmt (s : Stmt) : Moves holds (stmt recurse frame s) := by
  cases s with
  | bind _ name value => exact h.unlessError (hrec _ _) (h.bindName frame name.name)
  | ret _ value => exact h.andThen (hrec _ _) fun _ => h.pure _
  | branch _ condition consequence alternative =>
    refine h.unlessError (hrec _ _) fun value => ?_
    split
    · exact moves_statements h hrec _ _
    · cases alternative with
      | none => exact h.pure _
      | some alternative => exact moves_statements h hrec _ _
  | expr _ value => exact hrec _ _

theorem moves_node (node : Node) (frame : FrameId) : Moves holds (Eval.node recurse node frame) := by
  cases node with
  | block b => exact moves_statements h hrec _ _
  | stmt s => exact moves_stmt h hrec s
  | expr e => exact moves_expr h hrec e

end Rules

end Eval

theorem Machine.Stable.evalWithin {holds : Machine → Machine → Prop} (h : Stable holds) (depth : Nat)
    (node : Node) (frame : FrameId) : Moves holds (evalWithin depth node frame) := by
  induction depth generalizing node frame with
  | zero => exact h.throw _
  | succ depth ih => exact Eval.moves_node h ih node frame

namespace Machine

theorem stable_calls : Stable fun m last => last.calls = m.calls where
  refl _ := rfl
  trans h h' := h'.trans h
  child _ _ := rfl
  bind _ _ _ _ := rfl
  record _ _ := rfl
  closure _ := rfl
  during h := congrArg List.tail h

theorem stable_closures : Stable fun m last => m.closures ≤ last.closures where
  refl _ := Nat.le_refl _
  trans := Nat.le_trans
  child _ _ := Nat.le_refl _
  bind _ _ _ _ := Nat.le_refl _
  record _ _ := Nat.le_refl _
  closure _ := Nat.le_succ _
  during h := h

variable (m : Machine) (depth : Nat) (node : Node) (frame : FrameId)

theorem calls_after : (m.after (MonkeyLang.evalWithin depth node frame)).calls = m.calls :=
  after_of_ends _ (stable_calls.evalWithin depth node frame m)

theorem closures_after : m.closures ≤ (m.after (MonkeyLang.evalWithin depth node frame)).closures :=
  after_of_ends _ (stable_closures.evalWithin depth node frame m)

end Machine

end MonkeyLang
