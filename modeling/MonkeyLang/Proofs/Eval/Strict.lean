import Mathlib
import MonkeyLang.Proofs.Eval.Ends
import MonkeyLang.Session.Basic

namespace MonkeyLang

/-- An expression that is open in one of its strict positions. -/
inductive Layer where
  | operand (span : Span) (operator : Operator)
  | left (span : Span) (operator : Operator) (other : Expr)
  | right (span : Span) (operator : Operator) (other : Expr)
  | indexed (span : Span) (other : Expr)
  | index (span : Span) (other : Expr)
  | element (span : Span) (before behind : List Expr)
  | key (span : Span) (before : List (Expr × Expr)) (other : Expr) (behind : List (Expr × Expr))
  | value (span : Span) (before : List (Expr × Expr)) (other : Expr) (behind : List (Expr × Expr))
  | argument (span : Span) (callee : Expr) (before behind : List Expr)

abbrev Part := Expr × (Value → Bool)

namespace Part

def operand (e : Expr) : Part :=
  (e, fun value => !value.isError)

def key (e : Expr) : Part :=
  (e, fun value => value.key?.isSome)

def entries (pairs : List (Expr × Expr)) : List Part :=
  pairs.flatMap fun pair => [key pair.1, operand pair.2]

end Part

namespace Layer

def fill : Layer → Expr → Expr
  | operand span operator, e => .unary span operator e
  | left span operator other, e => .binary span operator e other
  | right span operator other, e => .binary span operator other e
  | indexed span other, e => .index span e other
  | index span other, e => .index span other e
  | element span before behind, e => .array span (before ++ e :: behind)
  | key span before other behind, e => .hash span (before ++ (e, other) :: behind)
  | value span before other behind, e => .hash span (before ++ (other, e) :: behind)
  | argument span callee before behind, e => .call span callee (before ++ e :: behind)

def fillAll (layers : List Layer) (e : Expr) : Expr :=
  layers.foldr fill e

def front : Layer → List Part
  | operand .. | left .. | indexed .. => []
  | right _ _ other | index _ other => [.operand other]
  | element _ before _ => before.map .operand
  | key _ before _ _ => Part.entries before
  | value _ before other _ => Part.entries before ++ [.key other]
  | argument _ callee before _ => (callee, Value.isCallable) :: before.map .operand

end Layer

inductive Breaks : EStateM.Result Fault Machine Value → Prop where
  | error (message : String) (last : Machine) : Breaks (.ok (.error message) last)
  | fault (fault : Fault) (last : Machine) : Breaks (.error fault last)

theorem Breaks.of_error {result : EStateM.Result Fault Machine Value} {fault : Fault} {last : Machine}
    (h : result = .error fault last) : Breaks result :=
  h ▸ .fault fault last

namespace Eval

section Rules

variable (recurse : Node → FrameId → EvalM Value) (frame : FrameId)

inductive Passed : List Part → Machine → Machine → Prop where
  | nil (m : Machine) : Passed [] m m
  | cons {e : Expr} {test : Value → Bool} {parts : List Part} {m ready last : Machine} {value : Value} :
      recurse (.expr e) frame m = .ok value ready → test value = true → Passed parts ready last →
      Passed ((e, test) :: parts) m last

variable {recurse frame} {m ready last : Machine} {next : Value → EvalM Value}

theorem passed_append {before behind : List Part} (h : Passed recurse frame (before ++ behind) m last) :
    ∃ ready, Passed recurse frame before m ready ∧ Passed recurse frame behind ready last := by
  induction before generalizing m with
  | nil => exact ⟨m, .nil m, h⟩
  | cons part before ih =>
    cases h with
    | cons he htest hrest =>
      obtain ⟨ready, hbefore, hbehind⟩ := ih hrest
      exact ⟨ready, .cons he htest hbefore, hbehind⟩

theorem bind_of_eq {α β : Type} {x y : EvalM α} {f : α → EvalM β} (h : x m = y ready) :
    (x >>= f) m = (y >>= f) ready := by
  show EStateM.bind x f m = EStateM.bind y f ready
  rw [EStateM.bind, EStateM.bind, h]

theorem isError_of_key {value : Value} {key : Key} (h : value.key? = some key) : value.isError = false := by
  cases value with
  | error message => cases h
  | _ => rfl

theorem unlessError_of_ok {x : EvalM Value} {value : Value} (h : x m = .ok value ready)
    (hvalue : value.isError = false) : unlessError x next m = next value ready := by
  refine (bind_of_ok h).trans ?_
  cases value with
  | error message => cases hvalue
  | _ => rfl

theorem unlessError_of_breaks {x : EvalM Value} (h : Breaks (x m)) : unlessError x next m = x m := by
  cases hx : x m with
  | ok value last =>
    rw [hx] at h
    cases h with
    | error message => exact bind_of_ok hx
  | error fault last => exact bind_of_error hx

theorem unlessError_passed {other : Expr} (h : Passed recurse frame [.operand other] m ready) :
    ∃ value, unlessError (recurse (.expr other) frame) next m = next value ready := by
  cases h with
  | @cons _ _ _ _ _ _ value hother htest hrest =>
    cases hrest
    exact ⟨value, unlessError_of_ok hother (Bool.not_eq_true' _ |>.mp htest)⟩

theorem arguments_of_ok {e : Expr} {es : List Expr} {value : Value}
    (h : recurse (.expr e) frame m = .ok value ready) (hvalue : value.isError = false) :
    arguments recurse frame (e :: es) m =
      ((Except.map (value :: ·)) <$> arguments recurse frame es) ready := by
  rw [arguments]
  refine (bind_of_ok h).trans ?_
  cases value with
  | error message => cases hvalue
  | _ => rfl

theorem arguments_breaks {before behind : List Expr} {e : Expr}
    {next : Except String (List Value) → EvalM Value}
    (hbefore : Passed recurse frame (before.map .operand) m ready)
    (he : Breaks (recurse (.expr e) frame ready))
    (hnext : ∀ message, next (.error message) = pure (.error message)) :
    (arguments recurse frame (before ++ e :: behind) >>= next) m = recurse (.expr e) frame ready := by
  induction before generalizing m next with
  | nil =>
    cases hbefore
    cases hresult : recurse (.expr e) frame ready with
    | ok value last =>
      rw [hresult] at he
      cases he with
      | error message =>
        have hhead : arguments recurse frame (e :: behind) ready = .ok (.error message) last :=
          bind_of_ok hresult
        exact (bind_of_ok hhead).trans (congrFun (hnext message) last)
    | error fault last =>
      have hhead : arguments recurse frame (e :: behind) ready = .error fault last :=
        bind_of_error hresult
      exact bind_of_error hhead
  | cons x before ih =>
    cases hbefore with
    | @cons _ _ _ _ between _ value hx htest hrest =>
      have hhead : arguments recurse frame (x :: (before ++ e :: behind)) m =
          ((Except.map (value :: ·)) <$> arguments recurse frame (before ++ e :: behind)) between :=
        arguments_of_ok hx ((Bool.not_eq_true' _).mp htest)
      rw [List.cons_append, bind_of_eq hhead, bind_map_left]
      refine ih hrest fun message => ?_
      exact hnext message

theorem entries_passed {before behind : List (Expr × Expr)} {done : List (Key × Value)}
    (h : Passed recurse frame (Part.entries before) m ready) :
    ∃ done', entries recurse frame done (before ++ behind) m =
      entries recurse frame done' behind ready := by
  induction before generalizing m done with
  | nil =>
    cases h
    exact ⟨done, rfl⟩
  | cons pair before ih =>
    obtain ⟨k, v⟩ := pair
    cases h with
    | @cons _ _ _ _ _ _ key hk hkey hrest =>
      cases hrest with
      | @cons _ _ _ _ _ _ value hv hvalue hrest =>
        obtain ⟨inner, hinner⟩ := Option.isSome_iff_exists.mp hkey
        obtain ⟨done', hdone⟩ := @ih _ (Table.insert inner value done) hrest
        refine ⟨done', ?_⟩
        rw [List.cons_append, entries, unlessError_of_ok hk (isError_of_key hinner)]
        simp only [hinner]
        rw [unlessError_of_ok hv ((Bool.not_eq_true' _).mp hvalue), hdone]

/-- An expression ends as the one in its open position does, if that one breaks it off and what stands in
front lets the evaluation come to it. -/
theorem expr_fill {layer : Layer} {e : Expr} (hfront : Passed recurse frame layer.front m ready)
    (he : Breaks (recurse (.expr e) frame ready)) :
    expr recurse frame (layer.fill e) m = recurse (.expr e) frame ready := by
  cases layer with
  | operand | left | indexed =>
    cases hfront
    exact unlessError_of_breaks he
  | right _ _ other | index _ other =>
    obtain ⟨value, hvalue⟩ := unlessError_passed hfront
    exact hvalue.trans (unlessError_of_breaks he)
  | element span before behind => exact arguments_breaks hfront he fun _ => rfl
  | key span before other behind =>
    obtain ⟨done, hdone⟩ := entries_passed hfront
    exact hdone.trans (unlessError_of_breaks he)
  | value span before other behind =>
    obtain ⟨between, hbefore, hother⟩ := passed_append hfront
    obtain ⟨done, hdone⟩ := entries_passed hbefore
    refine hdone.trans ?_
    cases hother with
    | @cons _ _ _ _ _ _ key hkey htest hrest =>
      cases hrest
      obtain ⟨inner, hinner⟩ := Option.isSome_iff_exists.mp htest
      rw [entries, unlessError_of_ok hkey (isError_of_key hinner)]
      simp only [hinner]
      exact unlessError_of_breaks he
  | argument span callee before behind =>
    cases hfront with
    | @cons _ _ _ _ _ _ value hcallee hcallable hbefore =>
      refine (bind_of_ok hcallee).trans ?_
      rw [if_pos hcallable]
      exact arguments_breaks hbefore he fun _ => rfl

end Rules

end Eval

section Nested
open Eval

variable (depth : Nat) (frame : FrameId)

/-- The evaluation of nested expressions, the innermost of which is open to one evaluated within the depth,
comes from the first machine to that open position with the second one. -/
inductive Reached : List Layer → Machine → Machine → Prop where
  | nil (m : Machine) : Reached [] m m
  | cons {layer : Layer} {layers : List Layer} {m ready last : Machine} :
      Passed (evalWithin (depth + layers.length)) frame layer.front m ready → Reached layers ready last →
      Reached (layer :: layers) m last

variable {depth frame} {layers : List Layer} {e : Expr} {m ready : Machine}

theorem evalWithin_fillAll (h : Reached depth frame layers m ready)
    (he : Breaks (evalWithin depth (.expr e) frame ready)) :
    evalWithin (depth + layers.length) (.expr (Layer.fillAll layers e)) frame m =
      evalWithin depth (.expr e) frame ready := by
  induction h with
  | nil => rfl
  | cons hfront _ ih =>
    have hinner := ih he
    refine (expr_fill hfront ?_).trans hinner
    rwa [← hinner] at he

theorem Reached.congr (h : Reached depth frame layers m ready) {others : List Layer}
    (hothers : others.map Layer.front = layers.map Layer.front) : Reached depth frame others m ready := by
  induction h generalizing others with
  | nil =>
    rw [List.map_eq_nil_iff.mp hothers]
    exact .nil _
  | @cons layer layers _ _ _ hfront _ ih =>
    obtain ⟨other, rest, rfl, hother, hrest⟩ := List.map_eq_cons_iff.mp hothers
    have hlength : rest.length = layers.length := by
      simpa using congrArg List.length hrest
    refine .cons ?_ (ih hrest)
    rwa [hother, hlength]

/-- An error in a strict position is the result of all expressions around it, and the machine is left as
the open position left it, whatever stands behind the open positions: neither is that evaluated, nor is a
function around the position called. A `let` of such an expression binds nothing, and an `if` with such a
condition evaluates no branch. -/
theorem error_through (h : Reached depth frame layers m ready) {message : String} {last : Machine}
    (he : evalWithin depth (.expr e) frame ready = .ok (.error message) last) {others : List Layer}
    (hothers : others.map Layer.front = layers.map Layer.front) :
    evalWithin (depth + layers.length) (.expr (Layer.fillAll others e)) frame m =
        .ok (.error message) last ∧
      (∀ span name, evalWithin (depth + layers.length + 1)
        (.stmt (.bind span name (Layer.fillAll others e))) frame m = .ok (.error message) last) ∧
      ∀ span consequence alternative, evalWithin (depth + layers.length + 1)
        (.stmt (.branch span (Layer.fillAll others e) consequence alternative)) frame m =
          .ok (.error message) last := by
  have hlength : others.length = layers.length := by
    simpa using congrArg List.length hothers
  have hbreaks : Breaks (evalWithin depth (.expr e) frame ready) := he ▸ .error message last
  have hexpr := (evalWithin_fillAll (h.congr hothers) hbreaks).trans he
  rw [hlength] at hexpr
  have hthrough : ∀ next, unlessError (evalWithin (depth + layers.length)
      (.expr (Layer.fillAll others e)) frame) next m = .ok (.error message) last := fun next =>
    (unlessError_of_breaks (hexpr ▸ .error message last)).trans hexpr
  exact ⟨hexpr, fun _ name => hthrough _, fun _ _ _ => hthrough _⟩

end Nested

theorem error_through_call :
    evalWithin 5 (.stmt (.bind default ⟨default, "y"⟩ (.call default (.name ⟨default, "len"⟩)
      [.array default [.integer default 1, .unary default .not (.name ⟨default, "x"⟩),
        .call default (.integer default 1) []]]))) 0 (Session.start true).machine =
      .ok (.error "identifier not found: x") (Session.start true).machine := by
  have hlen : evalWithin 3 (.expr (.name ⟨default, "len"⟩)) 0 (Session.start true).machine =
      .ok (.builtin .len 0) (Session.start true).machine := by
    cbv
  have hx : evalWithin 1 (.expr (.name ⟨default, "x"⟩)) 0 (Session.start true).machine =
      .ok (.error "identifier not found: x") (Session.start true).machine := by
    cbv
  have hreached : Reached 1 0 [.argument default (.name ⟨default, "len"⟩) [] [],
      .element default [.integer default 1] [.call default (.integer default 1) []],
      .operand default .not] (Session.start true).machine (Session.start true).machine :=
    .cons (.cons hlen rfl (.nil _)) (.cons (.cons rfl rfl (.nil _)) (.cons (.nil _) (.nil _)))
  exact (error_through hreached hx rfl).2.1 default ⟨default, "y"⟩

end MonkeyLang
