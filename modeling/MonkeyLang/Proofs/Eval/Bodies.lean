import MonkeyLang.Proofs.Ast.WellFormed
import MonkeyLang.Proofs.Eval.Faults
import MonkeyLang.Proofs.Eval.Sound
import MonkeyLang.Proofs.Value.Parts

namespace MonkeyLang

/-- What holds of a node holds of the nodes right below it. -/
def Node.Hereditary (good : Node → Prop) : Prop :=
  ∀ root child, good root → child ∈ root.children → good child

variable {good : Node → Prop}

namespace Value

def Bodied (good : Node → Prop) (part : Value) : Prop :=
  ∀ closure, part = .function closure → good (.block closure.body)

theorem spares_bodied : Spares (Bodied good) :=
  fun _ hfunction _ closure h => absurd h (hfunction closure)

theorem bodied_error (good : Node → Prop) (message : String) : Every (Bodied good) (.error message) :=
  every_error spares_bodied message

variable {value : Value}

theorem bodied_function {closure : Closure} (h : good (.block closure.body)) :
    Every (Bodied good) (.function closure) :=
  every_of_childless rfl (by rintro _ ⟨⟩; exact h)

theorem bodied_returned (h : value.Every (Bodied good)) : Every (Bodied good) (.returned value) :=
  every_iff.mpr ⟨nofun, List.forall_mem_singleton.mpr h⟩

theorem bodied_unwrap (h : value.Every (Bodied good)) : value.unwrap.Every (Bodied good) := by
  cases value with
  | returned inner => exact (every_iff.mp h).2 inner (List.mem_singleton_self inner)
  | _ => exact h

end Value

open Value

variable {α β : Type} {ok : α → Prop} {ok' : β → Prop}

/-- The condition holds of the bodies in the machine that is left, if it does of those in the machine at the
start, and a result is as the other condition says. -/
def Retains (good : Node → Prop) (ok : α → Prop) (x : EvalM α) : Prop :=
  ∀ m : Machine, m.Every (Bodied good) →
    Ends x m (fun a last => last.Every (Bodied good) ∧ ok a) fun _ last => last.Every (Bodied good)

namespace Retains

theorem of_ok {x : EvalM α} (h : Retains good ok x) {m last : Machine} (hm : m.Every (Bodied good)) {a : α}
    (hx : x m = .ok a last) : last.Every (Bodied good) ∧ ok a :=
  (h m hm).of_ok hx

theorem after {x : EvalM α} (h : Retains good ok x) {m : Machine} (hm : m.Every (Bodied good)) :
    (m.after x).Every (Bodied good) :=
  Machine.after_of_ends (fun last => last.Every (Bodied good))
    ((h m hm).mono (fun _ _ hlast => hlast.1) fun _ _ hlast => hlast)

theorem pure {a : α} (h : ok a) : Retains good ok (Pure.pure a) :=
  fun _ hm => ⟨hm, h⟩

theorem throw (fault : Fault) : Retains good ok (MonadExcept.throw fault) :=
  fun _ hm => hm

theorem bind {x : EvalM α} {f : α → EvalM β} (h : Retains good ok x) (hf : ∀ a, ok a → Retains good ok' (f a)) :
    Retains good ok' (x >>= f) := by
  intro m hm
  rw [ends_bind]
  refine (h m hm).mono ?_ fun _ _ hlast => hlast
  rintro a last ⟨hlast, ha⟩
  exact hf a ha last hlast

theorem unlessError {ok : Value → Prop} {x : EvalM Value} {next : Value → EvalM Value}
    (h : Retains good (Every (Bodied good)) x) (herror : ∀ message, ok (.error message))
    (hnext : ∀ value, value.Every (Bodied good) → Retains good ok (next value)) :
    Retains good ok (Eval.unlessError x next) := by
  refine .bind h fun value hvalue => ?_
  cases value
  case error message => exact .pure (herror message)
  all_goals exact hnext _ hvalue

theorem during {ok : Value → Prop} {x : EvalM Value} (h : Retains good ok x) (call : Call) :
    Retains good ok (Machine.during call x) := by
  intro m hm
  have hentered : Machine.Every (Bodied good) { m with calls := call :: m.calls } := hm
  rw [Machine.ends_during]
  exact h _ hentered

end Retains

theorem retains_child (parent : Option FrameId) : Retains good (fun _ => True) (Machine.child parent) :=
  fun _ hm => ⟨hm.child parent, trivial⟩

theorem retains_record (event : TraceEvent) : Retains good (fun _ => True) (Machine.record event) :=
  fun _ hm => ⟨hm, trivial⟩

theorem retains_bind (frame : FrameId) (name : String) {value : Value} (h : value.Every (Bodied good)) :
    Retains good (Every (Bodied good)) (Machine.bind frame name value) := by
  intro m hm
  rw [Machine.ends_bind_value]
  cases value
  case returned inner => exact hm
  all_goals exact ⟨hm.bind frame name h, h⟩

theorem retains_notCallable (callee : Value) (site : Option Span) :
    Retains good ok (Machine.notCallable callee site) :=
  fun _ hm => hm

namespace Eval

def Bodies (good : Node → Prop) (values : Except String (List Value)) : Prop :=
  ∀ list, values = .ok list → ∀ value ∈ list, value.Every (Bodied good)

section Rules

variable {recurse : Node → FrameId → EvalM Value} {frame : FrameId}

theorem retains_bindParams (params : List Ident) {values : List Value}
    (h : ∀ value ∈ values, value.Every (Bodied good)) :
    Retains good (fun _ => True) (bindParams frame params values) := by
  induction params generalizing values with
  | nil => exact .pure trivial
  | cons param params ih =>
    cases values with
    | nil => exact .pure trivial
    | cons value values =>
      obtain ⟨hvalue, hrest⟩ := List.forall_mem_cons.mp h
      exact .bind (retains_bind frame param.name hvalue) fun _ _ => ih hrest

theorem retains_prepare (closure : Closure) {values : List Value}
    (h : ∀ value ∈ values, value.Every (Bodied good)) : Retains good (fun _ => True) (prepare closure values) :=
  .bind (retains_child _) fun _ _ => .bind (retains_bindParams closure.params h) fun _ _ =>
    .bind (retains_record _) fun _ _ => .pure trivial

variable (hrec : ∀ node frame, good node → Retains good (Every (Bodied good)) (recurse node frame))
include hrec

theorem retains_statements {result : Value} (hresult : result.Every (Bodied good)) {ss : List Stmt}
    (h : ∀ s ∈ ss, good (.stmt s)) : Retains good (Every (Bodied good)) (statements recurse frame result ss) := by
  induction ss generalizing result with
  | nil => exact .pure hresult
  | cons s ss ih =>
    obtain ⟨hs, hss⟩ := List.forall_mem_cons.mp h
    refine .bind (hrec (.stmt s) frame hs) fun value hvalue => ?_
    cases value
    case returned inner => exact .pure hvalue
    all_goals exact ih hvalue hss

theorem retains_arguments {es : List Expr} (h : ∀ e ∈ es, good (.expr e)) :
    Retains good (Bodies good) (arguments recurse frame es) := by
  induction es with
  | nil =>
    refine .pure ?_
    rintro _ ⟨⟩ _ ⟨⟩
  | cons e es ih =>
    obtain ⟨he, hes⟩ := List.forall_mem_cons.mp h
    refine .bind (hrec (.expr e) frame he) fun value hvalue => ?_
    have hmore : Retains good (Bodies good) (do return (← arguments recurse frame es).map (value :: ·)) := by
      refine .bind (ih hes) fun values hvalues => .pure ?_
      cases values with
      | error message => rintro _ ⟨⟩
      | ok values =>
        rintro _ ⟨⟩
        exact List.forall_mem_cons.mpr ⟨hvalue, hvalues values rfl⟩
    cases value
    case error message =>
      refine .pure ?_
      rintro _ ⟨⟩
    all_goals exact hmore

theorem retains_entries {done : List (Key × Value)} (hdone : Every (Bodied good) (.hash done))
    {pairs : List (Expr × Expr)} (h : ∀ pair ∈ pairs, good (.expr pair.1) ∧ good (.expr pair.2)) :
    Retains good (Every (Bodied good)) (entries recurse frame done pairs) := by
  have herror := bodied_error good
  induction pairs generalizing done with
  | nil => exact .pure hdone
  | cons pair pairs ih =>
    obtain ⟨k, v⟩ := pair
    obtain ⟨⟨hk, hv⟩, hpairs⟩ := List.forall_mem_cons.mp h
    refine .unlessError (hrec (.expr k) frame hk) herror fun key _ => ?_
    cases key.key? with
    | none => exact .pure (every_unusableKey spares_bodied key)
    | some inner =>
      refine .unlessError (hrec (.expr v) frame hv) herror fun value hvalue => ?_
      exact ih (every_insert spares_bodied hdone inner hvalue) hpairs

theorem retains_call {callee : Value} (hcallee : callee.Every (Bodied good)) {values : List Value}
    (h : ∀ value ∈ values, value.Every (Bodied good)) (site : Option Span) :
    Retains good (Every (Bodied good)) (call recurse callee values site) := by
  cases callee
  case function closure =>
    rw [call_function]
    refine .bind (retains_prepare closure h) fun inner _ => ?_
    exact .bind (.during (hrec _ inner (hcallee.whole closure rfl)) _) fun _ hvalue => .pure (bodied_unwrap hvalue)
  case builtin op owner =>
    have hresult := op.every_apply spares_bodied h
    rw [call, callBuiltin_eq]
    split
    · exact .bind (retains_record _) fun _ _ => .pure hresult
    · exact .pure hresult
  all_goals exact retains_notCallable _ site

theorem retains_callExpr (site : Span) {callee : Expr} (hcallee : good (.expr callee)) {es : List Expr}
    (h : ∀ e ∈ es, good (.expr e)) :
    Retains good (Every (Bodied good)) (callExpr recurse frame site callee es) := by
  refine .bind (hrec _ frame hcallee) fun value hvalue => ?_
  split
  · refine .bind (retains_arguments hrec h) fun values hvalues => ?_
    cases values with
    | error message => exact .pure (bodied_error good message)
    | ok values => exact retains_call hrec hvalue (hvalues values rfl) _
  · exact retains_notCallable _ _

variable (hgood : Node.Hereditary good)
include hgood

theorem retains_expr {e : Expr} (h : good (.expr e)) :
    Retains good (Every (Bodied good)) (expr recurse frame e) := by
  have herror := bodied_error good
  have hnested : ∀ e', Node.expr e' ∈ (Node.expr e).children →
      Retains good (Every (Bodied good)) (recurse (.expr e') frame) := fun e' mem => hrec _ frame (hgood _ _ h mem)
  cases e with
  | name ident =>
    intro m hm
    refine ⟨hm, ?_⟩
    cases hvalue : m.store.resolve frame ident.name with
    | none => exact herror _
    | some value => exact hm.resolve hvalue
  | integer _ value => exact .pure (every_integer spares_bodied value)
  | boolean _ value => exact .pure (every_boolean spares_bodied value)
  | string _ value => exact .pure (every_string spares_bodied value)
  | unary _ operator right =>
    exact .unlessError (hnested right (by simp [Node.children])) herror fun value _ =>
      .pure (every_unary spares_bodied operator value)
  | binary _ operator left right =>
    refine .unlessError (hnested left (by simp [Node.children])) herror fun first _ => ?_
    exact .unlessError (hnested right (by simp [Node.children])) herror fun second _ =>
      .pure (every_binary spares_bodied operator first second)
  | function _ params body => exact fun m hm => ⟨hm, bodied_function (hgood _ _ h (List.mem_singleton_self _))⟩
  | call site callee es =>
    exact retains_callExpr hrec site (hgood _ _ h (by simp [Node.children]))
      fun e mem => hgood _ _ h (by simp [Node.children, mem])
  | array _ elements =>
    refine .bind (retains_arguments hrec fun e mem => hgood _ _ h (by simp [Node.children, mem])) ?_
    intro values hvalues
    cases values with
    | error message => exact .pure (herror message)
    | ok values => exact .pure ((every_array spares_bodied).mpr (hvalues values rfl))
  | index _ left index =>
    refine .unlessError (hnested left (by simp [Node.children])) herror fun value hvalue => ?_
    exact .unlessError (hnested index (by simp [Node.children])) herror fun i _ =>
      .pure (every_index spares_bodied hvalue i)
  | hash _ pairs =>
    refine retains_entries hrec ((every_hash spares_bodied).mpr (by simp)) fun pair mem => ⟨?_, ?_⟩
    · exact hgood _ _ h (List.mem_flatMap.mpr ⟨pair, mem, by simp⟩)
    · exact hgood _ _ h (List.mem_flatMap.mpr ⟨pair, mem, by simp⟩)

theorem retains_block {block : Block} (h : good (.block block)) :
    Retains good (Every (Bodied good)) (statements recurse frame .null block.statements) := by
  obtain ⟨span, ss⟩ := block
  exact retains_statements hrec (every_null spares_bodied) fun _ mem => hgood _ _ h (List.mem_map_of_mem mem)

theorem retains_stmt {s : Stmt} (h : good (.stmt s)) :
    Retains good (Every (Bodied good)) (stmt recurse frame s) := by
  have herror := bodied_error good
  cases s with
  | bind _ name value =>
    exact .unlessError (hrec _ frame (hgood _ _ h List.mem_cons_self)) herror fun _ => retains_bind frame name.name
  | ret _ value =>
    exact .bind (hrec _ frame (hgood _ _ h List.mem_cons_self)) fun _ hvalue => .pure (bodied_returned hvalue)
  | branch _ condition consequence alternative =>
    refine .unlessError (hrec _ frame (hgood _ _ h List.mem_cons_self)) herror fun _ _ => ?_
    split
    · exact retains_block hrec hgood (hgood _ _ h (by simp [Node.children]))
    · cases alternative with
      | none => exact .pure (every_null spares_bodied)
      | some alternative => exact retains_block hrec hgood (hgood _ _ h (by simp [Node.children]))
  | expr _ value => exact hrec _ frame (hgood _ _ h List.mem_cons_self)

end Rules

end Eval

theorem retains_evalWithin (hgood : Node.Hereditary good) (depth : Nat) : ∀ node frame, good node →
    Retains good (Every (Bodied good)) (evalWithin depth node frame) := by
  induction depth with
  | zero => exact fun node _ _ => .throw (.tooDeep node.span)
  | succ depth ih =>
    intro node frame h
    cases node with
    | block b => exact Eval.retains_block ih hgood h
    | stmt s => exact Eval.retains_stmt ih hgood h
    | expr e => exact Eval.retains_expr ih hgood h

theorem retains_evaluate (hgood : Node.Hereditary good) {program : Block} (h : good (.block program))
    (frame : FrameId) : Retains good (Every (Bodied good)) (evaluate program frame) :=
  .bind (retains_evalWithin hgood evaluationLimit _ frame h) fun _ hvalue => .pure (bodied_unwrap hvalue)

end MonkeyLang
