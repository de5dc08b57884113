import MonkeyLang.Proofs.Eval.Matching

namespace MonkeyLang

inductive Node.Like (spans : Prop) : Node → Node → Prop where
  | block {a b : Block} : a.Like spans b → Like spans (.block a) (.block b)
  | stmt {a b : Stmt} : a.Like spans b → Like spans (.stmt a) (.stmt b)
  | expr {a b : Expr} : a.Like spans b → Like spans (.expr a) (.expr b)

theorem Node.Like.span {spans : Prop} {a b : Node} (h : a.Like spans b) (hspans : spans) : a.span = b.span := by
  cases h with
  | block h => exact congrArg Block.span (h.2 hspans)
  | stmt h => exact congrArg Stmt.span (h.2 hspans)
  | expr h => exact congrArg Expr.span (h.2 hspans)

namespace Matching

variable {t : Matching}

namespace Machines

variable {m m' : Machine}

theorem child (h : t.Machines m m') {parent parent' : Option FrameId}
    (hparent : parent' = parent.map t.frame) :
    t.Machines { m with store := (m.store.child parent).2 }
      { m' with store := (m'.store.child parent').2 } := by
  refine { h with size_le := ?_, size := ?_, frames := fun i => ?_ }
  · exact Nat.le_trans h.size_le (by simp [Machine.size, Store.child])
  · have hsize := h.size
    simp only [Machine.size, Store.child, Array.size_push] at hsize ⊢
    omega
  · show Option.Rel _ (m.store.frames.push _)[i]? (m'.store.frames.push _)[t.frame i]?
    rw [Array.getElem?_push, Array.getElem?_push]
    have hnew : t.frame i = m'.store.frames.size ↔ i = m.store.frames.size := by
      rw [show m'.store.frames.size = t.frame m.store.frames.size from h.frame_size.symm, frame_inj]
    simp only [hnew]
    split
    · exact .some ⟨hparent, .nil⟩
    · exact h.frames i

theorem bind (h : t.Machines m m') (frame : FrameId) (name : String) {a b : Value}
    (hvalue : t.Values a b) :
    t.Machines { m with store := m.store.bind frame name a }
      { m' with store := m'.store.bind (t.frame frame) name b } := by
  refine { h with size_le := ?_, size := ?_, frames := fun i => ?_ }
  · rw [Machine.size_bind]
    exact h.size_le
  · rw [Machine.size_bind, Machine.size_bind]
    exact h.size
  · show Option.Rel _ (m.store.frames.modify _ _)[i]? (m'.store.frames.modify _ _)[t.frame i]?
    rw [Array.getElem?_modify, Array.getElem?_modify]
    simp only [frame_inj]
    have hframe := h.frames i
    split
    · generalize m.store.frames[i]? = old at hframe ⊢
      generalize m'.store.frames[t.frame i]? = new at hframe ⊢
      cases hframe with
      | none => exact .none
      | some hframe => exact .some ⟨hframe.parent, hframe.bindings.insert name hvalue⟩
    · exact hframe

theorem enter (h : t.Machines m m') {call call' : Call} (hcall : t.Calls call call') :
    t.Machines { m with calls := call :: m.calls } { m' with calls := call' :: m'.calls } :=
  { h with calls := .cons hcall h.calls }

theorem leave (h : t.Machines m m') :
    t.Machines { m with calls := m.calls.tail } { m' with calls := m'.calls.tail } := by
  have hcalls := List.forall₂_drop 1 h.calls
  rw [List.drop_one, List.drop_one] at hcalls
  exact { h with calls := hcalls }

end Machines

inductive Results {α β : Type} (t : Matching) (ok : α → β → Prop) :
    EStateM.Result Fault Machine α → EStateM.Result Fault Machine β → Prop where
  | ok {a : α} {b : β} {last last' : Machine} : ok a b → t.Machines last last' →
      Results t ok (.ok a last) (.ok b last')
  | error {fault fault' : Fault} {last last' : Machine} : t.Faults fault fault' → t.Machines last last' →
      Results t ok (.error fault last) (.error fault' last')

def Follows {α β : Type} (t : Matching) (ok : α → β → Prop) (x : EvalM α) (y : EvalM β) : Prop :=
  ∀ m m', t.Machines m m' → t.Results ok (x m) (y m')

variable {α β γ δ : Type} {ok : α → β → Prop} {ok' : γ → δ → Prop}

theorem Follows.pure {a : α} {b : β} (h : ok a b) : t.Follows ok (Pure.pure a) (Pure.pure b) :=
  fun _ _ hm => .ok h hm

theorem Follows.throw {fault fault' : Fault} (h : t.Faults fault fault') :
    t.Follows ok (throw fault) (throw fault') :=
  fun _ _ hm => .error h hm

theorem Follows.bind {x : EvalM α} {y : EvalM β} {f : α → EvalM γ} {g : β → EvalM δ}
    (h : t.Follows ok x y) (hf : ∀ a b, ok a b → t.Follows ok' (f a) (g b)) :
    t.Follows ok' (x >>= f) (y >>= g) := by
  intro m m' hm
  have hresults := h m m' hm
  show t.Results ok' (EStateM.bind x f m) (EStateM.bind y g m')
  rw [EStateM.bind, EStateM.bind]
  generalize x m = result at hresults ⊢
  generalize y m' = result' at hresults ⊢
  cases hresults with
  | ok hvalue hlast => exact hf _ _ hvalue _ _ hlast
  | error hfault hlast => exact .error hfault hlast

theorem follows_child {parent parent' : Option FrameId} (h : parent' = parent.map t.frame) :
    t.Follows (fun i j => j = t.frame i) (Machine.child parent) (Machine.child parent') :=
  fun _ _ hm => .ok hm.frame_size.symm (hm.child h)

theorem follows_bind (frame : FrameId) (name : String) {a b : Value} (h : t.Values a b) :
    t.Follows t.Values (Machine.bind frame name a) (Machine.bind (t.frame frame) name b) := by
  have hbind : ∀ m m', t.Machines m m' →
      t.Results t.Values (.ok a { m with store := m.store.bind frame name a })
        (.ok b { m' with store := m'.store.bind (t.frame frame) name b }) :=
    fun m m' hm => .ok h (hm.bind frame name h)
  cases h with
  | returned => exact .throw (.boundReturn name)
  | _ => exact hbind

theorem follows_record (event event' : TraceEvent) :
    t.Follows (fun _ _ => True) (Machine.record event) (Machine.record event') :=
  fun _ _ hm => .ok trivial { hm with }

theorem follows_notCallable {a b : Value} (h : t.Values a b) {site site' : Option Span}
    (hsite : Option.Rel (fun s s' => t.spans → s = s') site site') :
    t.Follows ok (Machine.notCallable a site) (Machine.notCallable b site') :=
  fun _ _ hm => .error (.notCallable h hsite (List.forall₂_reverse_iff.mpr hm.calls)) hm

theorem follows_closure {params params' : List Ident} {body body' : Block} (scope : FrameId)
    (hparams : Like (List.map Ident.erase) t.spans params params') (hbody : body.Like t.spans body') :
    t.Follows t.Values (Machine.closure params body scope)
      (Machine.closure params' body' (t.frame scope)) := by
  intro m m' hm
  refine .ok (.function (.inr ⟨hm.closures_le, hm.closures, hparams, hbody, rfl⟩)) { hm with
    closures_le := Nat.le_succ_of_le hm.closures_le
    closures := ?_ }
  show m'.closures + 1 = m.closures + 1 + t.closureShift
  rw [hm.closures, Nat.add_right_comm]

theorem Follows.during {x y : EvalM Value} {ok : Value → Value → Prop} (h : t.Follows ok x y)
    {call call' : Call} (hcall : t.Calls call call') :
    t.Follows ok (Machine.during call x) (Machine.during call' y) := by
  intro m m' hm
  have hresults := h _ _ (hm.enter hcall)
  rw [Machine.during, Machine.during]
  generalize x _ = result at hresults ⊢
  generalize y _ = result' at hresults ⊢
  cases hresults with
  | ok hvalue hlast => exact .ok hvalue hlast.leave
  | error hfault hlast => exact .error hfault hlast.leave

theorem Follows.unlessError {x y : EvalM Value} {f g : Value → EvalM Value} (h : t.Follows t.Values x y)
    (hf : ∀ a b, t.Values a b → t.Follows t.Values (f a) (g b)) :
    t.Follows t.Values (Eval.unlessError x f) (Eval.unlessError y g) := by
  refine .bind h fun a b hvalue => ?_
  have hnext := hf a b hvalue
  cases hvalue with
  | error message => exact .pure (.error message)
  | _ => exact hnext

end Matching

namespace Eval
open Matching

section Rules

variable {t : Matching} {recurse recurse' : Node → FrameId → EvalM Value} {frame : FrameId}
  (hrec : ∀ node node' frame, node.Like t.spans node' →
    t.Follows t.Values (recurse node frame) (recurse' node' (t.frame frame)))
include hrec

theorem follows_recurse_expr {a b : Expr} (h : a.Like t.spans b) (frame : FrameId) :
    t.Follows t.Values (recurse (.expr a) frame) (recurse' (.expr b) (t.frame frame)) :=
  hrec _ _ frame (.expr h)

theorem follows_statements {result result' : Value} (hresult : t.Values result result')
    {ss ss' : List Stmt} (h : List.Forall₂ (Stmt.Like t.spans) ss ss') :
    t.Follows t.Values (statements recurse frame result ss)
      (statements recurse' (t.frame frame) result' ss') := by
  induction h generalizing result result' with
  | nil => exact .pure hresult
  | cons h _ ih =>
    refine .bind (hrec _ _ frame (.stmt h)) fun a b hvalue => ?_
    have hnext := ih hvalue
    cases hvalue with
    | returned hvalue => exact .pure (.returned hvalue)
    | _ => exact hnext

inductive ArgumentsLike (t : Matching) :
    Except String (List Value) → Except String (List Value) → Prop where
  | error (message : String) : ArgumentsLike t (.error message) (.error message)
  | ok {as bs : List Value} : List.Forall₂ t.Values as bs → ArgumentsLike t (.ok as) (.ok bs)

theorem follows_arguments {as bs : List Expr} (h : List.Forall₂ (Expr.Like t.spans) as bs) :
    t.Follows (ArgumentsLike t) (arguments recurse frame as) (arguments recurse' (t.frame frame) bs) := by
  induction h with
  | nil => exact .pure (.ok .nil)
  | @cons _ _ as bs h _ ih =>
    refine .bind (follows_recurse_expr hrec h frame) fun a b hvalue => ?_
    have hnext : t.Follows (ArgumentsLike t) (do return (← arguments recurse frame as).map (a :: ·))
        (do return (← arguments recurse' (t.frame frame) bs).map (b :: ·)) := by
      refine .bind ih fun values values' hvalues => .pure ?_
      cases hvalues with
      | error message => exact .error message
      | ok hvalues => exact .ok (.cons hvalue hvalues)
    cases hvalue with
    | error message => exact .pure (.error message)
    | _ => exact hnext

theorem follows_entries {done done' : List (Key × Value)} (hdone : Table.EntriesLike t.Values done done')
    {as bs : List (Expr × Expr)}
    (h : List.Forall₂ (fun a b => a.1.Like t.spans b.1 ∧ a.2.Like t.spans b.2) as bs) :
    t.Follows t.Values (entries recurse frame done as) (entries recurse' (t.frame frame) done' bs) := by
  induction h generalizing done done' with
  | nil => exact .pure (.hash hdone)
  | @cons a b _ _ h _ ih =>
    obtain ⟨k, v⟩ := a
    obtain ⟨k', v'⟩ := b
    refine .unlessError (follows_recurse_expr hrec h.1 frame) fun key key' hkey => ?_
    rw [hkey.key?]
    split
    · exact .pure hkey.unusableKey
    · exact .unlessError (follows_recurse_expr hrec h.2 frame) fun value value' hvalue =>
        ih (hdone.insert _ hvalue)

omit hrec in
theorem follows_bindParams {params params' : List Ident}
    (hparams : List.Forall₂ (Ident.Like t.spans) params params') {as bs : List Value}
    (h : List.Forall₂ t.Values as bs) :
    t.Follows (fun _ _ => True) (bindParams frame params as) (bindParams (t.frame frame) params' bs) := by
  induction hparams generalizing as bs with
  | nil => exact .pure trivial
  | cons hparam _ ih =>
    cases h with
    | nil => exact .pure trivial
    | cons hvalue hrest =>
      rw [bindParams, bindParams, Ident.name_of_erase hparam.1]
      exact .bind (follows_bind frame _ hvalue) fun _ _ _ => ih hrest

omit hrec in
theorem follows_prepare {a b : Closure} (hclosure : t.Closures a b) {as bs : List Value}
    (h : List.Forall₂ t.Values as bs) :
    t.Follows (fun i j => j = t.frame i) (prepare a as) (prepare b bs) := by
  have hscope : some b.scope = (some a.scope).map t.frame := congrArg some hclosure.scope
  refine .bind (follows_child hscope) ?_
  rintro inner _ rfl
  refine .bind (follows_bindParams hclosure.params.forall₂ h) fun _ _ _ => ?_
  exact .bind (follows_record _ _) fun _ _ _ => .pure rfl

theorem follows_call {a b : Value} (hcallee : t.Values a b) {as bs : List Value}
    (h : List.Forall₂ t.Values as bs) {site site' : Option Span}
    (hsite : Option.Rel (fun s s' => t.spans → s = s') site site') :
    t.Follows t.Values (call recurse a as site) (call recurse' b bs site') := by
  have hnot : t.Follows t.Values (Machine.notCallable a site) (Machine.notCallable b site') :=
    follows_notCallable hcallee hsite
  cases hcallee with
  | function hclosure =>
    rw [call_function, call_function]
    refine .bind (follows_prepare hclosure h) ?_
    rintro inner _ rfl
    refine .bind (.during (hrec _ _ inner (.block hclosure.body)) ⟨rfl, h⟩) fun _ _ hvalue => ?_
    exact .pure hvalue.unwrap
  | builtin op owner =>
    have hresult := op.alike_apply (fun _ _ => Closures.debug) h
    rw [call, call, callBuiltin_eq, callBuiltin_eq, h.length_eq]
    split
    · exact .bind (follows_record _ _) fun _ _ _ => .pure hresult
    · exact .pure hresult
  | _ => exact hnot

theorem follows_callExpr {s s' : Span} (hsite : t.spans → s = s') {a b : Expr} (hcallee : a.Like t.spans b)
    {as bs : List Expr} (h : List.Forall₂ (Expr.Like t.spans) as bs) :
    t.Follows t.Values (callExpr recurse frame s a as) (callExpr recurse' (t.frame frame) s' b bs) := by
  refine .bind (follows_recurse_expr hrec hcallee frame) fun callee callee' hvalue => ?_
  rw [hvalue.isCallable]
  split
  · refine .bind (follows_arguments hrec h) fun values values' hvalues => ?_
    cases hvalues with
    | error message => exact .pure (.error message)
    | ok hvalues => exact follows_call hrec hvalue hvalues (.some hsite)
  · exact follows_notCallable hvalue (.some hsite)

theorem follows_expr {a b : Expr} (hlike : a.Like t.spans b) :
    t.Follows t.Values (expr recurse frame a) (expr recurse' (t.frame frame) b) := by
  have hdebug : ∀ a b, t.Closures a b → a.debug = b.debug := fun _ _ => Closures.debug
  have hnested := fun {a b : Expr} (h : a.Like t.spans b) => follows_recurse_expr hrec h frame
  cases hlike.parts with
  | name hname =>
    intro m m' hm
    refine .ok ?_ hm
    rw [hname]
    exact Value.alike_getD (hm.resolve frame _) (.error _)
  | integer _ _ value => exact .pure (.integer value)
  | boolean _ _ value => exact .pure (.boolean value)
  | string _ _ value => exact .pure (.string value)
  | unary _ _ operator h =>
    exact .unlessError (hnested h) fun _ _ hvalue => .pure (hvalue.unary operator)
  | binary _ _ operator h h' =>
    exact .unlessError (hnested h) fun _ _ hleft => .unlessError (hnested h') fun _ _ hright =>
      .pure (hleft.binary hdebug operator hright)
  | function _ _ hparams hbody => exact follows_closure frame hparams hbody
  | call hsite hcallee h => exact follows_callExpr hrec hsite hcallee h
  | array _ _ h =>
    refine .bind (follows_arguments hrec h) fun values values' hvalues => ?_
    cases hvalues with
    | error message => exact .pure (.error message)
    | ok hvalues => exact .pure (.array hvalues)
  | index _ _ h h' =>
    exact .unlessError (hnested h) fun _ _ hleft => .unlessError (hnested h') fun _ _ hright =>
      .pure (hleft.index hdebug hright)
  | hash _ _ h => exact follows_entries hrec .nil h

theorem follows_stmt {a b : Stmt} (hlike : a.Like t.spans b) :
    t.Follows t.Values (stmt recurse frame a) (stmt recurse' (t.frame frame) b) := by
  have hnested := fun {a b : Expr} (h : a.Like t.spans b) => follows_recurse_expr hrec h frame
  cases hlike.parts with
  | bind _ _ hname h =>
    rw [stmt, stmt, hname]
    exact .unlessError (hnested h) fun _ _ hvalue => follows_bind frame _ hvalue
  | ret _ _ h => exact .bind (hnested h) fun _ _ hvalue => .pure (.returned hvalue)
  | branch _ _ h hconsequence halternative =>
    refine .unlessError (hnested h) fun _ _ hvalue => ?_
    rw [hvalue.isTruthy]
    split
    · exact follows_statements hrec .null hconsequence.statements
    · cases halternative with
      | none => exact .pure .null
      | some halternative => exact follows_statements hrec .null halternative.statements
  | expr _ _ h => exact hnested h

theorem follows_node {a b : Node} (h : a.Like t.spans b) (frame : FrameId) :
    t.Follows t.Values (Eval.node recurse a frame) (Eval.node recurse' b (t.frame frame)) := by
  cases h with
  | block h => exact follows_statements hrec .null h.statements
  | stmt h => exact follows_stmt hrec h
  | expr h => exact follows_expr hrec h

end Rules

end Eval

theorem Matching.follows_evalWithin (t : Matching) (depth : Nat) {a b : Node} (h : a.Like t.spans b)
    (frame : FrameId) :
    t.Follows t.Values (evalWithin depth a frame) (evalWithin depth b (t.frame frame)) := by
  induction depth generalizing a b frame with
  | zero => exact .throw (.tooDeep h.span)
  | succ depth ih => exact Eval.follows_node (fun _ _ frame h => ih h frame) h frame

end MonkeyLang
