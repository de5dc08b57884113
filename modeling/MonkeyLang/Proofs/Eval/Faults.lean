import MonkeyLang.Proofs.Eval.Strict

namespace MonkeyLang

variable {m ready last : Machine} {fault : Fault}

theorem bind_eq_error {α β : Type} {x : EvalM α} {f : α → EvalM β} (h : (x >>= f) m = .error fault last) :
    x m = .error fault last ∨ ∃ a ready, x m = .ok a ready ∧ f a ready = .error fault last := by
  cases hx : x m with
  | ok a ready => exact .inr ⟨a, ready, rfl, (bind_of_ok hx).symm.trans h⟩
  | error other between =>
    cases (bind_of_error (f := f) hx).symm.trans h
    exact .inl rfl

theorem bind_eq_ok {α β : Type} {x : EvalM α} {f : α → EvalM β} {b : β} (h : (x >>= f) m = .ok b last) :
    ∃ a ready, x m = .ok a ready ∧ f a ready = .ok b last := by
  cases hx : x m with
  | ok a ready => exact ⟨a, ready, rfl, (bind_of_ok hx).symm.trans h⟩
  | error other between => cases (bind_of_error (f := f) hx).symm.trans h

theorem Machine.during_of_error {call : Call} {body : EvalM Value}
    (h : body { m with calls := call :: m.calls } = .error fault last) :
    during call body m = .error fault { last with calls := last.calls.tail } := by
  rw [during, h]

theorem Machine.during_eq_error {call : Call} {body : EvalM Value}
    (h : during call body m = .error fault last) :
    ∃ last, body { m with calls := call :: m.calls } = .error fault last := by
  rw [during] at h
  split at h
  · cases h
  next hbody =>
    cases h
    exact ⟨_, hbody⟩

namespace Eval

theorem unlessError_eq_error {x : EvalM Value} {next : Value → EvalM Value}
    (h : unlessError x next m = .error fault last) :
    x m = .error fault last ∨ ∃ value ready, x m = .ok value ready ∧ value.isError = false ∧
      next value ready = .error fault last := by
  rcases bind_eq_error h with hx | ⟨value, ready, hx, hnext⟩
  · exact .inl hx
  · refine .inr ⟨value, ready, hx, ?_⟩
    cases value with
    | error message => cases hnext
    | _ => exact ⟨rfl, hnext⟩

theorem unlessError_eq_ok {x : EvalM Value} {next : Value → EvalM Value} {value : Value}
    (h : unlessError x next m = .ok value last) :
    x m = .ok value last ∨ ∃ first ready, x m = .ok first ready ∧ first.isError = false ∧
      next first ready = .ok value last := by
  obtain ⟨first, ready, hx, hnext⟩ := bind_eq_ok h
  cases first with
  | error message =>
    cases hnext
    exact .inl hx
  | _ => exact .inr ⟨_, ready, hx, rfl, hnext⟩

section Rules

variable {recurse : Node → FrameId → EvalM Value} {frame : FrameId}

theorem bindParams_eq_error {params : List Ident} {values : List Value}
    (h : bindParams frame params values m = .error fault last) : ∃ name, fault = .boundReturn name := by
  induction params generalizing values m with
  | nil => cases h
  | cons param params ih =>
    cases values with
    | nil => cases h
    | cons value values =>
      rcases bind_eq_error h with hvalue | ⟨-, between, -, hrest⟩
      · cases value with
        | returned inner =>
          cases hvalue
          exact ⟨param.name, rfl⟩
        | _ => cases hvalue
      · exact ih hrest

theorem arguments_eq_error {es : List Expr} (h : arguments recurse frame es m = .error fault last) :
    ∃ before e behind ready, es = before ++ e :: behind ∧
      Passed recurse frame (before.map .operand) m ready ∧
      recurse (.expr e) frame ready = .error fault last := by
  induction es generalizing m with
  | nil => cases h
  | cons e es ih =>
    rw [arguments] at h
    rcases bind_eq_error h with he | ⟨value, ready, he, hrest⟩
    · exact ⟨[], e, es, m, rfl, .nil m, he⟩
    · have hvalue : value.isError = false ∧ arguments recurse frame es ready = .error fault last := by
        cases value with
        | error message => cases hrest
        | _ =>
          refine ⟨rfl, ?_⟩
          rcases bind_eq_error hrest with hes | ⟨values, between, -, hpure⟩
          · exact hes
          · cases hpure
      obtain ⟨before, e', behind, between, rfl, hbefore, he'⟩ := ih hvalue.2
      refine ⟨e :: before, e', behind, between, rfl, .cons he ?_ hbefore, he'⟩
      rw [hvalue.1]
      rfl

theorem entries_eq_error {pairs : List (Expr × Expr)} {done : List (Key × Value)}
    (h : entries recurse frame done pairs m = .error fault last) :
    ∃ before k v behind ready, pairs = before ++ (k, v) :: behind ∧
      (Passed recurse frame (Part.entries before) m ready ∧
          recurse (.expr k) frame ready = .error fault last ∨
        Passed recurse frame (Part.entries before ++ [.key k]) m ready ∧
          recurse (.expr v) frame ready = .error fault last) := by
  induction pairs generalizing m done with
  | nil => cases h
  | cons pair pairs ih =>
    obtain ⟨k, v⟩ := pair
    rw [entries] at h
    rcases unlessError_eq_error h with hk | ⟨key, ready, hk, -, hnext⟩
    · exact ⟨[], k, v, pairs, m, rfl, .inl ⟨.nil m, hk⟩⟩
    · cases hkey : key.key? with
      | none =>
        rw [hkey] at hnext
        cases hnext
      | some inner =>
        have hpass : key.key?.isSome = true := Option.isSome_iff_exists.mpr ⟨inner, hkey⟩
        rw [hkey] at hnext
        rcases unlessError_eq_error hnext with hv | ⟨value, between, hv, hvalue, hrest⟩
        · exact ⟨[], k, v, pairs, ready, rfl, .inr ⟨.cons hk hpass (.nil ready), hv⟩⟩
        · obtain ⟨before, k', v', behind, place, rfl, hends⟩ := ih hrest
          have hfront : ∀ {parts place}, Passed recurse frame parts between place →
              Passed recurse frame (.key k :: .operand v :: parts) m place := fun hparts =>
            .cons hk hpass (.cons hv (by rw [hvalue]; rfl) hparts)
          refine ⟨(k, v) :: before, k', v', behind, place, rfl, ?_⟩
          rcases hends with ⟨hbefore, hend⟩ | ⟨hbefore, hend⟩
          · exact .inl ⟨hfront hbefore, hend⟩
          · exact .inr ⟨hfront hbefore, hend⟩

variable (recurse frame) in
def Ran (ss : List Stmt) (m last : Machine) : Prop :=
  ∃ value, statements recurse frame .null ss m = .ok value last ∧ ∀ inner, value ≠ .returned inner

theorem statements_cons {result first : Value} {s : Stmt} {ss : List Stmt}
    (h : recurse (.stmt s) frame m = .ok first ready) (hfirst : ∀ inner, first ≠ .returned inner) :
    statements recurse frame result (s :: ss) m = statements recurse frame first ss ready := by
  rw [statements]
  refine (bind_of_ok h).trans ?_
  cases first with
  | returned inner => exact absurd rfl (hfirst inner)
  | _ => rfl

theorem ran_cons {first : Value} {s : Stmt} {ss : List Stmt} (h : recurse (.stmt s) frame m = .ok first ready)
    (hfirst : ∀ inner, first ≠ .returned inner) (hrest : Ran recurse frame ss ready last) :
    Ran recurse frame (s :: ss) m last := by
  obtain ⟨value, hss, hvalue⟩ := hrest
  cases ss with
  | nil =>
    cases hss
    exact ⟨first, statements_cons h hfirst, hfirst⟩
  | cons t ts => exact ⟨value, (statements_cons h hfirst).trans hss, hvalue⟩

theorem statements_cons_returned {result inner : Value} {s : Stmt} {ss : List Stmt}
    (h : recurse (.stmt s) frame m = .ok (.returned inner) ready) :
    statements recurse frame result (s :: ss) m = .ok (.returned inner) ready := by
  rw [statements]
  exact bind_of_ok h

theorem statements_append {result value : Value} {ss ts : List Stmt}
    (h : statements recurse frame result ss m = .ok value last) (hvalue : ∀ inner, value ≠ .returned inner) :
    statements recurse frame result (ss ++ ts) m = statements recurse frame value ts last := by
  induction ss generalizing result m with
  | nil =>
    cases h
    rfl
  | cons s ss ih =>
    cases hs : recurse (.stmt s) frame m with
    | error fault between => cases (bind_of_error hs).symm.trans h
    | ok first between =>
      by_cases hfirst : ∃ inner, first = .returned inner
      · obtain ⟨inner, rfl⟩ := hfirst
        cases (statements_cons_returned hs).symm.trans h
        exact absurd rfl (hvalue inner)
      · have hne := not_exists.mp hfirst
        rw [List.cons_append, statements_cons hs hne]
        exact ih ((statements_cons hs hne).symm.trans h)

theorem statements_of_ran {before behind : List Stmt} {s : Stmt} (h : Ran recurse frame before m ready)
    (hs : recurse (.stmt s) frame ready = .error fault last) :
    statements recurse frame .null (before ++ s :: behind) m = .error fault last := by
  obtain ⟨value, hbefore, hvalue⟩ := h
  rw [statements_append hbefore hvalue]
  exact bind_of_error hs

theorem statements_eq_error {result : Value} {ss : List Stmt}
    (h : statements recurse frame result ss m = .error fault last)
    (hresult : ∀ inner, result ≠ .returned inner) :
    ∃ before s behind value ready, ss = before ++ s :: behind ∧
      statements recurse frame result before m = .ok value ready ∧ (∀ inner, value ≠ .returned inner) ∧
      recurse (.stmt s) frame ready = .error fault last := by
  induction ss generalizing result m with
  | nil => cases h
  | cons s ss ih =>
    cases hs : recurse (.stmt s) frame m with
    | error other between =>
      cases (bind_of_error hs).symm.trans h
      exact ⟨[], s, ss, result, m, rfl, rfl, hresult, hs⟩
    | ok first between =>
      by_cases hfirst : ∃ inner, first = .returned inner
      · obtain ⟨inner, rfl⟩ := hfirst
        cases (statements_cons_returned hs).symm.trans h
      · have hne := not_exists.mp hfirst
        rw [statements_cons hs hne] at h
        obtain ⟨before, s', behind, value, ready, rfl, hbefore, hvalue, hs'⟩ := ih h hne
        refine ⟨s :: before, s', behind, value, ready, rfl, ?_, hvalue, hs'⟩
        exact (statements_cons hs hne).trans hbefore

theorem ran_of_eq_error {ss : List Stmt} (h : statements recurse frame .null ss m = .error fault last) :
    ∃ before s behind ready, ss = before ++ s :: behind ∧ Ran recurse frame before m ready ∧
      recurse (.stmt s) frame ready = .error fault last := by
  obtain ⟨before, s, behind, value, ready, hss, hbefore, hvalue, hs⟩ :=
    statements_eq_error h fun inner heq => nomatch heq
  exact ⟨before, s, behind, ready, hss, ⟨value, hbefore, hvalue⟩, hs⟩

end Rules

end Eval

end MonkeyLang
