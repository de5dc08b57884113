import MonkeyLang.Proofs.Eval.Deepening
import MonkeyLang.Proofs.Session.Missing

/-!
# Conditionals written inline

A conditional opens no frame and keeps a `return` wrapped, so the taken branch may as well stand where the
conditional does, behind the condition. What differs is the depth: the statements of the branch are evaluated
one level deeper inside the conditional, and near the bound this level may be the one that is missing.
-/

namespace MonkeyLang
open Eval

variable {m ready last : Machine}

theorem bind_congr_at {α β : Type} {x y : EvalM α} {f : α → EvalM β} {m m' : Machine} (h : x m = y m') :
    (x >>= f) m = (y >>= f) m' := by
  show EStateM.bind x f m = EStateM.bind y f m'
  rw [EStateM.bind, EStateM.bind, h]

theorem Deepens.of_ok {α : Type} {x y : EvalM α} (h : Deepens x y) {a : α} (hx : x m = .ok a last) :
    y m = .ok a last := by
  rcases h m with ⟨_, _, hdeep⟩ | hsame
  · cases hx.symm.trans hdeep
  · exact hsame.symm.trans hx

namespace Eval

section Rules

variable (recurse : Node → FrameId → EvalM Value) (frame : FrameId)

/-- What is left of a block behind a statement with the value. -/
def resume (ss : List Stmt) : Value → EvalM Value
  | .returned value => return .returned value
  | value => statements recurse frame value ss

variable {recurse frame}

theorem statements_eq_bind (result : Value) (s : Stmt) (ss : List Stmt) :
    statements recurse frame result (s :: ss) = recurse (.stmt s) frame >>= resume recurse frame ss :=
  rfl

theorem resume_nil : resume recurse frame [] = pure := by
  funext value
  cases value <;> rfl

theorem statements_append_bind {ss : List Stmt} (hss : ss ≠ []) (result : Value) (ts : List Stmt) :
    statements recurse frame result (ss ++ ts) =
      statements recurse frame .null ss >>= resume recurse frame ts := by
  induction ss generalizing result with
  | nil => exact absurd rfl hss
  | cons s ss ih =>
    rw [List.cons_append, statements_eq_bind, statements_eq_bind, bind_assoc]
    congr 1
    funext value
    by_cases hmore : ss = []
    · subst hmore
      rw [resume_nil, pure_bind]
      rfl
    · -- What is behind begins with a statement, so the value so far does not matter.
      have hdrop : statements recurse frame value ss = statements recurse frame .null ss := by
        obtain ⟨t, ts, rfl⟩ := List.exists_cons_of_ne_nil hmore
        rw [statements_eq_bind, statements_eq_bind]
      cases value with
      | returned inner => rfl
      | _ => exact (ih hmore _).trans (congrArg (· >>= _) hdrop.symm)

theorem stmt_branch (site : Span) {c : Expr} {yes taken : Block} {no : Option Block} {value : Value}
    (hc : recurse (.expr c) frame m = .ok value last) (hvalue : value.isError = false)
    (htaken : (if value.isTruthy then some yes else no) = some taken) :
    stmt recurse frame (.branch site c yes no) m = statements recurse frame .null taken.statements last := by
  refine (bind_of_ok hc).trans ?_
  cases hb : value.isTruthy with
  | true =>
    rw [hb, if_pos rfl] at htaken
    cases htaken
    cases value with
    | error => cases hvalue
    | _ => simp only [hb, if_true]
  | false =>
    rw [hb, if_neg Bool.false_ne_true] at htaken
    cases htaken
    cases value with
    | error => cases hvalue
    | _ => simp only [hb, Bool.false_eq_true, if_false]

end Rules

end Eval

section Blocks

variable {depth : Nat} {frame : FrameId} {pre : List Stmt} {c : Expr} {value : Value}
  (hpre : Ran (evalWithin (depth + 1)) frame pre m ready)
  (hc : evalWithin depth (.expr c) frame ready = .ok value last)
include hpre hc

theorem block_branch {yes taken : Block} {no : Option Block} (hvalue : value.isError = false)
    (htaken : (if value.isTruthy then some yes else no) = some taken) (span site : Span) (post : List Stmt) :
    evalWithin (depth + 2) (.block (.mk span (pre ++ .branch site c yes no :: post))) frame m =
      (statements (evalWithin depth) frame .null taken.statements >>=
        resume (evalWithin (depth + 1)) frame post) last := by
  obtain ⟨result, hpre, hresult⟩ := hpre
  have hbranch : evalWithin (depth + 1) (.stmt (.branch site c yes no)) frame ready =
      statements (evalWithin depth) frame .null taken.statements last := stmt_branch site hc hvalue htaken
  show statements (evalWithin (depth + 1)) frame .null (pre ++ .branch site c yes no :: post) m = _
  rw [statements_append hpre hresult, statements_eq_bind]
  exact bind_congr_at hbranch

theorem block_inline (hvalue : ∀ inner, value ≠ .returned inner) {ss : List Stmt} (hss : ss ≠ [])
    (span site : Span) (post : List Stmt) :
    evalWithin (depth + 2) (.block (.mk span (pre ++ .expr site c :: (ss ++ post)))) frame m =
      (statements (evalWithin (depth + 1)) frame .null ss >>=
        resume (evalWithin (depth + 1)) frame post) last := by
  obtain ⟨result, hpre, hresult⟩ := hpre
  have hstmt : evalWithin (depth + 1) (.stmt (.expr site c)) frame ready = .ok value last := hc
  show statements (evalWithin (depth + 1)) frame .null (pre ++ .expr site c :: (ss ++ post)) m = _
  rw [statements_append hpre hresult, statements_cons hstmt hvalue, statements_append_bind hss]

end Blocks

/-- A conditional with a branch that is taken ends as the condition and the branch do that stand in its place,
in the same value, wrapped return value or fault and in the same machine, unless it meets the bound on the
nesting; and these end as the conditional does that has one level more, unless they meet it. -/
theorem branch_inline {depth : Nat} {frame : FrameId} {pre : List Stmt} {c : Expr} {value : Value}
    (hpre : Ran (evalWithin (depth + 1)) frame pre m ready)
    (hc : evalWithin depth (.expr c) frame ready = .ok value last) (herror : value.isError = false)
    (hwrapped : ∀ inner, value ≠ .returned inner) {yes taken : Block} {no : Option Block}
    (htaken : (if value.isTruthy then some yes else no) = some taken) (hne : taken.statements ≠ [])
    (post : List Stmt) (span span' site site' : Span) :
    let branching : Node := .block (.mk span (pre ++ .branch site c yes no :: post))
    let inline : Node := .block (.mk span' (pre ++ .expr site' c :: (taken.statements ++ post)))
    ((∃ span last, evalWithin (depth + 2) branching frame m = .error (.tooDeep span) last) ∨
      evalWithin (depth + 2) branching frame m = evalWithin (depth + 2) inline frame m) ∧
    ((∃ span last, evalWithin (depth + 2) inline frame m = .error (.tooDeep span) last) ∨
      evalWithin (depth + 2) inline frame m = evalWithin (depth + 3) branching frame m) := by
  intro branching inline
  have hdeeper (depth : Nat) : ∀ node frame, Deepens (evalWithin depth node frame)
      (evalWithin (depth + 1) node frame) := evalWithin_deepens (Nat.le_succ depth)
  have hpre' : Ran (evalWithin (depth + 2)) frame pre m ready := by
    obtain ⟨result, hpre, hresult⟩ := hpre
    exact ⟨result, (deepens_statements (hdeeper _) .null pre).of_ok hpre, hresult⟩
  have hc' : evalWithin (depth + 1) (.expr c) frame ready = .ok value last := (hdeeper depth _ _).of_ok hc
  -- Both forms now evaluate the branch and then `post`; only the depth of the branch differs.
  rw [block_branch hpre hc herror htaken span site post, block_inline hpre hc hwrapped hne span' site' post,
    block_branch hpre' hc' herror htaken span site post]
  constructor
  · exact Deepens.bind (deepens_statements (hdeeper depth) .null _) (fun _ => .refl _) last
  · refine Deepens.bind (.refl _) (fun value => ?_) last
    cases value with
    | returned inner => exact .refl _
    | _ => exact deepens_statements (hdeeper (depth + 1)) _ _

theorem branch_inline_return :
    let m : Machine := ⟨⟨#[⟨[], none⟩]⟩, [], 0, #[]⟩
    let a : Expr := .name ⟨default, "a"⟩
    let pre : List Stmt := [.bind default ⟨default, "a"⟩ (.integer default 1)]
    let yes : List Stmt := [.bind default ⟨default, "b"⟩ (.integer default 2), .ret default (.name ⟨default, "b"⟩)]
    let branching : Block := .mk default (pre ++ [.branch default a (.mk default yes) none, .expr default a])
    let inline : Block := .mk default (pre ++ .expr default a :: (yes ++ [.expr default a]))
    let bound : Machine := ⟨⟨#[⟨[("a", .integer 1), ("b", .integer 2)], none⟩]⟩, [], 0, #[]⟩
    evalWithin 4 (.block branching) 0 m = .ok (.returned (.integer 2)) bound ∧
      evalWithin 4 (.block inline) 0 m = .ok (.returned (.integer 2)) bound ∧
      evalWithin 5 (.block branching) 0 m = .ok (.returned (.integer 2)) bound := by
  intro m a pre yes branching inline bound
  have hpre : Ran (evalWithin 3) 0 pre m ⟨⟨#[⟨[("a", .integer 1)], none⟩]⟩, [], 0, #[]⟩ :=
    ⟨.integer 1, by cbv, by simp⟩
  have hc : evalWithin 2 (.expr a) 0 ⟨⟨#[⟨[("a", .integer 1)], none⟩]⟩, [], 0, #[]⟩ =
      .ok (.integer 1) ⟨⟨#[⟨[("a", .integer 1)], none⟩]⟩, [], 0, #[]⟩ := by
    simp only [a]
    cbv
  have hbranching : evalWithin 4 (.block branching) 0 m = .ok (.returned (.integer 2)) bound := by cbv
  obtain ⟨hinline, hbranching'⟩ := @branch_inline _ _ _ _ _ _ _ _ hpre hc rfl (by simp) (.mk default yes)
    (.mk default yes) none rfl (by simp [yes, Block.statements]) [.expr default a] default default default default
  have hsame := hinline.resolve_left (by
    rintro ⟨span, last, herror⟩
    cases hbranching.symm.trans herror)
  have hinline := hsame.symm.trans hbranching
  have hsame' := hbranching'.resolve_left (by
    rintro ⟨span, last, herror⟩
    cases hinline.symm.trans herror)
  exact ⟨hbranching, hinline, hsame'.symm.trans hinline⟩

/-- A host may put a wrapped value into an array. As a condition it is passed over, and inline it returns. -/
example :
    let m : Machine := ⟨⟨#[⟨[("x", .array [.returned (.integer 1)])], none⟩]⟩, [], 0, #[]⟩
    let c : Expr := .index default (.name ⟨default, "x"⟩) (.integer default 0)
    let s : Stmt := .expr default (.integer default 2)
    evalWithin 4 (.block (.mk default [.branch default c (.mk default [s]) none])) 0 m = .ok (.integer 2) m ∧
      evalWithin 4 (.block (.mk default [.expr default c, s])) 0 m = .ok (.returned (.integer 1)) m := by
  constructor <;> cbv

/-! ## At the bound -/

def Expr.negated (e : Expr) : Nat → Expr
  | 0 => e
  | n + 1 => .unary default .not (e.negated n)

def Expr.callTo (name : String) : Expr :=
  .call default (.name ⟨default, name⟩) []

def Stmt.enclosed (e : Expr) : Nat → Stmt
  | 0 => .expr default e
  | n + 1 => .branch default (.boolean default true) (.mk default [enclosed e n]) none

def Block.behind (n : Nat) (s : Stmt) : Block :=
  .mk default (List.replicate n (.expr default (.boolean default true)) ++ [s])

theorem Block.behind_succ (n : Nat) (s : Stmt) : behind (n + 1) s =
    .mk default (List.replicate n (.expr default (.boolean default true)) ++
      .expr default (.boolean default true) :: [s]) := by
  simp [behind, List.replicate_succ']

def Closure.giving (id : Nat) (e : Expr) : Closure :=
  ⟨id, [], .mk default [.expr default e], 0⟩

def Machine.Shows (m : Machine) (table : List (String × Value)) (frame : FrameId) : Prop :=
  0 < m.store.frames.size ∧ ∀ entry ∈ table, m.store.resolve 0 entry.1 = some entry.2 ∧
    m.store.resolve frame entry.1 = some entry.2

structure Settles (fits : Bool) (x : EvalM Value) (m : Machine) : Prop where
  ends : Ends x m (fun value _ => fits = true ∧ value.isError = false ∧ ∀ inner, value ≠ .returned inner)
    (fun fault _ => fits = false ∧ ∃ span, fault = .tooDeep span)

theorem settles_congr {x y : EvalM Value} {fits : Bool} {m m' : Machine} (h : x m = y m') (hy : Settles fits y m') :
    Settles fits x m := by
  refine ⟨?_⟩
  have hends := hy.ends
  unfold Ends at hends ⊢
  rwa [h]

theorem Settles.bind {x : EvalM Value} {f : Value → EvalM Value} {fits : Bool} (hx : Settles fits x m)
    (hf : ∀ value last, value.isError = false → (∀ inner, value ≠ .returned inner) → fits = true →
      Settles fits (f value) last) : Settles fits (x >>= f) m :=
  ⟨ends_bind.mpr (hx.ends.mono (fun value last ⟨hfits, herror, hwrapped⟩ =>
    (hf value last herror hwrapped hfits).ends) fun _ _ hfault => hfault)⟩

theorem Settles.exists_value {x : EvalM Value} (h : Settles true x m) : ∃ value last, x m = .ok value last := by
  cases hx : x m with
  | ok value last => exact ⟨value, last, rfl⟩
  | error fault last => cases (h.ends.of_error hx).1

theorem Settles.exists_tooDeep {x : EvalM Value} (h : Settles false x m) :
    ∃ span last, x m = .error (.tooDeep span) last := by
  cases hx : x m with
  | ok value last => cases (h.ends.of_ok hx).1
  | error fault last =>
    obtain ⟨-, span, rfl⟩ := h.ends.of_error hx
    exact ⟨span, last, rfl⟩

theorem ran_trues (depth n : Nat) (frame : FrameId) (m : Machine) :
    Ran (evalWithin (depth + 2)) frame (List.replicate n (.expr default (.boolean default true))) m m := by
  induction n with
  | zero => exact ⟨.null, rfl, nofun⟩
  | succ n ih =>
    have htrue : evalWithin (depth + 2) (.stmt (.expr default (.boolean default true))) frame m =
      .ok (.boolean true) m := rfl
    exact ran_cons htrue nofun ih

def Node.Settles (node : Node) (table : List (String × Value)) (fits : Bool) (depth : Nat) : Prop :=
  ∀ m frame, Machine.Shows m table frame → MonkeyLang.Settles fits (evalWithin depth node frame) m

namespace Node.Settles

variable {table : List (String × Value)} {fits : Bool} {depth : Nat} {e : Expr} {s : Stmt}

theorem integer (span : Span) (n depth : Nat) : Settles (.expr (.integer span n)) table true (depth + 1) :=
  fun _ _ _ => ⟨⟨rfl, rfl, nofun⟩⟩

theorem negation (h : Settles (.expr e) table fits depth) (span : Span) :
    Settles (.expr (.unary span .not e)) table fits (depth + 1) := by
  intro m frame hshows
  refine (h m frame hshows).bind fun value last herror _ hfits => ?_
  cases value with
  | error => cases herror
  | _ => exact ⟨⟨hfits, rfl, nofun⟩⟩

theorem negated (h : Settles (.expr e) table fits depth) (n : Nat) :
    Settles (.expr (e.negated n)) table fits (depth + n) := by
  induction n with
  | zero => exact h
  | succ n ih => exact ih.negation default

theorem negated_of_le {n : Nat} (h : depth ≤ n) : Settles (.expr (e.negated n)) table false depth := by
  induction depth generalizing n with
  | zero => exact fun _ _ _ => ⟨⟨rfl, _, rfl⟩⟩
  | succ depth ih =>
    obtain ⟨n, rfl⟩ := Nat.exists_eq_succ_of_ne_zero (Nat.ne_zero_of_lt h)
    exact (ih (Nat.le_of_succ_le_succ h)).negation default

theorem stmt (h : Settles (.expr e) table fits depth) (span : Span) :
    Settles (.stmt (.expr span e)) table fits (depth + 1) :=
  h

theorem single (h : Settles (.stmt s) table fits depth) (span : Span) :
    Settles (.block (.mk span [s])) table fits (depth + 1) := by
  intro m frame hshows
  refine (h m frame hshows).bind fun value last herror hwrapped hfits => ?_
  cases value with
  | returned inner => exact absurd rfl (hwrapped inner)
  | _ => exact ⟨⟨hfits, herror, hwrapped⟩⟩

theorem enclosed (h : Settles (.expr e) table fits depth) (n : Nat) :
    Settles (.stmt (.enclosed e n)) table fits (depth + 1 + n) := by
  induction n with
  | zero => exact h.stmt default
  | succ n ih =>
    intro m frame hshows
    have hc : evalWithin (depth + 1 + n) (.expr (.boolean default true)) frame m = .ok (.boolean true) m := by
      rw [Nat.add_right_comm]
      rfl
    have hbranch := @stmt_branch _ _ (evalWithin (depth + 1 + n)) frame default _
      (.mk default [.enclosed e n]) _ none _ hc rfl rfl
    exact settles_congr hbranch (ih.single default m frame hshows)

theorem behind (h : Settles (.stmt s) table fits (depth + 2)) (n : Nat) :
    Settles (.block (.behind n s)) table fits (depth + 3) := by
  intro m frame hshows
  obtain ⟨value, htrues, hvalue⟩ := ran_trues depth n frame m
  exact settles_congr (statements_append htrues hvalue) (h.single default m frame hshows)

theorem callTo (h : Settles (.expr e) table fits depth) {name : String} (id : Nat)
    (hname : (name, .function (.giving id e)) ∈ table) :
    Settles (.expr (.callTo name)) table fits (depth + 3) := by
  intro m frame hshows
  obtain ⟨hsize, hresolve⟩ := hshows
  have hcallee : evalWithin (depth + 2) (.expr (.name ⟨default, name⟩)) frame m =
      .ok (.function (.giving id e)) m := by
    show EStateM.Result.ok ((m.store.resolve frame name).getD _) m = _
    rw [(hresolve _ hname).2]
    rfl
  have hcall : evalWithin (depth + 3) (.expr (.callTo name)) frame m =
      call (evalWithin (depth + 2)) (.function (.giving id e)) [] (some default) m := bind_of_ok hcallee
  have hshows : Machine.Shows ⟨(m.store.child (some 0)).2, ⟨"<fn>", []⟩ :: m.calls, m.closures,
      m.trace.push (.function (.giving id e) 0)⟩ table m.store.frames.size := by
    refine ⟨by simp [Store.child], fun entry mem => ?_⟩
    have hlacks := Store.lacks_child m.store 0 entry.1
    refine ⟨?_, ?_⟩
    · exact (Store.resolve_of_extends hlacks.kept hsize entry.1).trans (hresolve entry mem).1
    · exact hlacks.resolve.trans (hresolve entry mem).1
  have hbody := (h.stmt default).single default _ _ hshows
  refine settles_congr hcall ?_
  rw [call_function]
  refine settles_congr (bind_of_ok (show prepare (.giving id e) [] m = .ok m.store.frames.size _ from rfl)) ?_
  refine ⟨ends_bind.mpr (Machine.ends_during.mpr (hbody.ends.mono (fun value last hvalue => ?_)
    fun _ _ hfault => hfault))⟩
  obtain ⟨hfits, herror, hwrapped⟩ := hvalue
  cases value with
  | returned inner => exact absurd rfl (hwrapped inner)
  | _ => exact ⟨hfits, herror, hwrapped⟩

end Node.Settles

def negators (n : Nat) : List (String × Value) :=
  [("f", .function (.giving 0 ((Expr.integer default 1).negated n))),
    ("g", .function (.giving 1 ((Expr.callTo "f").negated n))),
    ("h", .function (.giving 2 ((Expr.callTo "g").negated n)))]

theorem shows_negators (n : Nat) : Machine.Shows ⟨⟨#[⟨negators n, none⟩]⟩, [], 3, #[]⟩ (negators n) 0 := by
  refine ⟨Nat.one_pos, fun entry mem => ?_⟩
  have hresolve : (Store.mk #[⟨negators n, none⟩]).resolve 0 entry.1 = some entry.2 := by
    simp only [negators, List.mem_cons, List.not_mem_nil, or_false] at mem
    rcases mem with rfl | rfl | rfl <;>
      simp [Store.resolve, Store.owner?, Store.bindings, Table.contains, negators, List.lookup]
  exact ⟨hresolve, hresolve⟩

theorem settles_negators {n depth limit : Nat} {fits : Bool}
    (h : Node.Settles (.expr ((Expr.integer default 1).negated n)) (negators n) fits depth) (done k : Nat)
    (hlimit : limit = depth + n + n + k + 11) :
    Node.Settles (.block (.behind done (.enclosed (.callTo "h") k))) (negators n) fits limit := by
  have hf : Node.Settles (.expr (.callTo "f")) (negators n) fits (depth + 3) := h.callTo 0 (by simp [negators])
  have hg : Node.Settles (.expr (.callTo "g")) (negators n) fits (depth + 3 + n + 3) :=
    (hf.negated n).callTo 1 (by simp [negators])
  have hh : Node.Settles (.expr (.callTo "h")) (negators n) fits (depth + 3 + n + 3 + n + 3) :=
    (hg.negated n).callTo 2 (by simp [negators])
  have hdepth : depth + 3 + n + 3 + n + 3 + 1 + k = depth + n + n + k + 8 + 2 := by omega
  have hstmt := hh.enclosed k
  rw [hdepth] at hstmt
  rw [hlimit]
  exact hstmt.behind done

/-- At the bound a branch may be taken that is evaluated when it stands inline, but not inside the conditional:
here three thousand conditionals take three thousand levels more than what they enclose. -/
theorem branch_inline_limit :
    let m : Machine := ⟨⟨#[⟨negators 9600, none⟩]⟩, [], 3, #[]⟩
    (∃ span last, evalWithin evaluationLimit (.block (.behind 0 (.enclosed (.callTo "h") 3000))) 0 m =
      .error (.tooDeep span) last) ∧
    (∃ value last, evalWithin evaluationLimit (.block (.behind 3000 (.enclosed (.callTo "h") 0))) 0 m =
      .ok value last) ∧
    ¬ ∀ (frame : FrameId) (m ready last : Machine) (pre yes post : List Stmt) (no : Option Block) (c : Expr)
      (value : Value), Ran (evalWithin (evaluationLimit - 1)) frame pre m ready →
      evalWithin (evaluationLimit - 2) (.expr c) frame ready = .ok value last →
      value.isError = false → value.isTruthy = true → yes ≠ [] →
      evalWithin evaluationLimit (.block (.mk default (pre ++ .branch default c (.mk default yes) no :: post)))
          frame m =
        evalWithin evaluationLimit (.block (.mk default (pre ++ .expr default c :: (yes ++ post)))) frame m := by
  intro m
  have hmeets (n depth : Nat) (h : depth ≤ n) :
      Node.Settles (.expr ((Expr.integer default 1).negated n)) (negators n) false depth := .negated_of_le h
  have hnested := (settles_negators (hmeets 9600 7789 (by decide)) 0 3000
    (show evaluationLimit = 7789 + 9600 + 9600 + 3000 + 11 from rfl) m 0 (shows_negators 9600)).exists_tooDeep
  have hfits (n depth : Nat) : Node.Settles (.expr ((Expr.integer default 1).negated n)) (negators n) true
      (depth + 1 + n) := (Node.Settles.integer default 1 depth).negated n
  have hinline := (settles_negators (hfits 9600 1188) 3000 0
    (show evaluationLimit = 1188 + 1 + 9600 + 9600 + 9600 + 0 + 11 from rfl) m 0 (shows_negators 9600)).exists_value
  refine ⟨hnested, hinline, fun law => ?_⟩
  have hstep (n done : Nat) :
      evalWithin evaluationLimit (.block (.behind done (.enclosed (.callTo "h") n))) 0 m =
        evalWithin evaluationLimit (.block (.behind (done + n) (.enclosed (.callTo "h") 0))) 0 m := by
    induction n generalizing done with
    | zero => rfl
    | succ n ih =>
      have hlaw := law 0 m m m (List.replicate done (.expr default (.boolean default true)))
        [.enclosed (.callTo "h") n] [] none (.boolean default true) (.boolean true) (ran_trues _ done 0 m)
        rfl rfl rfl (List.cons_ne_nil _ _)
      calc evalWithin evaluationLimit (.block (.behind done (.enclosed (.callTo "h") (n + 1)))) 0 m
        _ = evalWithin evaluationLimit (.block (.behind (done + 1) (.enclosed (.callTo "h") n))) 0 m := by
          rw [Block.behind_succ]
          exact hlaw
        _ = evalWithin evaluationLimit (.block (.behind (done + (n + 1)) (.enclosed (.callTo "h") 0))) 0 m := by
          rw [ih, Nat.succ_add_eq_add_succ]
  obtain ⟨_, last, hnested⟩ := hnested
  obtain ⟨value, last', hinline⟩ := hinline
  rw [← Nat.zero_add 3000, ← hstep 3000 0] at hinline
  cases hnested.symm.trans hinline

end MonkeyLang
