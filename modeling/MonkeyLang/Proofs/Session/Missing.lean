import MonkeyLang.Proofs.Eval.Deepening
import MonkeyLang.Proofs.Session.Active
import MonkeyLang.Proofs.Session.Shadowing

namespace MonkeyLang
open Eval

namespace Store

variable {frame scope : FrameId} {name : String} {names : List String} {before middle after : Store}

def Spares (frame : FrameId) (name : String) (before after : Store) : Prop :=
  ∃ names, name ∉ names ∧ before.Changes frame names after

structure Lacks (before : Store) (scope : FrameId) (name : String) (after : Store) : Prop where
  kept : before.Extends after
  parent : after.parent? before.frames.size = some scope
  unbound : name ∉ after.names before.frames.size

theorem Changes.spares (h : before.Changes frame [] after) (name : String) :
    before.Spares frame name after :=
  ⟨[], List.not_mem_nil, h⟩

theorem Spares.refl (frame : FrameId) (name : String) (store : Store) : store.Spares frame name store :=
  (Changes.refl frame [] store).spares name

theorem Spares.trans (h : before.Spares frame name middle) (h' : middle.Spares frame name after) :
    before.Spares frame name after := by
  obtain ⟨names, hnames, hchanges⟩ := h
  obtain ⟨more, hmore, hchanges'⟩ := h'
  refine ⟨names ++ more, by simp [hnames, hmore], ?_⟩
  exact (hchanges.mono (List.subset_append_left ..)).trans (hchanges'.mono (List.subset_append_right ..))

theorem owner?_of_extends (h : before.Extends after) {f : FrameId} (hf : f < before.frames.size)
    (name : String) : after.owner? f name = before.owner? f name := by
  induction f using Nat.strongRecOn with
  | ind f ih =>
    have hframe := Array.getElem?_eq_getElem hf
    rw [owner?, owner?, hframe, h f _ hframe]
    cases before.frames[f] with
    | mk bindings parent =>
      cases parent with
      | none => rfl
      | some parent =>
        by_cases hparent : parent < f
        · simp only [ih parent hparent (Nat.lt_trans hparent hf)]
        · simp only [if_neg hparent]

theorem owner?_le {store : Store} {f owner : FrameId} (h : store.owner? f name = some owner) :
    owner ≤ f := by
  induction f using Nat.strongRecOn with
  | ind f ih =>
    rw [owner?] at h
    split at h
    · cases h
    · split at h
      · cases h
        exact Nat.le_refl owner
      · split at h
        · cases h
        · split at h
          next hparent => exact Nat.le_trans (ih _ hparent h) (Nat.le_of_lt hparent)
          next => cases h

theorem resolve_of_extends (h : before.Extends after) {f : FrameId} (hf : f < before.frames.size)
    (name : String) : after.resolve f name = before.resolve f name := by
  rw [resolve, owner?_of_extends h hf, resolve]
  cases howner : before.owner? f name with
  | none => rfl
  | some owner =>
    have hframe := Array.getElem?_eq_getElem (Nat.lt_of_le_of_lt (owner?_le howner) hf)
    simp only [Option.bind_some, bindings, hframe, h owner _ hframe]

theorem lacks_child (store : Store) (scope : FrameId) (name : String) :
    store.Lacks scope name (store.child (some scope)).2 := by
  have hnew : (store.child (some scope)).2.frames[store.frames.size]? = some ⟨[], some scope⟩ := by
    rw [child, Array.getElem?_push_size]
  constructor
  · intro i old hold
    exact (frames_child store _ (lt_size_of_some hold)).trans hold
  · rw [parent?_of_some hnew]
  · rw [names_of_some hnew]
    exact List.not_mem_nil

theorem Lacks.of_spares (h : before.Lacks scope name middle)
    (hspares : middle.Spares before.frames.size name after) : before.Lacks scope name after := by
  obtain ⟨names, hnames, hchanges⟩ := hspares
  have hparent := h.parent
  obtain ⟨old, hold, hscope⟩ := Option.bind_eq_some_iff.mp hparent
  obtain ⟨new, hnew, hsame, -, hfilter⟩ := hchanges _ old hold
  constructor
  · intro i frame hframe
    obtain ⟨new, hnew, hparent, hbindings, -⟩ := hchanges i frame (h.kept i frame hframe)
    have hbindings := hbindings (Nat.ne_of_lt (lt_size_of_some hframe))
    cases new
    cases frame
    cases hparent
    cases hbindings
    exact hnew
  · rw [parent?_of_some hnew, hsame, hscope]
  · have hunbound := h.unbound
    rw [names_of_some hold] at hunbound
    rw [names_of_some hnew]
    intro hmem
    obtain ⟨binding, hbinding, rfl⟩ := List.mem_map.mp hmem
    have hkept : binding ∈ new.bindings.filter (·.1 ∉ names) :=
      List.mem_filter.mpr ⟨hbinding, by simpa using hnames⟩
    rw [hfilter] at hkept
    exact hunbound (List.mem_map_of_mem (List.mem_of_mem_filter hkept))

theorem Lacks.resolve (h : before.Lacks scope name after) :
    after.resolve before.frames.size name = before.resolve scope name := by
  obtain ⟨inner, hinner, hscope⟩ := Option.bind_eq_some_iff.mp h.parent
  have hunbound := h.unbound
  rw [names_of_some hinner] at hunbound
  have howner : after.owner? before.frames.size name =
      if scope < before.frames.size then after.owner? scope name else none := by
    rw [owner?, hinner]
    obtain ⟨bindings, parent⟩ := inner
    cases hscope
    exact if_neg fun hcontains => hunbound (Table.contains_iff.mp hcontains)
  by_cases hlt : scope < before.frames.size
  · rw [← resolve_of_extends h.kept hlt, Store.resolve, howner, if_pos hlt, Store.resolve]
  · rw [Store.resolve, howner, if_neg hlt, Store.resolve, owner?]
    rw [Array.getElem?_eq_none (Nat.le_of_not_lt hlt)]
    rfl

end Store

namespace Eval

theorem bindParams_take (frame : FrameId) (params : List Ident) (values : List Value) :
    bindParams frame (params.take values.length) values = bindParams frame params values := by
  induction params generalizing values with
  | nil => rw [List.take_nil]
  | cons param params ih =>
    cases values with
    | nil => rfl
    | cons value values => simp only [List.length_cons, List.take_succ_cons, bindParams, ih]

theorem lacks_of_prepare {closure : Closure} {values : List Value} {m bound : Machine} {inner : FrameId}
    (h : prepare closure values m = .ok inner bound) {name : String}
    (hname : name ∉ (closure.params.take values.length).map (·.name)) :
    inner = m.store.frames.size ∧ m.store.Lacks closure.scope name bound.store := by
  obtain ⟨frame, ready, hchild, hrest⟩ := bind_eq_ok h
  cases hchild
  obtain ⟨⟨⟩, last, hbind, hrest⟩ := bind_eq_ok hrest
  cases hrest
  rw [← bindParams_take] at hbind
  refine ⟨rfl, (m.store.lacks_child closure.scope name).of_spares ⟨_, hname, ?_⟩⟩
  exact (keeps_bindParams _ values _).of_ok hbind

theorem exists_bindParams (frame : FrameId) (params : List Ident) {values : List Value}
    (hvalues : ∀ value ∈ values, ∀ inner, value ≠ .returned inner) (m : Machine) :
    ∃ last, bindParams frame params values m = .ok () last := by
  induction params generalizing values m with
  | nil => exact ⟨m, rfl⟩
  | cons param params ih =>
    cases values with
    | nil => exact ⟨m, rfl⟩
    | cons value values =>
      obtain ⟨hvalue, hrest⟩ := List.forall_mem_cons.mp hvalues
      obtain ⟨last, hlast⟩ := ih hrest { m with store := m.store.bind frame param.name value }
      exact ⟨last, (bind_of_ok (Machine.after_bind hvalue m frame param.name)).trans hlast⟩

theorem exists_prepare (closure : Closure) {values : List Value}
    (hvalues : ∀ value ∈ values, ∀ inner, value ≠ .returned inner) (m : Machine) :
    ∃ inner bound, prepare closure values m = .ok inner bound := by
  obtain ⟨last, hbind⟩ := exists_bindParams m.store.frames.size closure.params hvalues
    { m with store := (m.store.child (some closure.scope)).2 }
  exact ⟨_, _, bind_of_ok hbind⟩

theorem spares_expr {depth : Nat} {e : Expr} {frame : FrameId} {m last : Machine} {value : Value}
    (h : evalWithin depth (.expr e) frame m = .ok value last) (name : String) :
    m.store.Spares frame name last.store :=
  ((keeps_evalWithin depth (.expr e) frame m).of_ok h).spares name

theorem spares_of_passed {depth : Nat} {frame : FrameId} {parts : List Part} {m last : Machine}
    (h : Passed (evalWithin depth) frame parts m last) (name : String) :
    m.store.Spares frame name last.store := by
  induction h with
  | nil m => exact .refl frame name m.store
  | cons he _ _ ih => exact (spares_expr he name).trans ih

theorem branch_eq_ok {recurse : Node → FrameId → EvalM Value} {frame : FrameId} {m last : Machine}
    {value : Value} (span : Span) {condition : Expr} {consequence : Block} {alternative : Option Block}
    (h : stmt recurse frame (.branch span condition consequence alternative) m = .ok value last) :
    recurse (.expr condition) frame m = .ok value last ∨ ∃ first ready,
      recurse (.expr condition) frame m = .ok first ready ∧ first.isError = false ∧
        (last = ready ∨ ∃ block, (if first.isTruthy then some consequence else alternative) = some block ∧
          statements recurse frame .null block.statements ready = .ok value last) := by
  rcases unlessError_eq_ok h with hcondition | ⟨first, ready, hcondition, hfirst, hrest⟩
  · exact .inl hcondition
  · refine .inr ⟨first, ready, hcondition, hfirst, ?_⟩
    by_cases htruthy : first.isTruthy = true
    · rw [if_pos htruthy] at hrest
      exact .inr ⟨consequence, if_pos htruthy, hrest⟩
    · rw [if_neg htruthy] at hrest
      cases alternative with
      | none =>
        cases hrest
        exact .inl rfl
      | some alternative => exact .inr ⟨alternative, if_neg htruthy, hrest⟩

end Eval

namespace Evaluation

/-- In the evaluation, a `let` of the name is come to in the frame of the evaluation. -/
def Lets (name : String) (x : Evaluation) : Prop :=
  ∃ y span ident value, Active x [] y ∧ y.node = .stmt (.bind span ident value) ∧ ident.name = name

/-- The first evaluation comes to the second one in the same frame, and no statement that is evaluated
before it lets the name. -/
inductive Leads (name : String) : Evaluation → Evaluation → Prop where
  | here (x : Evaluation) : Leads name x x
  | expression {x y : Evaluation} {depth : Nat} {e : Expr} {frame : FrameId} {m : Machine} :
      Begins x [] ⟨depth, .expr e, frame, m⟩ → Leads name ⟨depth, .expr e, frame, m⟩ y → Leads name x y
  | statement {depth : Nat} {frame : FrameId} {m ready : Machine} {y : Evaluation} (span : Span)
      {before : List Stmt} (s : Stmt) (behind : List Stmt) : Ran (evalWithin depth) frame before m ready →
      ¬ Lets name ⟨depth + 1, .block (.mk span before), frame, m⟩ →
      Leads name ⟨depth, .stmt s, frame, ready⟩ y →
      Leads name ⟨depth + 1, .block (.mk span (before ++ s :: behind)), frame, m⟩ y
  | branch {depth : Nat} {frame : FrameId} {m ready last : Machine} {y : Evaluation} (span : Span)
      {condition : Expr} {consequence : Block} {alternative : Option Block} {value : Value} {block : Block}
      {before behind : List Stmt} {s : Stmt} :
      evalWithin depth (.expr condition) frame m = .ok value ready → value.isError = false →
      (if value.isTruthy then some consequence else alternative) = some block →
      block.statements = before ++ s :: behind → Ran (evalWithin depth) frame before ready last →
      ¬ Lets name ⟨depth + 1, .block (.mk span before), frame, ready⟩ →
      Leads name ⟨depth, .stmt s, frame, last⟩ y →
      Leads name ⟨depth + 1, .stmt (.branch span condition consequence alternative), frame, m⟩ y

variable {x y : Evaluation} {name : String} {depth : Nat} {frame : FrameId} {m ready last : Machine}
  {value : Value}

theorem Lets.of_begins (h : Lets name y) (hbegins : Begins x [] y) : Lets name x := by
  obtain ⟨z, span, ident, value, hactive, hnode, hname⟩ := h
  exact ⟨z, span, ident, value, .inside hbegins hactive, hnode, hname⟩

theorem lets_subset_letsAll {s : Stmt} {ss : List Stmt} (h : s ∈ ss) : s.lets ⊆ Stmt.letsAll ss := by
  induction h with
  | head ss => exact List.subset_append_left ..
  | tail t _ ih => exact List.Subset.trans ih (List.subset_append_right ..)

theorem lets_subset_of_begins (h : Begins x [] y) : y.node.lets ⊆ x.node.lets := by
  cases h with
  | part | callee | subject => exact List.nil_subset _
  | statement span s behind => exact lets_subset_letsAll (List.mem_append_right _ (List.mem_cons_self ..))
  | @branch _ _ _ _ _ span condition consequence alternative value block before behind s _ _ htaken hss =>
    have hblock : s.lets ⊆ block.lets := by
      rw [Block.lets_eq, hss]
      exact lets_subset_letsAll (List.mem_append_right _ (List.mem_cons_self ..))
    apply List.Subset.trans hblock
    by_cases htruthy : value.isTruthy = true
    · obtain rfl : consequence = block := Option.some.inj ((if_pos htruthy).symm.trans htaken)
      cases alternative with
      | none => exact List.Subset.refl _
      | some alternative => exact List.subset_append_left ..
    · obtain rfl : alternative = some block := (if_neg htruthy).symm.trans htaken
      exact List.subset_append_right ..

theorem Lets.mem_lets (h : Lets name x) : name ∈ x.node.lets := by
  obtain ⟨y, span, ident, value, hactive, hnode, hname⟩ := h
  generalize hcalls : ([] : List Call) = calls at hactive
  induction hactive with
  | here x =>
    rw [hnode, ← hname]
    exact List.mem_singleton_self _
  | inside hbegins _ ih =>
    obtain ⟨rfl, rfl⟩ := List.append_eq_nil_iff.mp hcalls.symm
    exact lets_subset_of_begins hbegins (ih hnode rfl)

theorem spares_statements
    (hspares : ∀ (s : Stmt) (m : Machine) (value : Value) (last : Machine),
      ¬ Lets name ⟨depth, .stmt s, frame, m⟩ → evalWithin depth (.stmt s) frame m = .ok value last →
      m.store.Spares frame name last.store)
    {ss : List Stmt} {result : Value}
    (hlets : ∀ before s behind ready, ss = before ++ s :: behind →
      Ran (evalWithin depth) frame before m ready → ¬ Lets name ⟨depth, .stmt s, frame, ready⟩)
    (h : statements (evalWithin depth) frame result ss m = .ok value last) :
    m.store.Spares frame name last.store := by
  induction ss generalizing m result with
  | nil =>
    cases h
    exact .refl frame name _
  | cons s ss ih =>
    obtain ⟨first, ready, hs, -⟩ := bind_eq_ok h
    have hfirst := hspares s m first ready (hlets [] s ss m rfl ⟨.null, rfl, nofun⟩) hs
    by_cases hreturned : ∃ inner, first = .returned inner
    · obtain ⟨inner, rfl⟩ := hreturned
      cases (statements_cons_returned hs).symm.trans h
      exact hfirst
    · have hne := not_exists.mp hreturned
      apply hfirst.trans
      apply ih
      · rintro before t behind last rfl hbefore
        exact hlets (s :: before) t behind last rfl (ran_cons hs hne hbefore)
      · exact (statements_cons hs hne).symm.trans h

theorem spares_of_not_lets {node : Node} (hlets : ¬ Lets name ⟨depth, node, frame, m⟩)
    (h : evalWithin depth node frame m = .ok value last) : m.store.Spares frame name last.store := by
  induction depth generalizing node m value last with
  | zero => cases h
  | succ depth ih =>
    have hchanges := (keeps_evalWithin (depth + 1) node frame m).of_ok h
    have hspares : ∀ (s : Stmt) (m : Machine) (value : Value) (last : Machine),
        ¬ Lets name ⟨depth, .stmt s, frame, m⟩ → evalWithin depth (.stmt s) frame m = .ok value last →
        m.store.Spares frame name last.store := fun s m value last => ih
    match node with
    | .expr e => exact hchanges.spares name
    | .stmt (.ret span e) => exact hchanges.spares name
    | .stmt (.expr span e) => exact hchanges.spares name
    | .stmt (.bind span ident e) =>
      refine ⟨[ident.name], ?_, hchanges⟩
      rw [List.mem_singleton]
      rintro rfl
      exact hlets ⟨_, span, ident, e, .here _, rfl, rfl⟩
    | .block (.mk span ss) =>
      refine spares_statements hspares ?_ h
      rintro before s behind ready rfl hbefore hs
      exact hlets (hs.of_begins (.statement span s behind hbefore))
    | .stmt (.branch span condition consequence alternative) =>
      rcases branch_eq_ok span h with hcondition | ⟨first, ready, hcondition, hfirst, hends⟩
      · exact spares_expr hcondition name
      · apply (spares_expr hcondition name).trans
        rcases hends with rfl | ⟨block, htaken, hrun⟩
        · exact .refl frame name _
        · refine spares_statements hspares ?_ hrun
          rintro before s behind between hss hbefore hs
          exact hlets (hs.of_begins (.branch span hcondition hfirst htaken hss hbefore))

theorem spares_of_begins {e : Expr} (h : Begins x [] ⟨depth, .expr e, frame, m⟩) :
    frame = x.frame ∧ x.machine.store.Spares x.frame name m.store := by
  cases h with
  | part layer e hfront => exact ⟨rfl, spares_of_passed hfront name⟩
  | callee => exact ⟨rfl, .refl _ name _⟩
  | subject => exact ⟨rfl, .refl _ name _⟩

theorem spares_of_ran {span : Span} {before : List Stmt} (h : Ran (evalWithin depth) frame before m ready)
    (hlets : ¬ Lets name ⟨depth + 1, .block (.mk span before), frame, m⟩) :
    m.store.Spares frame name ready.store := by
  obtain ⟨value, hbefore, -⟩ := h
  exact spares_of_not_lets hlets hbefore

theorem Leads.spares (h : Leads name x y) :
    y.frame = x.frame ∧ x.machine.store.Spares x.frame name y.machine.store := by
  induction h with
  | here x => exact ⟨rfl, .refl _ name _⟩
  | expression hbegins _ ih =>
    obtain ⟨rfl, hspares⟩ := @spares_of_begins _ name _ _ _ _ hbegins
    exact ⟨ih.1, hspares.trans ih.2⟩
  | statement span s behind hbefore hlets _ ih => exact ⟨ih.1, (spares_of_ran hbefore hlets).trans ih.2⟩
  | branch span hcondition _ _ _ hbefore hlets _ ih =>
    exact ⟨ih.1, (spares_expr hcondition name).trans ((spares_of_ran hbefore hlets).trans ih.2)⟩

end Evaluation

open Evaluation

/-- In the body of a function that is called, a name that no argument is bound to, be it a parameter or not,
is looked up in the scope that the function was made in as long as no `let` of it was come to. It gives what
it is bound to there, and an error if it is unknown there as well. -/
theorem missing_resolves {closure : Closure} {values : List Value}
    (hvalues : ∀ value ∈ values, ∀ inner, value ≠ .returned inner) (m : Machine) :
    ∃ inner bound, prepare closure values m = .ok inner bound ∧
      (∀ depth site, call (evalWithin depth) (.function closure) values site m = (do
        let result ← Machine.during ⟨"<fn>", values⟩ (evalWithin depth (.block closure.body) inner)
        return result.unwrap) bound) ∧
      ∀ name, name ∉ (closure.params.take values.length).map (·.name) → ∀ depth y ident,
        Leads name ⟨depth, .block closure.body, inner,
          { bound with calls := ⟨"<fn>", values⟩ :: bound.calls }⟩ y →
        y.node = .expr (.name ident) → ident.name = name → 0 < y.depth →
        y.result = .ok ((m.store.resolve closure.scope name).getD
          (.error ("identifier not found: " ++ name))) y.machine := by
  obtain ⟨inner, bound, hcall⟩ := exists_prepare closure hvalues m
  refine ⟨inner, bound, hcall, ?_, ?_⟩
  · intro depth site
    rw [call_function]
    exact bind_of_ok hcall
  · intro name hmissing depth y ident hleads hnode hname hdepth
    obtain ⟨rfl, hlacks⟩ := lacks_of_prepare hcall hmissing
    obtain ⟨hframe, hspares⟩ := hleads.spares
    obtain ⟨depth', node, frame, last⟩ := y
    cases hnode
    cases hframe
    rw [← (hlacks.of_spares hspares).resolve, ← hname]
    cases depth' with
    | zero => cases hdepth
    | succ depth' => rfl

theorem missing_resolves_unknown :
    let closure : Closure := ⟨0, [⟨default, "a"⟩, ⟨default, "b"⟩], .mk default
      [.bind default ⟨default, "c"⟩ (.integer default 1), .expr default (.name ⟨default, "b"⟩)], 0⟩
    ∃ inner bound y, prepare closure [.integer 1] (Session.start true).machine = .ok inner bound ∧
      Leads "b" ⟨3, .block closure.body, inner,
        { bound with calls := ⟨"<fn>", [.integer 1]⟩ :: bound.calls }⟩ y ∧
      y.result = .ok (.error "identifier not found: b") y.machine := by
  intro closure
  obtain ⟨inner, bound, hcall, -, hresolves⟩ :=
    @missing_resolves closure [.integer 1] (by simp) (Session.start true).machine
  have hbefore : ∀ m, ∃ ready,
      Ran (evalWithin 2) inner [.bind default ⟨default, "c"⟩ (.integer default 1)] m ready :=
    fun m => ⟨_, .integer 1, rfl, nofun⟩
  obtain ⟨ready, hbefore⟩ := hbefore { bound with calls := ⟨"<fn>", [.integer 1]⟩ :: bound.calls }
  have hleads : Leads "b" ⟨3, .block closure.body, inner,
      { bound with calls := ⟨"<fn>", [.integer 1]⟩ :: bound.calls }⟩
      ⟨1, .expr (.name ⟨default, "b"⟩), inner, ready⟩ := by
    refine .statement default (.expr default (.name ⟨default, "b"⟩)) [] hbefore ?_ ?_
    · exact fun hlets => absurd hlets.mem_lets (by simp [Node.lets, Block.lets, Stmt.letsAll, Stmt.lets])
    · exact .expression (.subject 1 _ inner ready) (.here _)
  have hunknown : (Session.start true).machine.store.resolve 0 "b" = none := by cbv
  have hresult := hresolves "b" (by decide) _ _ _ hleads rfl rfl Nat.one_pos
  rw [hunknown] at hresult
  exact ⟨inner, bound, _, hcall, hleads, hresult⟩

/-- A function of two parameters is called with one argument, and the name of the other parameter is bound
where the function was made. -/
theorem missing_bound_outside :
    ((Session.start true).run "let b = 5; let f = fn(a, b) \x7b b \x7d; f(1)").1 = .ok (.integer 5) := by
  let source := "let b = 5; let f = fn(a, b) \x7b b \x7d; f(1)"
  let program : Block := .mk ⟨0, 0, 3⟩ [
    .bind ⟨0, 0, 3⟩ ⟨⟨0, 4, 5⟩, "b"⟩ (.integer ⟨0, 8, 9⟩ 5),
    .bind ⟨0, 11, 14⟩ ⟨⟨0, 15, 16⟩, "f"⟩ (.function ⟨0, 19, 21⟩ [⟨⟨0, 22, 23⟩, "a"⟩, ⟨⟨0, 25, 26⟩, "b"⟩]
      (.mk ⟨0, 30, 31⟩ [.expr ⟨0, 30, 31⟩ (.name ⟨⟨0, 30, 31⟩, "b"⟩)])),
    .expr ⟨0, 35, 36⟩ (.call ⟨0, 36, 37⟩ (.name ⟨⟨0, 35, 36⟩, "f"⟩) [.integer ⟨0, 37, 38⟩ 1])]
  have hparse : parse source = .ok program := by
    cbv
  let opened := (Session.start true).opened source
  have hshallow : (Session.outcome (evalWithin 6 (.block program) opened.scope opened.machine)).1 =
      .ok (.integer 5) := by
    cbv
  cases hrun : evalWithin 6 (.block program) opened.scope opened.machine with
  | error fault last =>
    rw [hrun] at hshallow
    cases hshallow
  | ok value last =>
    rw [hrun] at hshallow
    cases hshallow
    have hlimit := evalWithin_ok_of_le (show 6 ≤ evaluationLimit by decide) hrun
    rw [Session.run_of_parse hparse, Session.runProgram, evaluate, bind_of_ok hlimit]
    rfl

end MonkeyLang
