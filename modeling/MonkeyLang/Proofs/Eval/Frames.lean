import MonkeyLang.Proofs.Eval.Ends

namespace MonkeyLang

mutual

def Stmt.lets : Stmt → List String
  | .bind _ name _ => [name.name]
  | .branch _ _ consequence none => consequence.lets
  | .branch _ _ consequence (some alternative) => consequence.lets ++ alternative.lets
  | .ret _ _ | .expr _ _ => []

def Stmt.letsAll : List Stmt → List String
  | [] => []
  | s :: ss => s.lets ++ Stmt.letsAll ss

def Block.lets : Block → List String
  | .mk _ statements => Stmt.letsAll statements

end

def Node.lets : Node → List String
  | .block b => b.lets
  | .stmt s => s.lets
  | .expr _ => []

theorem Block.lets_eq (b : Block) : b.lets = Stmt.letsAll b.statements := by
  cases b
  rw [Block.lets, Block.statements_mk]

namespace Store

/-- Every frame stays as it is, but for bindings of the names in the one frame. -/
def Changes (frame : FrameId) (names : List String) (before after : Store) : Prop :=
  ∀ i old, before.frames[i]? = some old → ∃ new, after.frames[i]? = some new ∧
    new.parent = old.parent ∧ (i ≠ frame → new.bindings = old.bindings) ∧
    new.bindings.filter (·.1 ∉ names) = old.bindings.filter (·.1 ∉ names)

def Extends (before after : Store) : Prop :=
  ∀ (i : FrameId) (frame : Frame), before.frames[i]? = some frame → after.frames[i]? = some frame

variable {frame : FrameId} {names more : List String} {store before middle after : Store}

theorem Changes.refl (frame : FrameId) (names : List String) (store : Store) :
    store.Changes frame names store :=
  fun _ old h => ⟨old, h, rfl, fun _ => rfl, rfl⟩

theorem Changes.trans (h : before.Changes frame names middle) (h' : middle.Changes frame names after) :
    before.Changes frame names after := by
  intro i old hold
  obtain ⟨new, hnew, hparent, hother, hnames⟩ := h i old hold
  obtain ⟨new', hnew', hparent', hother', hnames'⟩ := h' i new hnew
  exact ⟨new', hnew', hparent'.trans hparent, fun hi => (hother' hi).trans (hother hi),
    hnames'.trans hnames⟩

theorem Changes.mono (h : before.Changes frame names after) (hsubset : names ⊆ more) :
    before.Changes frame more after := by
  intro i old hold
  obtain ⟨new, hnew, hparent, hother, hnames⟩ := h i old hold
  refine ⟨new, hnew, hparent, hother, ?_⟩
  have hfilter : ∀ bindings : List (String × Value), bindings.filter (·.1 ∉ more) =
      (bindings.filter (·.1 ∉ names)).filter (·.1 ∉ more) := by
    intro bindings
    rw [List.filter_filter]
    refine List.filter_congr fun binding _ => ?_
    have : binding.1 ∉ more → binding.1 ∉ names := fun h mem => h (hsubset mem)
    by_cases hmore : binding.1 ∈ more <;> simp_all
  rw [hfilter, hnames, ← hfilter]

theorem Changes.extends (h : before.Changes frame [] after) : before.Extends after := by
  intro i old hold
  obtain ⟨new, hnew, hparent, -, hnames⟩ := h i old hold
  have hbindings : new.bindings = old.bindings := by
    rwa [List.filter_eq_self.mpr (by simp), List.filter_eq_self.mpr (by simp)] at hnames
  cases new
  cases old
  simp only at hparent hbindings
  rw [hnew, hparent, hbindings]

theorem frames_child (store : Store) (parent : Option FrameId) {i : FrameId} (h : i < store.frames.size) :
    (store.child parent).2.frames[i]? = store.frames[i]? := by
  have hne : i ≠ store.frames.size := Nat.ne_of_lt h
  rw [child, Array.getElem?_push, if_neg hne]

theorem lt_size_of_some {store : Store} {i : FrameId} {frame : Frame}
    (h : store.frames[i]? = some frame) : i < store.frames.size := by
  obtain ⟨hi, -⟩ := Array.getElem?_eq_some_iff.mp h
  exact hi

theorem Changes.of_child {parent : Option FrameId}
    (h : (store.child parent).2.Changes store.frames.size names after) (frame : FrameId) :
    store.Changes frame [] after := by
  intro i old hold
  have hi := lt_size_of_some hold
  obtain ⟨new, hnew, hparent, hother, -⟩ := h i old ((frames_child store parent hi).trans hold)
  have hbindings := hother (Nat.ne_of_lt hi)
  exact ⟨new, hnew, hparent, fun _ => hbindings, by rw [hbindings]⟩

theorem filter_insert {name : String} {names : List String} (h : name ∈ names) (value : Value)
    (bindings : List (String × Value)) :
    (Table.insert name value bindings).filter (·.1 ∉ names) = bindings.filter (·.1 ∉ names) := by
  induction bindings with
  | nil => simp [Table.insert, h]
  | cons binding bindings ih =>
    obtain ⟨other, old⟩ := binding
    rw [Table.insert]
    split
    next heq =>
      subst heq
      simp [h]
    next => simp only [List.filter_cons, ih]

theorem changes_bind (store : Store) (frame : FrameId) (name : String) (value : Value) :
    store.Changes frame [name] (store.bind frame name value) := by
  intro i old hold
  by_cases hi : frame = i
  · subst hi
    refine ⟨{ old with bindings := Table.insert name value old.bindings }, ?_, rfl, ?_, ?_⟩
    · rw [bind, Array.getElem?_modify, if_pos rfl, hold]
      rfl
    · exact fun h => absurd rfl h
    · exact filter_insert (List.mem_singleton_self name) value old.bindings
  · refine ⟨old, ?_, rfl, fun _ => rfl, rfl⟩
    rw [bind, Array.getElem?_modify, if_neg hi, hold]

end Store

variable {α β : Type}

def Keeps (frame : FrameId) (names : List String) (x : EvalM α) : Prop :=
  ∀ m, Ends x m (fun _ after => m.store.Changes frame names after.store)
    (fun _ after => m.store.Changes frame names after.store)

variable {frame : FrameId} {names more : List String}

theorem Keeps.pure (a : α) : Keeps frame names (pure a) :=
  fun m => .refl frame names m.store

theorem Keeps.throw (fault : Fault) : Keeps frame names (throw fault : EvalM α) :=
  fun m => .refl frame names m.store

theorem Keeps.bind {x : EvalM α} {f : α → EvalM β} (hx : Keeps frame names x)
    (hf : ∀ a, Keeps frame names (f a)) : Keeps frame names (x >>= f) := by
  intro m
  rw [ends_bind]
  refine (hx m).mono (fun a after hafter => ?_) fun _ _ hafter => hafter
  exact (hf a after).mono (fun _ _ h => hafter.trans h) fun _ _ h => hafter.trans h

theorem Keeps.mono {x : EvalM α} (h : Keeps frame names x) (hsubset : names ⊆ more) :
    Keeps frame more x :=
  fun m => (h m).mono (fun _ _ hafter => hafter.mono hsubset) fun _ _ hafter => hafter.mono hsubset

theorem Keeps.nil {x : EvalM α} (h : Keeps frame [] x) : Keeps frame names x :=
  h.mono (List.nil_subset names)

theorem keeps_notCallable (callee : Value) (site : Option Span) :
    Keeps frame names (Machine.notCallable callee site : EvalM α) :=
  fun m => .refl frame names m.store

theorem keeps_record (event : TraceEvent) : Keeps frame names (Machine.record event) :=
  fun m => .refl frame names m.store

theorem keeps_closure (params : List Ident) (body : Block) (scope : FrameId) :
    Keeps frame names (Machine.closure params body scope) :=
  fun m => .refl frame names m.store

theorem keeps_bind (name : String) (value : Value) : Keeps frame [name] (Machine.bind frame name value) := by
  intro m
  rw [Machine.ends_bind_value]
  cases value
  case returned => exact .refl frame [name] m.store
  all_goals exact m.store.changes_bind frame name _

theorem Keeps.during {body : EvalM Value} (h : Keeps frame names body) (call : Call) :
    Keeps frame names (Machine.during call body) := by
  intro m
  rw [Machine.ends_during]
  exact h { m with calls := call :: m.calls }

theorem Keeps.unlessError {x : EvalM Value} {next : Value → EvalM Value} (hx : Keeps frame names x)
    (hnext : ∀ value, Keeps frame names (next value)) :
    Keeps frame names (Eval.unlessError x next) := by
  refine .bind hx fun value => ?_
  cases value
  case error => exact .pure _
  all_goals exact hnext _

namespace Eval

section Rules

variable {recurse : Node → FrameId → EvalM Value}
  (hrec : ∀ node frame, Keeps frame node.lets (recurse node frame))
include hrec

theorem keeps_recurse_expr (e : Expr) (frame : FrameId) : Keeps frame [] (recurse (.expr e) frame) :=
  hrec (.expr e) frame

theorem keeps_statements (result : Value) (ss : List Stmt) :
    Keeps frame (Stmt.letsAll ss) (statements recurse frame result ss) := by
  induction ss generalizing result with
  | nil => exact .pure _
  | cons s ss ih =>
    refine .bind ((hrec (.stmt s) frame).mono (List.subset_append_left _ _)) fun value => ?_
    cases value
    case returned => exact .pure _
    all_goals exact (ih _).mono (List.subset_append_right _ _)

theorem keeps_arguments (es : List Expr) : Keeps frame [] (arguments recurse frame es) := by
  induction es with
  | nil => exact .pure _
  | cons e es ih =>
    refine .bind (keeps_recurse_expr hrec e frame) fun value => ?_
    cases value
    case error => exact .pure _
    all_goals exact .bind ih fun _ => .pure _

theorem keeps_entries (done : List (Key × Value)) (pairs : List (Expr × Expr)) :
    Keeps frame [] (entries recurse frame done pairs) := by
  induction pairs generalizing done with
  | nil => exact .pure _
  | cons pair pairs ih =>
    obtain ⟨k, v⟩ := pair
    refine .unlessError (keeps_recurse_expr hrec k frame) fun key => ?_
    cases key.key? with
    | none => exact .pure _
    | some key => exact .unlessError (keeps_recurse_expr hrec v frame) fun value => ih _

omit hrec in
theorem keeps_bindParams (params : List Ident) (values : List Value) :
    Keeps frame (params.map (·.name)) (bindParams frame params values) := by
  induction params generalizing values with
  | nil => exact .pure _
  | cons param params ih =>
    cases values with
    | nil => exact .pure _
    | cons value values =>
      refine .bind ((keeps_bind param.name value).mono (by simp)) fun _ => ?_
      exact (ih values).mono (List.subset_cons_self _ _)

theorem keeps_call (callee : Value) (values : List Value) (site : Option Span) :
    Keeps frame [] (call recurse callee values site) := by
  cases callee
  case function closure =>
    intro m
    -- All that follows the making of the new frame binds in that frame.
    have hbody : Keeps m.store.frames.size (closure.params.map (·.name) ++ closure.body.lets) (do
        bindParams m.store.frames.size closure.params values
        Machine.record (.function closure values.length)
        let result ← Machine.during ⟨"<fn>", values⟩
          (recurse (.block closure.body) m.store.frames.size)
        return result.unwrap) := by
      refine .bind ((keeps_bindParams closure.params values).mono (List.subset_append_left _ _)) fun _ => ?_
      refine .bind (keeps_record _) fun _ => .bind (.during ?_ _) fun _ => .pure _
      exact (hrec (.block closure.body) _).mono (List.subset_append_right _ _)
    rw [call, ends_bind, Machine.ends_child]
    exact (hbody _).mono (fun _ _ h => Store.Changes.of_child h frame)
      fun _ _ h => Store.Changes.of_child h frame
  case builtin op owner =>
    rw [call, callBuiltin_eq]
    split
    · exact .bind (keeps_record _) fun _ => .pure _
    · exact .pure _
  all_goals exact keeps_notCallable _ _

theorem keeps_callExpr (site : Span) (callee : Expr) (es : List Expr) :
    Keeps frame [] (callExpr recurse frame site callee es) := by
  refine .bind (keeps_recurse_expr hrec callee frame) fun callee => ?_
  split
  · refine .bind (keeps_arguments hrec es) fun values => ?_
    cases values with
    | error message => exact .pure _
    | ok values => exact keeps_call hrec _ _ _
  · exact keeps_notCallable _ _

theorem keeps_expr (e : Expr) : Keeps frame [] (expr recurse frame e) := by
  cases e with
  | name ident => exact fun m => .refl frame [] m.store
  | integer | boolean | string => exact .pure _
  | unary _ operator right => exact .unlessError (keeps_recurse_expr hrec right frame) fun _ => .pure _
  | binary _ operator left right =>
    exact .unlessError (keeps_recurse_expr hrec left frame) fun _ =>
      .unlessError (keeps_recurse_expr hrec right frame) fun _ => .pure _
  | function _ params body => exact keeps_closure _ _ _
  | call site callee es => exact keeps_callExpr hrec site callee es
  | array _ elements =>
    refine .bind (keeps_arguments hrec elements) fun values => ?_
    cases values with
    | error message => exact .pure _
    | ok values => exact .pure _
  | index _ left index =>
    exact .unlessError (keeps_recurse_expr hrec left frame) fun _ =>
      .unlessError (keeps_recurse_expr hrec index frame) fun _ => .pure _
  | hash _ pairs => exact keeps_entries hrec [] pairs

theorem keeps_stmt (s : Stmt) : Keeps frame s.lets (stmt recurse frame s) := by
  cases s with
  | bind _ name value =>
    exact .unlessError (keeps_recurse_expr hrec value frame).nil (keeps_bind name.name)
  | ret _ value => exact .bind (keeps_recurse_expr hrec value frame).nil fun _ => .pure _
  | branch _ condition consequence alternative =>
    refine .unlessError (keeps_recurse_expr hrec condition frame).nil fun value => ?_
    cases alternative with
    | none =>
      split
      · rw [Stmt.lets, Block.lets_eq]
        exact keeps_statements hrec _ _
      · exact .pure _
    | some alternative =>
      -- Only one of the two blocks is evaluated, and the names of both may be bound.
      rw [Stmt.lets, Block.lets_eq, Block.lets_eq]
      split
      · exact (keeps_statements hrec _ _).mono (List.subset_append_left _ _)
      · exact (keeps_statements hrec _ _).mono (List.subset_append_right _ _)
  | expr _ value => exact keeps_recurse_expr hrec value frame

theorem keeps_node (node : Node) (frame : FrameId) : Keeps frame node.lets (Eval.node recurse node frame) := by
  cases node with
  | block b =>
    rw [Node.lets, Block.lets_eq]
    exact keeps_statements hrec _ _
  | stmt s => exact keeps_stmt hrec s
  | expr e => exact keeps_expr hrec e

end Rules

end Eval

theorem keeps_evalWithin (depth : Nat) (node : Node) (frame : FrameId) :
    Keeps frame node.lets (evalWithin depth node frame) := by
  induction depth generalizing node frame with
  | zero => exact .throw _
  | succ depth ih => exact Eval.keeps_node ih node frame

end MonkeyLang
