import MonkeyLang.Proofs.Eval.Ends
import MonkeyLang.Proofs.Value.Storable

namespace MonkeyLang
open Value

namespace Machine

def size (m : Machine) : Nat :=
  m.store.frames.size

structure Sound (m : Machine) : Prop where
  parents : ∀ (i : FrameId) (frame : Frame), m.store.frames[i]? = some frame →
    ∀ parent, frame.parent = some parent → parent < i
  bindings : ∀ (i : FrameId) (frame : Frame), m.store.frames[i]? = some frame →
    ∀ binding ∈ frame.bindings, binding.2.Storable m.size
  calls : ∀ call ∈ m.calls, ∀ argument ∈ call.arguments, argument.Storable m.size

variable {m : Machine}

theorem Sound.child (h : m.Sound) {parent : Option FrameId} (hparent : ∀ p, parent = some p → p < m.size) :
    Sound { m with store := (m.store.child parent).2 } := by
  have hsize : m.size ≤ size { m with store := (m.store.child parent).2 } := by
    simp [size, Store.child]
  -- A frame of the new store is an old one or the one that was pushed.
  have hframe : ∀ (i : FrameId) (frame : Frame), (m.store.child parent).2.frames[i]? = some frame →
      m.store.frames[i]? = some frame ∨ i = m.size ∧ frame = ⟨[], parent⟩ := by
    intro i frame hi
    rw [Store.child, Array.getElem?_push] at hi
    split at hi
    next heq =>
      cases hi
      exact .inr ⟨heq, rfl⟩
    next => exact .inl hi
  constructor
  · intro i frame hi
    rcases hframe i frame hi with hi | ⟨rfl, rfl⟩
    · exact h.parents i frame hi
    · exact hparent
  · intro i frame hi binding mem
    rcases hframe i frame hi with hi | ⟨rfl, rfl⟩
    · exact (h.bindings i frame hi binding mem).mono hsize
    · cases mem
  · exact fun call mem argument mem' => (h.calls call mem argument mem').mono hsize

theorem size_bind (m : Machine) (frame : FrameId) (name : String) (value : Value) :
    size { m with store := m.store.bind frame name value } = m.size := by
  simp [size, Store.bind]

theorem Sound.bind (h : m.Sound) (frame : FrameId) (name : String) {value : Value}
    (hvalue : value.Storable m.size) : Sound { m with store := m.store.bind frame name value } := by
  have hframe : ∀ (i : FrameId) (new : Frame), (m.store.bind frame name value).frames[i]? = some new →
      ∃ old, m.store.frames[i]? = some old ∧ new.parent = old.parent ∧
        ∀ binding ∈ new.bindings, binding = (name, value) ∨ binding ∈ old.bindings := by
    intro i new hi
    rw [Store.bind, Array.getElem?_modify] at hi
    split at hi
    · obtain ⟨old, hold, rfl⟩ := Option.map_eq_some_iff.mp hi
      exact ⟨old, hold, rfl, fun binding mem => Table.mem_insert mem⟩
    · exact ⟨new, hi, rfl, fun binding mem => .inr mem⟩
  constructor
  · intro i new hi
    obtain ⟨old, hold, hparent, -⟩ := hframe i new hi
    rw [hparent]
    exact h.parents i old hold
  · intro i new hi binding mem
    obtain ⟨old, hold, -, hbindings⟩ := hframe i new hi
    rw [size_bind]
    rcases hbindings binding mem with rfl | mem
    · exact hvalue
    · exact h.bindings i old hold binding mem
  · rw [size_bind]
    exact h.calls

theorem Sound.enter (h : m.Sound) {call : Call} (hcall : ∀ argument ∈ call.arguments, argument.Storable m.size) :
    Sound { m with calls := call :: m.calls } :=
  ⟨h.parents, h.bindings, List.forall_mem_cons.mpr ⟨hcall, h.calls⟩⟩

theorem Sound.leave (h : m.Sound) : Sound { m with calls := m.calls.tail } :=
  ⟨h.parents, h.bindings, fun call mem => h.calls call (List.mem_of_mem_tail mem)⟩

theorem Sound.resolve (h : m.Sound) {frame : FrameId} {name : String} {value : Value}
    (hvalue : m.store.resolve frame name = some value) : value.Storable m.size := by
  rw [Store.resolve, Option.bind_eq_some_iff] at hvalue
  obtain ⟨owner, -, hlookup⟩ := hvalue
  rw [Store.bindings] at hlookup
  split at hlookup
  next frame hframe => exact h.bindings owner frame hframe _ (mem_of_lookup hlookup)
  next => cases hlookup

end Machine

variable {α β : Type} {size : Nat}

/-- On a sound machine with so many frames the computation ends in a sound machine with no fewer, and
its value is as the condition says of the frames there are then. -/
def Upholds (size : Nat) (x : EvalM α) (ok : Nat → α → Prop) : Prop :=
  ∀ m : Machine, m.Sound → size ≤ m.size →
    Ends x m (fun a after => after.Sound ∧ m.size ≤ after.size ∧ ok after.size a)
      (fun fault after => after.Sound ∧ m.size ≤ after.size ∧ ∀ name, fault ≠ .boundReturn name)

variable {ok ok' : Nat → α → Prop}

theorem Upholds.pure {a : α} (h : ∀ more, size ≤ more → ok more a) : Upholds size (pure a) ok :=
  fun m hm hsize => ⟨hm, Nat.le_refl _, h m.size hsize⟩

theorem Upholds.throw {fault : Fault} (h : ∀ name, fault ≠ .boundReturn name) :
    Upholds size (throw fault : EvalM α) ok :=
  fun _ hm _ => ⟨hm, Nat.le_refl _, h⟩

theorem Upholds.bind {x : EvalM α} {f : α → EvalM β} {ok' : Nat → β → Prop} (hx : Upholds size x ok)
    (hf : ∀ a more, size ≤ more → ok more a → Upholds more (f a) ok') : Upholds size (x >>= f) ok' := by
  intro m hm hsize
  rw [ends_bind]
  refine (hx m hm hsize).mono ?_ fun _ _ h => h
  rintro a after ⟨hafter, hle, ha⟩
  refine (hf a after.size (Nat.le_trans hsize hle) ha after hafter (Nat.le_refl _)).mono ?_ ?_
  · rintro b last ⟨hlast, hle', hb⟩
    exact ⟨hlast, Nat.le_trans hle hle', hb⟩
  · rintro fault last ⟨hlast, hle', hfault⟩
    exact ⟨hlast, Nat.le_trans hle hle', hfault⟩

theorem Upholds.mono {x : EvalM α} (h : Upholds size x ok) (hok : ∀ more a, ok more a → ok' more a) :
    Upholds size x ok' :=
  fun m hm hsize => (h m hm hsize).mono (fun a _ ⟨hafter, hle, ha⟩ => ⟨hafter, hle, hok _ a ha⟩)
    fun _ _ h => h

theorem upholds_notCallable (callee : Value) (site : Option Span) :
    Upholds size (Machine.notCallable callee site : EvalM α) ok :=
  fun _ hm _ => ⟨hm, Nat.le_refl _, by simp⟩

theorem upholds_record (event : TraceEvent) : Upholds size (Machine.record event) fun _ _ => True :=
  fun _ hm _ => ⟨⟨hm.parents, hm.bindings, hm.calls⟩, Nat.le_refl _, trivial⟩

theorem upholds_child {parent : Option FrameId} (h : ∀ p, parent = some p → p < size) :
    Upholds size (Machine.child parent) fun more frame => frame < more := by
  intro m hm hsize
  rw [Machine.ends_child]
  refine ⟨hm.child fun p hp => Nat.lt_of_lt_of_le (h p hp) hsize, ?_, ?_⟩
  · simp [Machine.size, Store.child]
  · simp [Machine.size, Store.child]

theorem upholds_bind (frame : FrameId) (name : String) {value : Value} (h : value.Storable size) :
    Upholds size (Machine.bind frame name value) fun more a => a.Storable more := by
  intro m hm hsize
  rw [Machine.ends_bind_value]
  cases value
  case returned inner => exact absurd rfl (h.ne_returned inner)
  all_goals
    refine ⟨hm.bind frame name (h.mono hsize), Nat.le_of_eq (Machine.size_bind ..).symm, ?_⟩
    rw [Machine.size_bind]
    exact h.mono hsize

theorem upholds_closure (params : List Ident) (body : Block) {scope : FrameId} (h : scope < size) :
    Upholds size (Machine.closure params body scope) fun more a => a.Storable more :=
  fun _ hm hsize => ⟨⟨hm.parents, hm.bindings, hm.calls⟩, Nat.le_refl _,
    storable_function (Nat.lt_of_lt_of_le h hsize)⟩

theorem Upholds.during {body : EvalM Value} {ok : Nat → Value → Prop} (h : Upholds size body ok)
    {call : Call} (hcall : ∀ argument ∈ call.arguments, argument.Storable size) :
    Upholds size (Machine.during call body) ok := by
  intro m hm hsize
  rw [Machine.ends_during]
  refine (h _ (hm.enter fun argument mem => (hcall argument mem).mono hsize) hsize).mono ?_ ?_
  · rintro value after ⟨hafter, hle, hvalue⟩
    exact ⟨hafter.leave, hle, hvalue⟩
  · rintro fault after ⟨hafter, hle, hfault⟩
    exact ⟨hafter.leave, hle, hfault⟩

theorem Upholds.unlessError {x : EvalM Value} {next : Value → EvalM Value} {ok : Nat → Value → Prop}
    (hx : Upholds size x Result) (herror : ∀ more message, ok more (.error message))
    (hnext : ∀ value more, size ≤ more → value.Storable more → Upholds more (next value) ok) :
    Upholds size (Eval.unlessError x next) ok := by
  refine .bind hx fun value more hle hvalue => ?_
  cases value
  case error message => exact .pure fun more _ => herror more message
  all_goals exact hnext _ more hle (hvalue.storable (by simp))

def Node.Gives : Node → Nat → Value → Prop
  | .block _ | .stmt _ => Outcome
  | .expr _ => Result

namespace Eval

section Rules

variable {recurse : Node → FrameId → EvalM Value} {frame : FrameId}
  (hrec : ∀ node frame size, frame < size → Upholds size (recurse node frame) node.Gives)
include hrec

theorem upholds_statements {size : Nat} (hframe : frame < size) {result : Value}
    (hresult : result.Outcome size) (ss : List Stmt) :
    Upholds size (statements recurse frame result ss) Outcome := by
  induction ss generalizing result size with
  | nil => exact .pure fun _ hle => hresult.mono hle
  | cons s ss ih =>
    refine .bind (hrec (.stmt s) frame size hframe) fun value more hle hvalue => ?_
    cases value
    case returned inner => exact .pure fun _ hle' => hvalue.mono hle'
    all_goals exact ih (Nat.lt_of_lt_of_le hframe hle) hvalue

theorem upholds_recurse_expr {size : Nat} (hframe : frame < size) (e : Expr) :
    Upholds size (recurse (.expr e) frame) Result :=
  hrec (.expr e) frame size hframe

def Arguments (size : Nat) : Except String (List Value) → Prop
  | .error _ => True
  | .ok values => ∀ value ∈ values, value.Storable size

theorem upholds_arguments {size : Nat} (hframe : frame < size) (es : List Expr) :
    Upholds size (arguments recurse frame es) Arguments := by
  induction es generalizing size with
  | nil => exact .pure fun _ _ => by simp [Arguments]
  | cons e es ih =>
    refine .bind (upholds_recurse_expr hrec hframe e) fun value more hle hvalue => ?_
    cases value
    case error message => exact .pure fun _ _ => trivial
    all_goals
      have hstorable := hvalue.storable (by simp)
      -- The values behind this one may add frames, which leaves this one storable.
      refine .bind (ih (Nat.lt_of_lt_of_le hframe hle)) fun values last hle' hvalues => .pure ?_
      intro more' hmore
      cases values with
      | error message => trivial
      | ok values =>
        exact List.forall_mem_cons.mpr ⟨hstorable.mono (Nat.le_trans hle' hmore),
          fun value mem => (hvalues value mem).mono hmore⟩

theorem upholds_entries {size : Nat} (hframe : frame < size) {done : List (Key × Value)}
    (hdone : Storable size (.hash done)) (pairs : List (Expr × Expr)) :
    Upholds size (entries recurse frame done pairs) Result := by
  induction pairs generalizing done size with
  | nil => exact .pure fun _ hle => (hdone.mono hle).result
  | cons pair pairs ih =>
    obtain ⟨k, v⟩ := pair
    refine .unlessError (upholds_recurse_expr hrec hframe k) (fun _ _ => result_error _)
      fun key more hle _ => ?_
    have hframe' := Nat.lt_of_lt_of_le hframe hle
    cases key.key? with
    | none => exact .pure fun _ _ => result_error _
    | some key =>
      refine .unlessError (upholds_recurse_expr hrec hframe' v) (fun _ _ => result_error _)
        fun value last hle' hvalue => ?_
      exact ih (Nat.lt_of_lt_of_le hframe' hle')
        (storable_insert (hdone.mono (Nat.le_trans hle hle')) key hvalue)

omit hrec in
theorem upholds_bindParams {size : Nat} (params : List Ident) {values : List Value}
    (hvalues : ∀ value ∈ values, value.Storable size) :
    Upholds size (bindParams frame params values) fun _ _ => True := by
  induction params generalizing size values with
  | nil => exact .pure fun _ _ => trivial
  | cons param params ih =>
    cases values with
    | nil => exact .pure fun _ _ => trivial
    | cons value values =>
      obtain ⟨hvalue, hrest⟩ := List.forall_mem_cons.mp hvalues
      refine .bind (upholds_bind frame param.name hvalue) fun _ more hle _ => ?_
      exact ih fun value mem => (hrest value mem).mono hle

/-- What a call of a function does before it evaluates the body: it makes the frame that the body is
evaluated in and binds the parameters there. -/
def prepare (closure : Closure) (values : List Value) : EvalM FrameId := do
  let frame ← Machine.child (some closure.scope)
  bindParams frame closure.params values
  Machine.record (.function closure values.length)
  return frame

omit hrec in
theorem call_function (closure : Closure) (values : List Value) (site : Option Span) :
    call recurse (.function closure) values site = (do
      let frame ← prepare closure values
      let result ← Machine.during ⟨"<fn>", values⟩ (recurse (.block closure.body) frame)
      return result.unwrap) := by
  simp only [call, prepare, bind_assoc, pure_bind]

omit hrec in
theorem upholds_prepare {size : Nat} {closure : Closure} (hscope : closure.scope < size)
    {values : List Value} (hvalues : ∀ value ∈ values, value.Storable size) :
    Upholds size (prepare closure values) fun more frame => frame < more := by
  refine .bind (upholds_child (by simpa using hscope)) fun frame more hle hframe => ?_
  have hvalues' : ∀ value ∈ values, value.Storable more := fun value mem => (hvalues value mem).mono hle
  refine .bind (upholds_bindParams closure.params hvalues') fun _ bound hbound _ => ?_
  refine .bind (upholds_record _) fun _ recorded hrecorded _ => .pure fun last hlast => ?_
  calc frame < more := hframe
    _ ≤ bound := hbound
    _ ≤ recorded := hrecorded
    _ ≤ last := hlast

theorem upholds_call {size : Nat} {callee : Value} (hcallee : callee.Live size) {values : List Value}
    (hvalues : ∀ value ∈ values, value.Storable size) (site : Option Span) :
    Upholds size (call recurse callee values site) Result := by
  cases callee
  case function closure =>
    rw [call_function]
    refine .bind (upholds_prepare (hcallee closure .whole) hvalues) fun frame more hle hframe => ?_
    refine .bind (.during (hrec (.block closure.body) frame more hframe)
      fun value mem => (hvalues value mem).mono hle) fun result last _ hresult => ?_
    exact .pure fun _ hle => hresult.unwrap.mono hle
  case builtin op owner =>
    have hresult : ∀ more, size ≤ more → (op.apply values).Result more := fun more hle =>
      op.result_apply fun value mem => (hvalues value mem).mono hle
    rw [call, callBuiltin_eq]
    split
    · exact .bind (upholds_record _) fun _ more hle _ => .pure fun _ hle' =>
        hresult _ (Nat.le_trans hle hle')
    · exact .pure hresult
  all_goals exact upholds_notCallable _ _

theorem upholds_callExpr {size : Nat} (hframe : frame < size) (site : Span) (callee : Expr)
    (es : List Expr) : Upholds size (callExpr recurse frame site callee es) Result := by
  refine .bind (upholds_recurse_expr hrec hframe callee) fun value more hle hvalue => ?_
  split
  next hcallable =>
    have hstorable := hvalue.storable (by
      rintro message rfl
      cases hcallable)
    refine .bind (upholds_arguments hrec (Nat.lt_of_lt_of_le hframe hle) es)
      fun values last hle' hvalues => ?_
    cases values with
    | error message => exact .pure fun _ _ => result_error _
    | ok values => exact upholds_call hrec (hstorable.mono hle').live hvalues _
  next => exact upholds_notCallable _ _

theorem upholds_expr {size : Nat} (hframe : frame < size) (e : Expr) :
    Upholds size (expr recurse frame e) Result := by
  cases e with
  | name ident =>
    intro m hm _
    refine ⟨hm, Nat.le_refl _, ?_⟩
    cases hvalue : m.store.resolve frame ident.name with
    | none => exact result_error _
    | some value => exact (hm.resolve hvalue).result
  | integer => exact .pure fun _ _ => (storable_integer _).result
  | boolean => exact .pure fun _ _ => (storable_boolean _).result
  | string => exact .pure fun _ _ => (storable_string _).result
  | unary _ operator right =>
    exact .unlessError (upholds_recurse_expr hrec hframe right) (fun _ _ => result_error _)
      fun _ _ _ _ => .pure fun _ _ => result_unary _ _
  | binary _ operator left right =>
    refine .unlessError (upholds_recurse_expr hrec hframe left) (fun _ _ => result_error _)
      fun _ more hle _ => ?_
    exact .unlessError (upholds_recurse_expr hrec (Nat.lt_of_lt_of_le hframe hle) right)
      (fun _ _ => result_error _) fun _ _ _ _ => .pure fun _ _ => result_binary _ _ _
  | function _ params body =>
    exact (upholds_closure params body hframe).mono fun _ _ hvalue => hvalue.result
  | call site callee es => exact upholds_callExpr hrec hframe site callee es
  | array _ elements =>
    refine .bind (upholds_arguments hrec hframe elements) fun values more _ hvalues => ?_
    cases values with
    | error message => exact .pure fun _ _ => result_error _
    | ok values =>
      exact .pure fun _ hle => (storable_array fun value mem => (hvalues value mem).mono hle).result
  | index _ left index =>
    refine .unlessError (upholds_recurse_expr hrec hframe left) (fun _ _ => result_error _)
      fun value more hle hvalue => ?_
    exact .unlessError (upholds_recurse_expr hrec (Nat.lt_of_lt_of_le hframe hle) index)
      (fun _ _ => result_error _) fun _ last hle' _ => .pure fun _ hle'' =>
        result_index (hvalue.mono (Nat.le_trans hle' hle'')) _
  | hash _ pairs => exact upholds_entries hrec hframe (storable_hash (by simp) (by simp)) pairs

theorem upholds_stmt {size : Nat} (hframe : frame < size) (s : Stmt) :
    Upholds size (stmt recurse frame s) Outcome := by
  have herror : ∀ more message, Outcome more (.error message) := fun _ _ => .inl (result_error _)
  cases s with
  | bind _ name value =>
    refine .unlessError (upholds_recurse_expr hrec hframe value) herror fun _ _ _ hvalue => ?_
    exact (upholds_bind frame name.name hvalue).mono fun _ _ h => .inl h.result
  | ret _ value =>
    refine .bind (upholds_recurse_expr hrec hframe value) fun value _ _ hvalue => ?_
    exact .pure fun _ hle => .inr ⟨value, rfl, hvalue.mono hle⟩
  | branch _ condition consequence alternative =>
    refine .unlessError (upholds_recurse_expr hrec hframe condition) herror fun _ more hle _ => ?_
    have hnull : ∀ more, Outcome more .null := fun _ => .inl storable_null.result
    have hframe' := Nat.lt_of_lt_of_le hframe hle
    split
    · exact upholds_statements hrec hframe' (hnull _) _
    · cases alternative with
      | none => exact .pure fun _ _ => hnull _
      | some alternative => exact upholds_statements hrec hframe' (hnull _) _
  | expr _ value => exact (upholds_recurse_expr hrec hframe value).mono fun _ _ => .inl

theorem upholds_node (node : Node) {size : Nat} (hframe : frame < size) :
    Upholds size (Eval.node recurse node frame) node.Gives := by
  cases node with
  | block b => exact upholds_statements hrec hframe (.inl storable_null.result) _
  | stmt s => exact upholds_stmt hrec hframe s
  | expr e => exact upholds_expr hrec hframe e

end Rules

end Eval

theorem upholds_evalWithin (depth : Nat) (node : Node) (frame : FrameId) (size : Nat)
    (hframe : frame < size) : Upholds size (evalWithin depth node frame) node.Gives := by
  induction depth generalizing node frame size with
  | zero => exact .throw (by simp)
  | succ depth ih => exact Eval.upholds_node ih node hframe

theorem upholds_evaluate (program : Block) {frame : FrameId} {size : Nat} (hframe : frame < size) :
    Upholds size (evaluate program frame) Result :=
  .bind (upholds_evalWithin _ (.block program) frame size hframe) fun _ _ _ hvalue =>
    .pure fun _ hle => hvalue.unwrap.mono hle

theorem upholds_callValue {callee : Value} {size : Nat} (hcallee : callee.Live size)
    {values : List Value} (hvalues : ∀ value ∈ values, value.Storable size) :
    Upholds size (callValue callee values) Result :=
  Eval.upholds_call (upholds_evalWithin _) hcallee hvalues none

end MonkeyLang
