import Mathlib
import MonkeyLang.Proofs.Session.Reachable
import MonkeyLang.Proofs.Value.Plain

/-!
# Return as an exit

Another evaluation, in which `return` does not wrap its value but leaves all that goes on up to the
nearest call, or else the whole program. Where no wrapped value is bound it ends as evaluation with
wrapped values does, in the same value or fault and in the same machine: what the one passes on wrapped,
the other is left with.
-/

namespace MonkeyLang

/-! ## Evaluation with exits -/

abbrev ExitM := ExceptT Value EvalM

namespace Exit

/-- Ends where the computation is left, if it is, with the value it is left with. -/
def caught (x : ExitM Value) : EvalM Value := do
  match ← x.run with
  | .ok value | .error value => return value

def unlessError (value : ExitM Value) (next : Value → ExitM Value) : ExitM Value := do
  match ← value with
  | .error message => return .error message
  | value => next value

section Rules

variable (recurse : Node → FrameId → ExitM Value) (frame : FrameId)

def statements (result : Value) : List Stmt → ExitM Value
  | [] => return result
  | s :: ss => do statements (← recurse (.stmt s) frame) ss

def arguments : List Expr → ExitM (Except String (List Value))
  | [] => return .ok []
  | e :: es => do
    match ← recurse (.expr e) frame with
    | .error message => return .error message
    | value => return (← arguments es).map (value :: ·)

def entries (done : List (Key × Value)) : List (Expr × Expr) → ExitM Value
  | [] => return .hash done
  | (k, v) :: pairs =>
    unlessError (recurse (.expr k) frame) fun key =>
      match key.key? with
      | none => return key.unusableKey
      | some key =>
        unlessError (recurse (.expr v) frame) fun value =>
          entries (Table.insert key value done) pairs

def call (callee : Value) (arguments : List Value) (site : Option Span) : EvalM Value :=
  match callee with
  | .function closure => do
    let frame ← Machine.child (some closure.scope)
    Eval.bindParams frame closure.params arguments
    Machine.record (.function closure arguments.length)
    Machine.during ⟨"<fn>", arguments⟩ (caught (recurse (.block closure.body) frame))
  | .builtin op _ => Eval.callBuiltin op arguments
  | callee => Machine.notCallable callee site

def callExpr (site : Span) (callee : Expr) (args : List Expr) : ExitM Value := do
  let callee ← recurse (.expr callee) frame
  if callee.isCallable then
    match ← arguments recurse frame args with
    | .error message => return .error message
    | .ok args => call recurse callee args (some site)
  else Machine.notCallable callee (some site) (α := Value)

def expr : Expr → ExitM Value
  | .name ident => do
    let store := (← get).store
    return (store.resolve frame ident.name).getD (.error ("identifier not found: " ++ ident.name))
  | .integer _ value => return .integer value
  | .boolean _ value => return .boolean value
  | .string _ value => return .string value
  | .unary _ operator right =>
    unlessError (recurse (.expr right) frame) fun right => return .unary operator right
  | .binary _ operator left right =>
    unlessError (recurse (.expr left) frame) fun left =>
      unlessError (recurse (.expr right) frame) fun right => return .binary operator left right
  | .function _ params body => Machine.closure params body frame
  | .call site callee args => callExpr recurse frame site callee args
  | .array _ elements => do
    match ← arguments recurse frame elements with
    | .error message => return .error message
    | .ok values => return .array values
  | .index _ left index =>
    unlessError (recurse (.expr left) frame) fun left =>
      unlessError (recurse (.expr index) frame) fun index => return .index left index
  | .hash _ pairs => entries recurse frame [] pairs

/-- A `return` leaves with its value; no other statement does. -/
def stmt : Stmt → ExitM Value
  | .bind _ name value =>
    unlessError (recurse (.expr value) frame) fun value => Machine.bind frame name.name value
  | .ret _ value => do throw (← recurse (.expr value) frame)
  | .branch _ condition consequence alternative =>
    unlessError (recurse (.expr condition) frame) fun condition =>
      if condition.isTruthy then statements recurse frame .null consequence.statements
      else
        match alternative with
        | some alternative => statements recurse frame .null alternative.statements
        | none => return .null
  | .expr _ value => recurse (.expr value) frame

end Rules

def node (recurse : Node → FrameId → ExitM Value) (node : Node) (frame : FrameId) : ExitM Value :=
  match node with
  | .block block => statements recurse frame .null block.statements
  | .stmt s => stmt recurse frame s
  | .expr e => expr recurse frame e

def evalWithin : Nat → Node → FrameId → ExitM Value
  | 0 => fun node _ => (throw (.tooDeep node.span) : EvalM Value)
  | depth + 1 => node (evalWithin depth)

def evaluate (program : Block) (frame : FrameId) : EvalM Value :=
  caught (evalWithin evaluationLimit (.block program) frame)

end Exit

/-! ## Machines that bind no wrapped value -/

/-- No wrapped return value stands in a value that is bound; the arguments of calls may be anything. -/
def Machine.Plain (m : Machine) : Prop :=
  ∀ (i : FrameId) (frame : Frame), m.store.frames[i]? = some frame →
    ∀ binding ∈ frame.bindings, binding.2.Plain

namespace Machine

variable {m : Machine}

theorem Sound.plain (h : m.Sound) : m.Plain :=
  fun i frame hi binding mem => (h.bindings i frame hi binding mem).result.plain

theorem Plain.child (h : m.Plain) (parent : Option FrameId) :
    Plain { m with store := (m.store.child parent).2 } :=
  Every.child h parent

theorem Plain.bind (h : m.Plain) (frame : FrameId) (name : String) {value : Value}
    (hvalue : value.Plain) : Plain { m with store := m.store.bind frame name value } :=
  Every.bind h frame name hvalue

theorem Plain.resolve (h : m.Plain) {frame : FrameId} {name : String} {value : Value}
    (hvalue : m.store.resolve frame name = some value) : value.Plain :=
  Every.resolve h hvalue

end Machine

variable {α β : Type} {ok : α → Prop} {ok' : β → Prop}

def Stays (ok : α → Prop) (x : EvalM α) : Prop :=
  ∀ m : Machine, m.Plain → Ends x m (fun a last => last.Plain ∧ ok a) fun _ last => last.Plain

theorem Stays.pure {a : α} (h : ok a) : Stays ok (Pure.pure a) :=
  fun _ hm => ⟨hm, h⟩

theorem Stays.bind {x : EvalM α} {f : α → EvalM β} (hx : Stays ok x) (hf : ∀ a, ok a → Stays ok' (f a)) :
    Stays ok' (x >>= f) := by
  intro m hm
  rw [ends_bind]
  exact (hx m hm).mono (fun a last ⟨hlast, ha⟩ => hf a ha last hlast) fun _ _ h => h

theorem stays_bind (frame : FrameId) (name : String) {value : Value} (h : value.Plain) :
    Stays Value.Plain (Machine.bind frame name value) := by
  intro m hm
  rw [Machine.ends_bind_value]
  cases value
  case returned inner => exact absurd rfl (h.ne_returned inner)
  all_goals exact ⟨hm.bind frame name h, h⟩

theorem stays_notCallable (callee : Value) (site : Option Span) :
    Stays ok (Machine.notCallable callee site) :=
  fun _ hm => hm

theorem stays_record (event : TraceEvent) : Stays (fun _ => True) (Machine.record event) :=
  fun _ hm => ⟨hm, trivial⟩

theorem stays_child (parent : Option FrameId) : Stays (fun _ => True) (Machine.child parent) :=
  fun _ hm => ⟨hm.child parent, trivial⟩

theorem stays_prepare (closure : Closure) {values : List Value}
    (hvalues : ∀ value ∈ values, value.Plain) : Stays (fun _ => True) (Eval.prepare closure values) := by
  have hparams : ∀ frame, Stays (fun _ => True) (Eval.bindParams frame closure.params values) := by
    intro frame
    generalize closure.params = params
    induction params generalizing values with
    | nil => exact .pure trivial
    | cons param params ih =>
      cases values with
      | nil => exact .pure trivial
      | cons value values =>
        obtain ⟨hvalue, hrest⟩ := List.forall_mem_cons.mp hvalues
        exact .bind (stays_bind frame param.name hvalue) fun _ _ => ih hrest
  refine .bind (stays_child _) fun frame _ => ?_
  exact .bind (hparams frame) fun _ _ => .bind (stays_record _) fun _ _ => .pure trivial

/-! ## The two side by side -/

def Value.exit : Value → Except Value Value
  | .returned value => .error value
  | value => .ok value

variable {how : β → Except Value β}

/-- On machines that bind no wrapped value the second computation ends as the first does, and `how` tells
which of the first one's values it is left with. No wrapped value is bound, and the value is as the
condition says. -/
def Exits (ok : β → Prop) (how : β → Except Value β) (x : EvalM β) (y : ExitM β) : Prop :=
  ∀ m : Machine, m.Plain →
    Ends x m (fun a last => last.Plain ∧ ok a ∧ y.run m = .ok (how a) last)
      fun fault last => last.Plain ∧ y.run m = .error fault last

theorem run_bind_of_ok {y : ExitM α} {g : α → ExitM β} {m last : Machine} {a : α}
    (h : y.run m = .ok (.ok a) last) : (y >>= g).run m = (g a).run last := by
  rw [ExceptT.run_bind, bind_of_ok h]

theorem run_bind_of_exit {y : ExitM α} {g : α → ExitM β} {m last : Machine} {value : Value}
    (h : y.run m = .ok (.error value) last) : (y >>= g).run m = .ok (.error value) last := by
  rw [ExceptT.run_bind, bind_of_ok h]
  rfl

theorem run_bind_of_fault {y : ExitM α} {g : α → ExitM β} {m last : Machine} {fault : Fault}
    (h : y.run m = .error fault last) : (y >>= g).run m = .error fault last := by
  rw [ExceptT.run_bind, bind_of_error h]

theorem run_lift (x : EvalM α) (m : Machine) : (liftM x : ExitM α).run m = EStateM.map .ok x m := rfl

theorem Exits.pure {b : β} (h : ok' b) (hhow : how b = .ok b) :
    Exits ok' how (Pure.pure b) (Pure.pure b) :=
  fun m hm => ⟨hm, h, congrArg (EStateM.Result.ok · m) hhow.symm⟩

theorem Exits.lift {x : EvalM β} (h : Stays ok' x) : Exits ok' .ok x (liftM x) := by
  intro m hm
  have hx := h m hm
  unfold Ends at hx ⊢
  rw [run_lift, EStateM.map]
  cases hend : x m with
  | ok b last =>
    rw [hend] at hx
    exact ⟨hx.1, hx.2, rfl⟩
  | error fault last =>
    rw [hend] at hx
    exact ⟨hx, rfl⟩

theorem Exits.bind {x : EvalM α} {y : ExitM α} {f : α → EvalM β} {g : α → ExitM β}
    (h : Exits ok .ok x y) (hf : ∀ a, ok a → Exits ok' how (f a) (g a)) :
    Exits ok' how (x >>= f) (y >>= g) := by
  intro m hm
  rw [ends_bind, Ends]
  cases hx : x m with
  | ok a last =>
    obtain ⟨hlast, ha, hy⟩ := (h m hm).of_ok hx
    simp only [run_bind_of_ok hy]
    exact hf a ha last hlast
  | error fault last =>
    obtain ⟨hlast, hy⟩ := (h m hm).of_error hx
    exact ⟨hlast, run_bind_of_fault hy⟩

theorem Exits.unlessError {ok : Value → Prop} {how : Value → Except Value Value} {x : EvalM Value}
    {y : ExitM Value} {next : Value → EvalM Value} {next' : Value → ExitM Value}
    (h : Exits Value.Plain .ok x y)
    (herror : ∀ message, ok (.error message) ∧ how (.error message) = .ok (.error message))
    (hnext : ∀ value, value.Plain → Exits ok how (next value) (next' value)) :
    Exits ok how (Eval.unlessError x next) (Exit.unlessError y next') := by
  refine .bind h fun value hvalue => ?_
  cases value
  case error message => exact .pure (herror message).1 (herror message).2
  all_goals exact hnext _ hvalue

def Value.Wrapped (value : Value) : Prop :=
  value.unwrap.Plain

theorem Value.Plain.wrapped {value : Value} (h : value.Plain) : value.Wrapped ∧ value.exit = .ok value := by
  cases value with
  | returned inner => exact absurd rfl (h.ne_returned inner)
  | _ => exact ⟨h, rfl⟩

theorem Exits.wrapped {x : EvalM Value} {y : ExitM Value} (h : Exits Value.Plain .ok x y) :
    Exits Value.Wrapped Value.exit x y := by
  refine fun m hm => (h m hm).mono ?_ fun _ _ hfault => hfault
  rintro value last ⟨hlast, hvalue, hy⟩
  exact ⟨hlast, hvalue.wrapped.1, by rw [hy, hvalue.wrapped.2]⟩

theorem Exits.caught {x : EvalM Value} {y : ExitM Value} (h : Exits Value.Wrapped Value.exit x y)
    {m : Machine} (hm : m.Plain) : Exit.caught y m = (Value.unwrap <$> x) m := by
  have hmap : (Value.unwrap <$> x) m = EStateM.map Value.unwrap x m := rfl
  rw [hmap, EStateM.map, Exit.caught]
  cases hx : x m with
  | ok value last =>
    rw [bind_of_ok ((h m hm).of_ok hx).2.2]
    cases value <;> rfl
  | error fault last => exact bind_of_error ((h m hm).of_error hx).2

def Node.Exits : Node → EvalM Value → ExitM Value → Prop
  | .block _ | .stmt _ => MonkeyLang.Exits Value.Wrapped Value.exit
  | .expr _ => MonkeyLang.Exits Value.Plain .ok

/-! ## Rules -/

namespace Exit

section Rules

variable {recurse : Node → FrameId → EvalM Value} {exits : Node → FrameId → ExitM Value} {frame : FrameId}
  (hexit : ∀ (node : Node) frame, node.Exits (recurse node frame) (exits node frame))
include hexit

theorem exits_recurse_expr (e : Expr) (frame : FrameId) :
    Exits Value.Plain .ok (recurse (.expr e) frame) (exits (.expr e) frame) :=
  hexit (.expr e) frame

theorem exits_statements {result : Value} (hresult : result.Plain) (ss : List Stmt) :
    Exits Value.Wrapped Value.exit (Eval.statements recurse frame result ss)
      (statements exits frame result ss) := by
  induction ss generalizing result with
  | nil => exact .pure hresult.wrapped.1 hresult.wrapped.2
  | cons s ss ih =>
    intro m hm
    rw [Eval.statements, statements, ends_bind, Ends]
    cases hx : recurse (.stmt s) frame m with
    | error fault last =>
      obtain ⟨hlast, hy⟩ := (hexit (.stmt s) frame m hm).of_error hx
      exact ⟨hlast, run_bind_of_fault hy⟩
    | ok value last =>
      obtain ⟨hlast, hvalue, hy⟩ := (hexit (.stmt s) frame m hm).of_ok hx
      cases value
      case returned inner => exact ⟨hlast, hvalue, run_bind_of_exit hy⟩
      all_goals
        simp only [run_bind_of_ok hy]
        exact ih hvalue last hlast

def Arguments (values : Except String (List Value)) : Prop :=
  ∀ list, values = .ok list → ∀ value ∈ list, value.Plain

theorem exits_arguments (es : List Expr) :
    Exits Arguments .ok (Eval.arguments recurse frame es) (arguments exits frame es) := by
  induction es with
  | nil => exact .pure (by rintro _ ⟨⟩; simp) rfl
  | cons e es ih =>
    refine .bind (exits_recurse_expr hexit e frame) fun value hvalue => ?_
    cases value
    case error message => exact .pure (by rintro _ ⟨⟩) rfl
    all_goals
      refine .bind ih fun values hvalues => .pure ?_ rfl
      intro list hlist
      cases values with
      | error message => cases hlist
      | ok values =>
        cases hlist
        exact List.forall_mem_cons.mpr ⟨hvalue, hvalues values rfl⟩

theorem exits_entries {done : List (Key × Value)} (hdone : Value.Plain (.hash done))
    (pairs : List (Expr × Expr)) :
    Exits Value.Plain .ok (Eval.entries recurse frame done pairs) (entries exits frame done pairs) := by
  have herror : ∀ message, Value.Plain (.error message) ∧
      (Except.ok (.error message) : Except Value Value) = .ok (.error message) := by simp
  induction pairs generalizing done with
  | nil => exact .pure hdone rfl
  | cons pair pairs ih =>
    obtain ⟨k, v⟩ := pair
    refine .unlessError (exits_recurse_expr hexit k frame) herror fun key _ => ?_
    cases key.key? with
    | none => exact .pure (Value.plain_unusableKey key) rfl
    | some key =>
      exact .unlessError (exits_recurse_expr hexit v frame) herror fun value hvalue =>
        ih (Value.plain_insert hdone key hvalue)

theorem call_eq {callee : Value} {values : List Value} (hvalues : ∀ value ∈ values, value.Plain)
    (site : Option Span) {m : Machine} (hm : m.Plain) :
    call exits callee values site m = Eval.call recurse callee values site m := by
  cases callee
  case function closure =>
    have hcall : call exits (.function closure) values site = (do
        let frame ← Eval.prepare closure values
        Machine.during ⟨"<fn>", values⟩ (caught (exits (.block closure.body) frame))) := by
      simp only [call, Eval.prepare, bind_assoc, pure_bind]
    rw [hcall, Eval.call_function]
    cases hx : Eval.prepare closure values m with
    | error fault last => rw [bind_of_error hx, bind_of_error hx]
    | ok inner last =>
      obtain ⟨hlast, -⟩ := (stays_prepare closure hvalues m hm).of_ok hx
      have hentered : Machine.Plain { last with calls := ⟨"<fn>", values⟩ :: last.calls } := hlast
      rw [bind_of_ok hx, bind_of_ok hx, Machine.during, (hexit (.block closure.body) inner).caught hentered]
      show _ = EStateM.bind (Machine.during ⟨"<fn>", values⟩ _) _ last
      have hmap : ∀ m', (Value.unwrap <$> recurse (.block closure.body) inner) m' =
        EStateM.map Value.unwrap (recurse (.block closure.body) inner) m' := fun _ => rfl
      rw [hmap, EStateM.map, EStateM.bind, Machine.during]
      cases recurse (.block closure.body) inner { last with calls := ⟨"<fn>", values⟩ :: last.calls } <;> rfl
  all_goals rfl

theorem stays_call (callee : Value) {values : List Value} (hvalues : ∀ value ∈ values, value.Plain)
    (site : Option Span) : Stays Value.Plain (Eval.call recurse callee values site) := by
  cases callee
  case function closure =>
    rw [Eval.call_function]
    refine .bind (stays_prepare closure hvalues) fun inner _ => ?_
    have hbody : Stays Value.Wrapped
        (Machine.during ⟨"<fn>", values⟩ (recurse (.block closure.body) inner)) := by
      intro m hm
      rw [Machine.ends_during]
      have hentered : Machine.Plain { m with calls := ⟨"<fn>", values⟩ :: m.calls } := hm
      exact (hexit (.block closure.body) inner _ hentered).mono
        (fun _ _ ⟨hlast, hvalue, _⟩ => ⟨hlast, hvalue⟩) fun _ _ ⟨hlast, _⟩ => hlast
    exact .bind hbody fun value hvalue => .pure hvalue
  case builtin op owner =>
    rw [Eval.call, Eval.callBuiltin_eq]
    split
    · exact .bind (stays_record _) fun _ _ => .pure (op.plain_apply hvalues)
    · exact .pure (op.plain_apply hvalues)
  all_goals exact stays_notCallable _ _

theorem exits_call (callee : Value) {values : List Value} (hvalues : ∀ value ∈ values, value.Plain)
    (site : Option Span) :
    Exits Value.Plain .ok (Eval.call recurse callee values site)
      (liftM (call exits callee values site)) := by
  intro m hm
  have hlift := Exits.lift (stays_call hexit callee hvalues site) m hm
  have hrun : (liftM (call exits callee values site) : ExitM Value).run m =
      (liftM (Eval.call recurse callee values site) : ExitM Value).run m := by
    rw [run_lift, run_lift, EStateM.map, EStateM.map, call_eq hexit hvalues site hm]
  rwa [hrun]

theorem exits_callExpr (site : Span) (callee : Expr) (es : List Expr) :
    Exits Value.Plain .ok (Eval.callExpr recurse frame site callee es)
      (callExpr exits frame site callee es) := by
  refine .bind (exits_recurse_expr hexit callee frame) fun callee _ => ?_
  split
  · refine .bind (exits_arguments hexit es) fun values hvalues => ?_
    cases values with
    | error message => exact .pure (Value.plain_error message) rfl
    | ok values => exact exits_call hexit callee (hvalues values rfl) _
  · exact .lift (stays_notCallable _ _)

theorem exits_expr (e : Expr) :
    Exits Value.Plain .ok (Eval.expr recurse frame e) (expr exits frame e) := by
  have hnested := fun e => exits_recurse_expr hexit e frame
  have herror : ∀ message, Value.Plain (.error message) ∧
      (Except.ok (.error message) : Except Value Value) = .ok (.error message) := by simp
  cases e with
  | name ident =>
    intro m hm
    refine ⟨hm, ?_, rfl⟩
    cases hvalue : m.store.resolve frame ident.name with
    | none => exact Value.plain_error _
    | some value => exact hm.resolve hvalue
  | integer _ value => exact .pure (Value.plain_integer value) rfl
  | boolean _ value => exact .pure (Value.plain_boolean value) rfl
  | string _ value => exact .pure (Value.plain_string value) rfl
  | unary _ operator right =>
    exact .unlessError (hnested right) herror fun right _ => .pure (Value.plain_unary operator right) rfl
  | binary _ operator left right =>
    exact .unlessError (hnested left) herror fun left _ => .unlessError (hnested right) herror
      fun right _ => .pure (Value.plain_binary operator left right) rfl
  | function _ params body => exact .lift fun m hm => ⟨hm, Value.plain_function _⟩
  | call site callee es => exact exits_callExpr hexit site callee es
  | array _ elements =>
    refine .bind (exits_arguments hexit elements) fun values hvalues => ?_
    cases values with
    | error message => exact .pure (Value.plain_error message) rfl
    | ok values => exact .pure (Value.plain_array.mpr (hvalues values rfl)) rfl
  | index _ left index =>
    exact .unlessError (hnested left) herror fun left hleft => .unlessError (hnested index) herror
      fun index _ => .pure (Value.plain_index hleft index) rfl
  | hash _ pairs => exact exits_entries hexit (by simp) pairs

theorem exits_stmt (s : Stmt) :
    Exits Value.Wrapped Value.exit (Eval.stmt recurse frame s) (stmt exits frame s) := by
  have hnested := fun e => exits_recurse_expr hexit e frame
  have herror : ∀ message, Value.Wrapped (.error message) ∧
      Value.exit (.error message) = .ok (.error message) :=
    fun message => (Value.plain_error message).wrapped
  cases s with
  | bind _ name value =>
    exact .unlessError (hnested value) herror fun value hvalue =>
      (Exits.lift (stays_bind frame name.name hvalue)).wrapped
  | ret _ value => exact .bind (hnested value) fun value hvalue => fun m hm => ⟨hm, hvalue, rfl⟩
  | branch _ condition consequence alternative =>
    refine .unlessError (hnested condition) herror fun value _ => ?_
    split
    · exact exits_statements hexit Value.plain_null _
    · cases alternative with
      | none => exact .pure Value.plain_null.wrapped.1 rfl
      | some alternative => exact exits_statements hexit Value.plain_null _
  | expr _ value => exact (hnested value).wrapped

theorem exits_node (node : Node) (frame : FrameId) :
    node.Exits (Eval.node recurse node frame) (Exit.node exits node frame) := by
  cases node with
  | block b => exact exits_statements hexit Value.plain_null _
  | stmt s => exact exits_stmt hexit s
  | expr e => exact exits_expr hexit e

end Rules

end Exit

theorem exits_evalWithin (depth : Nat) (node : Node) (frame : FrameId) :
    node.Exits (evalWithin depth node frame) (Exit.evalWithin depth node frame) := by
  induction depth generalizing node frame with
  | zero => cases node <;> exact fun m hm => ⟨hm, rfl⟩
  | succ depth ih => exact Exit.exits_node ih node frame

/-! ## Behind a return -/

/-- The second list is the first with statements added behind the last one, and perhaps inside of it in
the same way, if it is a conditional. -/
inductive Lengthened : List Stmt → List Stmt → Prop where
  | append (ss more : List Stmt) : Lengthened ss (ss ++ more)
  | consequence {inner inner' : List Stmt} (before more : List Stmt) (span start : Span) (condition : Expr)
      (alternative : Option Block) : Lengthened inner inner' →
      Lengthened (before ++ [.branch span condition (.mk start inner) alternative])
        (before ++ .branch span condition (.mk start inner') alternative :: more)
  | alternative {inner inner' : List Stmt} (before more : List Stmt) (span start : Span)
      (condition : Expr) (consequence : Block) : Lengthened inner inner' →
      Lengthened (before ++ [.branch span condition consequence (some (.mk start inner))])
        (before ++ .branch span condition consequence (some (.mk start inner')) :: more)

def Behind (value : Value) (x y : EvalM Value) : Prop :=
  ∀ m last, x m = .ok (.returned value) last → y m = .ok (.returned value) last

namespace Behind

variable {value : Value}

theorem refl (x : EvalM Value) : Behind value x x :=
  fun _ _ h => h

theorem bind {x y : EvalM Value} {f g : Value → EvalM Value}
    (h : ∀ a m ready, x m = .ok a ready → ∀ last, f a ready = .ok (.returned value) last →
      (y >>= g) m = .ok (.returned value) last) : Behind value (x >>= f) (y >>= g) := by
  intro m last hlast
  cases hx : x m with
  | ok a ready =>
    rw [bind_of_ok hx] at hlast
    exact h a m ready hx last hlast
  | error fault ready =>
    rw [bind_of_error hx] at hlast
    cases hlast

theorem unlessError {f g : Value → EvalM Value} (x : EvalM Value) (h : ∀ a, Behind value (f a) (g a)) :
    Behind value (Eval.unlessError x f) (Eval.unlessError x g) := by
  refine .bind fun a m ready hx last hlast => ?_
  rw [bind_of_ok hx]
  cases a
  case error message => exact hlast
  all_goals exact h _ ready last hlast

end Behind

namespace Eval

variable {recurse : Node → FrameId → EvalM Value} {frame : FrameId} {value : Value}

theorem behind_append {result : Value} (hresult : ∀ inner, result ≠ .returned inner)
    (ss more : List Stmt) :
    Behind value (statements recurse frame result ss) (statements recurse frame result (ss ++ more)) := by
  induction ss generalizing result with
  | nil =>
    intro m last h
    cases h
    exact absurd rfl (hresult value)
  | cons s ss ih =>
    refine .bind fun first m ready hx last hlast => ?_
    rw [bind_of_ok hx]
    cases first
    case returned => exact hlast
    all_goals exact ih (by simp) ready last hlast

theorem behind_replace {s s' : Stmt}
    (hs : Behind value (recurse (.stmt s) frame) (recurse (.stmt s') frame))
    (result : Value) (before more : List Stmt) :
    Behind value (statements recurse frame result (before ++ [s]))
      (statements recurse frame result (before ++ s' :: more)) := by
  induction before generalizing result with
  | nil =>
    refine .bind fun first m ready hx last hlast => ?_
    cases first
    case returned inner =>
      cases hlast
      rw [bind_of_ok (hs m _ hx)]
      rfl
    all_goals cases hlast
  | cons first before ih =>
    refine .bind fun first m ready hx last hlast => ?_
    rw [bind_of_ok hx]
    cases first
    case returned => exact hlast
    all_goals exact ih _ ready last hlast

end Eval

theorem Lengthened.behind {ss ts : List Stmt} (h : Lengthened ss ts) (value : Value) (depth : Nat)
    (frame : FrameId) {result : Value} (hresult : ∀ inner, result ≠ .returned inner) :
    Behind value (Eval.statements (evalWithin depth) frame result ss)
      (Eval.statements (evalWithin depth) frame result ts) := by
  induction h generalizing depth result with
  | append ss more => exact Eval.behind_append hresult ss more
  | consequence before more span start condition alternative _ ih =>
    refine Eval.behind_replace ?_ result before more
    cases depth with
    | zero => exact .refl _
    | succ depth =>
      refine .unlessError _ fun a => ?_
      split
      · exact ih depth (by simp)
      · exact .refl _
  | alternative before more span start condition consequence _ ih =>
    refine Eval.behind_replace ?_ result before more
    cases depth with
    | zero => exact .refl _
    | succ depth =>
      refine .unlessError _ fun a => ?_
      split
      · exact .refl _
      · exact ih depth (by simp)

/-- Where no wrapped value is bound, a program ends with wrapped values as it does with exits, in the same
value or fault and in the same machine, and so does the body of a function, at every bound on the nesting.
Statements behind a return that is evaluated make no difference, however deep in conditionals they and the
return stand, and an expression, a call included, never gives a wrapped value. -/
theorem evaluate_eq_exit {m : Machine} (hm : m.Plain) (frame : FrameId) :
    (∀ program, evaluate program frame m = Exit.evaluate program frame m) ∧
    (∀ depth block, (Value.unwrap <$> evalWithin depth (.block block) frame) m =
      Exit.caught (Exit.evalWithin depth (.block block) frame) m) ∧
    (∀ depth span span' ss ts value last, Lengthened ss ts →
      evalWithin depth (.block (.mk span ss)) frame m = .ok (.returned value) last →
      evalWithin depth (.block (.mk span' ts)) frame m = .ok (.returned value) last) ∧
    ∀ depth e value last, evalWithin depth (.expr e) frame m = .ok value last →
      ∀ inner, value ≠ .returned inner := by
  have hblock : ∀ depth block, (Value.unwrap <$> evalWithin depth (.block block) frame) m =
      Exit.caught (Exit.evalWithin depth (.block block) frame) m := fun depth block =>
    ((exits_evalWithin depth (.block block) frame).caught hm).symm
  refine ⟨hblock evaluationLimit, hblock, ?_, ?_⟩
  · intro depth span span' ss ts value last hlengthened hss
    cases depth with
    | zero => cases hss
    | succ depth => exact hlengthened.behind value depth frame (by simp) m last hss
  · intro depth e value last hvalue
    exact ((exits_evalWithin depth (.expr e) frame m hm).of_ok hvalue).2.1.ne_returned

theorem evaluate_eq_exit_nested :
    let body : Block := .mk default [.branch default (.boolean default true) (.mk default
      [.branch default (.boolean default true) (.mk default [.ret default (.integer default 1),
        .expr default (.integer default 2)]) none, .expr default (.integer default 3)]) none]
    let program : Block := .mk default
      [.bind default ⟨default, "a"⟩ (.call default (.function default [] body) []),
        .expr default (.array default [.name ⟨default, "a"⟩])]
    (Session.start true).machine.Plain ∧
    (Value.unwrap <$> evalWithin 9 (.block program) 0) (Session.start true).machine =
      Exit.caught (Exit.evalWithin 9 (.block program) 0) (Session.start true).machine ∧
    (Session.outcome (Exit.caught (Exit.evalWithin 9 (.block program) 0) (Session.start true).machine)).1 =
      .ok (.array [.integer 1]) := by
  intro body program
  have hm := (Session.sound_start true).machine.plain
  exact ⟨hm, (evaluate_eq_exit hm 0).2.1 9 program, by cbv⟩

/-- A host may bind an array with a wrapped value in it. As the value of a statement the wrapper ends the
program, in which nothing returns. -/
theorem evaluate_eq_exit_wrapped :
    let top (bindings : List (String × Value)) : Machine := ⟨⟨#[⟨bindings, none⟩]⟩, [], 0, #[]⟩
    let x : Value := .array [.returned (.integer 1)]
    Machine.bind 0 "x" x (top []) = .ok x (top [("x", x)]) ∧
    ∃ program, parse "x[0]; 5" = .ok program ∧
      evaluate program 0 (top [("x", x)]) = .ok (.integer 1) (top [("x", x)]) ∧
      Exit.evaluate program 0 (top [("x", x)]) = .ok (.integer 5) (top [("x", x)]) ∧
      evaluate program 0 (top [("x", x)]) ≠ Exit.evaluate program 0 (top [("x", x)]) := by
  intro top x
  let program : Block := .mk ⟨0, 0, 1⟩
    [.expr ⟨0, 0, 1⟩ (.index ⟨0, 1, 2⟩ (.name ⟨⟨0, 0, 1⟩, "x"⟩) (.integer ⟨0, 2, 3⟩ 0)),
      .expr ⟨0, 6, 7⟩ (.integer ⟨0, 6, 7⟩ 5)]
  have hparse : parse "x[0]; 5" = .ok program := by
    cbv
  have hlimit : evaluationLimit = 29996 + 4 := rfl
  have hwrapped : ∀ depth, evalWithin (depth + 4) (.block program) 0 (top [("x", x)]) =
      .ok (.returned (.integer 1)) (top [("x", x)]) := by
    intro depth
    cbv
  have hexit : ∀ depth, Exit.caught (Exit.evalWithin (depth + 4) (.block program) 0) (top [("x", x)]) =
      .ok (.integer 5) (top [("x", x)]) := by
    intro depth
    cbv
  have hone : evaluate program 0 (top [("x", x)]) = .ok (.integer 1) (top [("x", x)]) := by
    rw [evaluate, hlimit, bind_of_ok (hwrapped 29996)]
    rfl
  have hfive : Exit.evaluate program 0 (top [("x", x)]) = .ok (.integer 5) (top [("x", x)]) := by
    rw [Exit.evaluate, hlimit, hexit]
  refine ⟨rfl, program, hparse, hone, hfive, fun h => ?_⟩
  cases hone.symm.trans (h.trans hfive)

end MonkeyLang
