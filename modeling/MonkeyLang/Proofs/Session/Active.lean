import MonkeyLang.Proofs.Eval.Faults
import MonkeyLang.Proofs.Eval.Steps
import MonkeyLang.Proofs.Session.Congruence

namespace MonkeyLang
open Eval

structure Evaluation where
  depth : Nat
  node : Node
  frame : FrameId
  machine : Machine

def Stmt.subject : Stmt → Expr
  | .bind _ _ value | .ret _ value | .expr _ value => value
  | .branch _ condition _ _ => condition

namespace Evaluation

def result (x : Evaluation) : EStateM.Result Fault Machine Value :=
  evalWithin x.depth x.node x.frame x.machine

/-- The first evaluation comes to the second one, which is that of a part of its node or of the body of the
function it calls. In between stands the call that is entered, if there is one. -/
inductive Begins : Evaluation → List Call → Evaluation → Prop where
  | part {depth : Nat} {frame : FrameId} {m ready : Machine} (layer : Layer) (e : Expr) :
      Passed (evalWithin depth) frame layer.front m ready →
      Begins ⟨depth + 1, .expr (layer.fill e), frame, m⟩ [] ⟨depth, .expr e, frame, ready⟩
  | callee (depth : Nat) (site : Span) (callee : Expr) (args : List Expr) (frame : FrameId) (m : Machine) :
      Begins ⟨depth + 1, .expr (.call site callee args), frame, m⟩ [] ⟨depth, .expr callee, frame, m⟩
  | body {depth : Nat} (site : Span) {callee : Expr} {args : List Expr} {frame inner : FrameId}
      {m ready last bound : Machine} {closure : Closure} {values : List Value} :
      evalWithin depth (.expr callee) frame m = .ok (.function closure) ready →
      arguments (evalWithin depth) frame args ready = .ok (.ok values) last →
      prepare closure values last = .ok inner bound →
      Begins ⟨depth + 1, .expr (.call site callee args), frame, m⟩ [⟨"<fn>", values⟩]
        ⟨depth, .block closure.body, inner, { bound with calls := ⟨"<fn>", values⟩ :: bound.calls }⟩
  | subject (depth : Nat) (s : Stmt) (frame : FrameId) (m : Machine) :
      Begins ⟨depth + 1, .stmt s, frame, m⟩ [] ⟨depth, .expr s.subject, frame, m⟩
  | statement {depth : Nat} {frame : FrameId} {m ready : Machine} (span : Span) {before : List Stmt}
      (s : Stmt) (behind : List Stmt) : Ran (evalWithin depth) frame before m ready →
      Begins ⟨depth + 1, .block (.mk span (before ++ s :: behind)), frame, m⟩ []
        ⟨depth, .stmt s, frame, ready⟩
  | branch {depth : Nat} {frame : FrameId} {m ready last : Machine} (span : Span) {condition : Expr}
      {consequence : Block} {alternative : Option Block} {value : Value} {block : Block}
      {before behind : List Stmt} {s : Stmt} :
      evalWithin depth (.expr condition) frame m = .ok value ready → value.isError = false →
      (if value.isTruthy then some consequence else alternative) = some block →
      block.statements = before ++ s :: behind → Ran (evalWithin depth) frame before ready last →
      Begins ⟨depth + 1, .stmt (.branch span condition consequence alternative), frame, m⟩ []
        ⟨depth, .stmt s, frame, last⟩

/-- The first evaluation has come to the second one, inside the calls that are listed, outermost first. -/
inductive Active : Evaluation → List Call → Evaluation → Prop where
  | here (x : Evaluation) : Active x [] x
  | inside {x y z : Evaluation} {entered calls : List Call} :
      Begins x entered y → Active y calls z → Active x (entered ++ calls) z

/-- The evaluation is that of a call at the place, and the callee is a value that cannot be called. -/
inductive Refuses (callee : Value) (site : Span) : Evaluation → Prop where
  | mk {depth : Nat} {e : Expr} {frame : FrameId} {m ready : Machine} (args : List Expr) :
      evalWithin depth (.expr e) frame m = .ok callee ready → callee.isCallable = false →
      Refuses callee site ⟨depth + 1, .expr (.call site e args), frame, m⟩

variable {x y : Evaluation} {calls : List Call}

theorem calls_of_moves {α : Type} {computation : EvalM α} {m last : Machine} {a : α}
    (h : Machine.Moves (fun m last => last.calls = m.calls) computation)
    (hx : computation m = .ok a last) : last.calls = m.calls :=
  (h m).of_ok hx

section Machines
open Machine

variable {depth : Nat} {frame : FrameId} {m last : Machine}

theorem calls_of_passed {parts : List Part} (h : Passed (evalWithin depth) frame parts m last) :
    last.calls = m.calls := by
  induction h with
  | nil => rfl
  | cons he _ _ ih => exact ih.trans (calls_of_moves (stable_calls.evalWithin depth _ frame) he)

theorem calls_of_ran {ss : List Stmt} (h : Ran (evalWithin depth) frame ss m last) :
    last.calls = m.calls := by
  obtain ⟨value, hss, -⟩ := h
  exact calls_of_moves (moves_statements stable_calls (stable_calls.evalWithin depth) _ ss) hss

theorem calls_of_prepare {closure : Closure} {values : List Value} {inner : FrameId}
    (h : prepare closure values m = .ok inner last) : last.calls = m.calls := by
  refine calls_of_moves ?_ h
  refine stable_calls.andThen (fun m => stable_calls.child m _) fun frame => ?_
  refine stable_calls.andThen (moves_bindParams stable_calls closure.params values) fun _ => ?_
  exact stable_calls.andThen (fun m => stable_calls.record m _) fun _ => stable_calls.pure _

end Machines

theorem Begins.calls_eq (h : Begins x calls y) : y.machine.calls = calls.reverse ++ x.machine.calls := by
  cases h with
  | part layer e hfront => exact calls_of_passed hfront
  | callee => rfl
  | body site hcallee hvalues hprepare =>
    have hready := calls_of_moves (Machine.stable_calls.evalWithin _ _ _) hcallee
    have hlast := calls_of_moves
      (moves_arguments Machine.stable_calls (Machine.stable_calls.evalWithin _) _) hvalues
    have hbound := calls_of_prepare hprepare
    exact congrArg _ (hbound.trans (hlast.trans hready))
  | subject => rfl
  | statement span s behind hbefore => exact calls_of_ran hbefore
  | branch span hcondition _ _ _ hbefore =>
    exact (calls_of_ran hbefore).trans
      (calls_of_moves (Machine.stable_calls.evalWithin _ _ _) hcondition)

theorem Active.calls_eq (h : Active x calls y) : y.machine.calls = calls.reverse ++ x.machine.calls := by
  induction h with
  | here => rfl
  | inside hbegins _ ih => rw [ih, hbegins.calls_eq, List.reverse_append, List.append_assoc]

variable {fault : Fault} {last : Machine}

theorem Begins.result_eq_error (h : Begins x calls y) (hy : y.result = .error fault last) :
    ∃ last, x.result = .error fault last := by
  cases h with
  | part layer e hfront =>
    exact ⟨last, (expr_fill hfront (.of_error hy)).trans hy⟩
  | callee => exact ⟨last, bind_of_error hy⟩
  | @body depth site _ args frame inner m ready between bound closure values hcallee hvalues hprepare =>
    have hcall : call (evalWithin depth) (.function closure) values (some site) between =
        .error fault { last with calls := last.calls.tail } := by
      rw [call_function]
      exact (bind_of_ok hprepare).trans (bind_of_error (Machine.during_of_error hy))
    exact ⟨_, (bind_of_ok hcallee).trans ((bind_of_ok hvalues).trans hcall)⟩
  | subject depth s frame m =>
    refine ⟨last, ?_⟩
    cases s with
    | bind | branch => exact (unlessError_of_breaks (.of_error hy)).trans hy
    | ret => exact bind_of_error hy
    | expr => exact hy
  | statement span s behind hbefore => exact ⟨last, statements_of_ran hbefore hy⟩
  | @branch depth frame m ready between span condition consequence alternative value block before behind s
      hcondition hvalue hblock hstatements hbefore =>
    refine ⟨last, (unlessError_of_ok hcondition hvalue).trans ?_⟩
    have hrun : statements (evalWithin depth) frame .null block.statements ready = .error fault last := by
      rw [hstatements]
      exact statements_of_ran hbefore hy
    split at hblock
    next htruthy =>
      cases hblock
      rwa [if_pos htruthy]
    next hfalsy =>
      subst hblock
      rwa [if_neg hfalsy]

theorem Active.result_eq_error (h : Active x calls y) (hy : y.result = .error fault last) :
    ∃ last, x.result = .error fault last := by
  induction h generalizing last with
  | here => exact ⟨last, hy⟩
  | inside hbegins _ ih =>
    obtain ⟨between, hbetween⟩ := ih hy
    exact hbegins.result_eq_error hbetween

theorem Refuses.result_eq_error {callee : Value} {site : Span} (h : Refuses callee site x) :
    ∃ last, x.result = .error (.notCallable callee (some site) x.machine.calls.reverse) last := by
  cases h with
  | @mk depth e frame m ready args he hcallable =>
    refine ⟨ready, (bind_of_ok he).trans ?_⟩
    have hcalls : ready.calls = m.calls := calls_of_moves (Machine.stable_calls.evalWithin _ _ _) he
    rw [if_neg (by rw [hcallable]; exact Bool.false_ne_true)]
    show EStateM.Result.error (Fault.notCallable callee (some site) ready.calls.reverse) ready = _
    rw [hcalls]

theorem prepare_ne_error {closure : Closure} {values : List Value} {m : Machine}
    (hfault : ∀ name, fault ≠ .boundReturn name) : prepare closure values m ≠ .error fault last := by
  intro h
  rcases bind_eq_error h with hchild | ⟨frame, between, -, hrest⟩
  · cases hchild
  · rcases bind_eq_error hrest with hbind | ⟨-, bound, -, hrecord⟩
    · obtain ⟨name, hname⟩ := bindParams_eq_error hbind
      exact hfault name hname
    · cases hrecord

section Inside

variable {depth : Nat} {frame : FrameId} {m : Machine}

theorem call_eq_error {callee : Value} {values : List Value} {site : Option Span}
    (hcallable : callee.isCallable = true) (hfault : ∀ name, fault ≠ .boundReturn name)
    (h : call (evalWithin depth) callee values site m = .error fault last) :
    ∃ closure inner bound last, callee = .function closure ∧ prepare closure values m = .ok inner bound ∧
      evalWithin depth (.block closure.body) inner
        { bound with calls := ⟨"<fn>", values⟩ :: bound.calls } = .error fault last := by
  cases callee with
  | function closure =>
    rw [call_function] at h
    rcases bind_eq_error h with hprepare | ⟨inner, bound, hprepare, hrest⟩
    · exact absurd hprepare (prepare_ne_error hfault)
    · rcases bind_eq_error hrest with hbody | ⟨result, between, -, hpure⟩
      · obtain ⟨ending, hbody⟩ := Machine.during_eq_error hbody
        exact ⟨closure, inner, bound, ending, rfl, hprepare, hbody⟩
      · cases hpure
  | builtin op owner =>
    rw [call, callBuiltin_eq] at h
    split at h <;> cases h
  | _ => cases hcallable

def Inside (x : Evaluation) (fault : Fault) : Prop :=
  ∃ calls y last, Begins x calls y ∧ y.depth + 1 = x.depth ∧ y.result = .error fault last

theorem inside_part (layer : Layer) {e : Expr} {ready : Machine}
    (hfront : Passed (evalWithin depth) frame layer.front m ready)
    (he : evalWithin depth (.expr e) frame ready = .error fault last) :
    Inside ⟨depth + 1, .expr (layer.fill e), frame, m⟩ fault :=
  ⟨[], _, last, .part layer e hfront, rfl, he⟩

theorem inside_operands (layer layer' : Layer) {next : Value → Value → Value} {left right : Expr}
    (h : unlessError (evalWithin depth (.expr left) frame) (fun value =>
      unlessError (evalWithin depth (.expr right) frame) fun value' => pure (next value value')) m =
        .error fault last)
    (hfront : layer.front = []) (hfront' : layer'.front = [.operand left])
    (hfill : layer'.fill right = layer.fill left) :
    Inside ⟨depth + 1, .expr (layer.fill left), frame, m⟩ fault := by
  rcases unlessError_eq_error h with he | ⟨value, ready, he, hvalue, hrest⟩
  · exact inside_part layer (hfront ▸ .nil m) he
  · rcases unlessError_eq_error hrest with he' | ⟨value', between, -, -, hpure⟩
    · have hleft : Passed (evalWithin depth) frame [.operand left] m ready :=
        .cons he (by rw [hvalue]; rfl) (.nil ready)
      rw [← hfill]
      exact inside_part layer' (hfront' ▸ hleft) he'
    · cases hpure

theorem inside_call {site : Span} {callee : Expr} {args : List Expr}
    (hfault : ∀ name, fault ≠ .boundReturn name)
    (h : callExpr (evalWithin depth) frame site callee args m = .error fault last) :
    (∃ value, Refuses value site ⟨depth + 1, .expr (.call site callee args), frame, m⟩) ∨
      Inside ⟨depth + 1, .expr (.call site callee args), frame, m⟩ fault := by
  rcases bind_eq_error h with hcallee | ⟨value, ready, hcallee, hrest⟩
  · exact .inr ⟨[], _, last, .callee depth site callee args frame m, rfl, hcallee⟩
  by_cases hcallable : value.isCallable = true
  · rw [if_pos hcallable] at hrest
    refine .inr ?_
    rcases bind_eq_error hrest with hargs | ⟨values, between, hargs, hcall⟩
    · obtain ⟨before, e, behind, place, rfl, hbefore, he⟩ := arguments_eq_error hargs
      exact inside_part (.argument site callee before behind) (.cons hcallee hcallable hbefore) he
    · cases values with
      | error message => cases hcall
      | ok values =>
        obtain ⟨closure, inner, bound, ending, rfl, hprepare, hbody⟩ := call_eq_error hcallable hfault hcall
        exact ⟨_, _, ending, .body site hcallee hargs hprepare, rfl, hbody⟩
  · exact .inl ⟨value, .mk args hcallee (Bool.eq_false_iff.mpr hcallable)⟩

theorem inside_expr {e : Expr} (hfault : ∀ name, fault ≠ .boundReturn name)
    (h : expr (evalWithin depth) frame e m = .error fault last) :
    (∃ value site, Refuses value site ⟨depth + 1, .expr e, frame, m⟩) ∨
      Inside ⟨depth + 1, .expr e, frame, m⟩ fault := by
  cases e with
  | name | integer | boolean | string | function => cases h
  | unary span operator right =>
    rcases unlessError_eq_error h with he | ⟨_, _, _, _, hpure⟩
    · exact .inr (inside_part (.operand span operator) (.nil m) he)
    · cases hpure
  | binary span operator left right =>
    exact .inr (inside_operands (.left span operator right) (.right span operator left) h rfl rfl rfl)
  | call site callee args => exact (inside_call hfault h).imp (fun ⟨value, hx⟩ => ⟨value, site, hx⟩) id
  | array span elements =>
    rcases bind_eq_error h with hes | ⟨values, between, -, hpure⟩
    · obtain ⟨before, e, behind, ready, rfl, hbefore, he⟩ := arguments_eq_error hes
      exact .inr (inside_part (.element span before behind) hbefore he)
    · cases values <;> cases hpure
  | index span left index =>
    exact .inr (inside_operands (.indexed span index) (.index span left) h rfl rfl rfl)
  | hash span pairs =>
    obtain ⟨before, k, v, behind, ready, rfl, hends⟩ := entries_eq_error h
    rcases hends with ⟨hbefore, hk⟩ | ⟨hbefore, hv⟩
    · exact .inr (inside_part (.key span before v behind) hbefore hk)
    · exact .inr (inside_part (.value span before k behind) hbefore hv)

theorem inside_branch {span : Span} {condition : Expr} {consequence : Block} {alternative : Option Block}
    (h : stmt (evalWithin depth) frame (.branch span condition consequence alternative) m =
      .error fault last) :
    Inside ⟨depth + 1, .stmt (.branch span condition consequence alternative), frame, m⟩ fault := by
  rcases unlessError_eq_error h with he | ⟨value, ready, he, hvalue, hrest⟩
  · exact ⟨[], _, last, .subject depth (.branch span condition consequence alternative) frame m, rfl, he⟩
  · -- Without an alternative nothing is evaluated that could end in a fault.
    have hblock : ∃ block, (if value.isTruthy then some consequence else alternative) = some block ∧
        statements (evalWithin depth) frame .null block.statements ready = .error fault last := by
      split at hrest
      next htruthy => exact ⟨consequence, if_pos htruthy, hrest⟩
      next hfalsy =>
        cases alternative with
        | none => cases hrest
        | some block => exact ⟨block, if_neg hfalsy, hrest⟩
    obtain ⟨block, htaken, hrun⟩ := hblock
    obtain ⟨before, s, behind, place, hstatements, hbefore, hs⟩ := ran_of_eq_error hrun
    exact ⟨[], _, last, .branch span he hvalue htaken hstatements hbefore, rfl, hs⟩

theorem inside_stmt {s : Stmt} (hfault : ∀ name, fault ≠ .boundReturn name)
    (h : stmt (evalWithin depth) frame s m = .error fault last) :
    Inside ⟨depth + 1, .stmt s, frame, m⟩ fault := by
  have hsubject : evalWithin depth (.expr s.subject) frame m = .error fault last →
      Inside ⟨depth + 1, .stmt s, frame, m⟩ fault := fun he =>
    ⟨[], _, last, .subject depth s frame m, rfl, he⟩
  cases s with
  | bind span name value =>
    rcases unlessError_eq_error h with he | ⟨value, ready, -, -, hbind⟩
    · exact hsubject he
    · cases value with
      | returned inner =>
        cases hbind
        exact absurd rfl (hfault name.name)
      | _ => cases hbind
  | ret span value =>
    rcases bind_eq_error h with he | ⟨value, ready, -, hpure⟩
    · exact hsubject he
    · cases hpure
  | branch span condition consequence alternative => exact inside_branch h
  | expr span value => exact hsubject h

theorem inside_of_fault {node : Node} (hfault : ∀ name, fault ≠ .boundReturn name)
    (h : evalWithin (depth + 1) node frame m = .error fault last) :
    (∃ value site, Refuses value site ⟨depth + 1, node, frame, m⟩) ∨
      Inside ⟨depth + 1, node, frame, m⟩ fault := by
  cases node with
  | block b =>
    obtain ⟨span, ss⟩ := b
    obtain ⟨before, s, behind, ready, rfl, hbefore, hs⟩ := ran_of_eq_error h
    exact .inr ⟨[], _, last, .statement span s behind hbefore, rfl, hs⟩
  | stmt s => exact .inr (inside_stmt hfault h)
  | expr e => exact inside_expr hfault h

theorem active_of_fault {callee : Value} {site : Option Span} {calls : List Call} (x : Evaluation)
    (h : x.result = .error (.notCallable callee site calls) last) :
    ∃ entered y span, Active x entered y ∧ Refuses callee span y ∧ site = some span ∧
      calls = x.machine.calls.reverse ++ entered := by
  obtain ⟨depth, node, frame, m⟩ := x
  induction depth generalizing node frame m last with
  | zero => cases h
  | succ depth ih =>
    have hfault : ∀ name, Fault.notCallable callee site calls ≠ .boundReturn name := fun name heq =>
      nomatch heq
    rcases inside_of_fault hfault h with ⟨value, span, hrefuses⟩ | hinside
    · obtain ⟨between, hraised⟩ := hrefuses.result_eq_error
      cases hraised.symm.trans h
      exact ⟨[], _, span, .here _, hrefuses, rfl, (List.append_nil _).symm⟩
    · obtain ⟨outer, ⟨depth', node', frame', m'⟩, ending, hbegins, hdepth, hy⟩ := hinside
      cases hdepth
      obtain ⟨entered, z, span, hactive, hrefuses, hsite, hcalls⟩ := ih node' frame' m' hy
      refine ⟨outer ++ entered, z, span, .inside hbegins hactive, hrefuses, hsite, ?_⟩
      have hreverse := congrArg List.reverse hbegins.calls_eq
      rw [List.reverse_append, List.reverse_reverse] at hreverse
      rw [hcalls, hreverse, List.append_assoc]

end Inside

theorem length_of_arguments {depth : Nat} {frame : FrameId} {m last : Machine} {es : List Expr}
    {values : List Value} (h : arguments (evalWithin depth) frame es m = .ok (.ok values) last) :
    values.length = es.length := by
  induction es generalizing m values with
  | nil =>
    cases h
    rfl
  | cons e es ih =>
    rw [arguments] at h
    obtain ⟨value, ready, he, hrest⟩ := bind_eq_ok h
    cases value with
    | error message => cases hrest
    | _ =>
      obtain ⟨rest, between, hes, hpure⟩ := bind_eq_ok hrest
      cases rest with
      | error message => cases hpure
      | ok rest =>
        cases hpure
        exact congrArg Nat.succ (ih hes)

theorem Active.entered (h : Active x calls y) : ∀ call ∈ calls, call.name = "<fn>" ∧
    ∃ x y site callee args, Begins x [call] y ∧ x.node = .expr (.call site callee args) ∧
      call.arguments.length = args.length := by
  induction h with
  | here => exact fun call mem => nomatch mem
  | inside hbegins _ ih =>
    intro call mem
    rcases List.mem_append.mp mem with mem | mem
    · cases hbegins with
      | @body _ site callee args _ _ _ _ _ _ _ values hcallee hvalues hprepare =>
        obtain rfl := List.mem_singleton.mp mem
        exact ⟨rfl, _, _, site, callee, args, .body site hcallee hvalues hprepare, rfl,
          length_of_arguments hvalues⟩
      | _ => cases mem
    · exact ih call mem

end Evaluation

namespace Session
open Machine

variable {session : Session}

theorem moves_install : Moves (fun m last => last.calls = m.calls) install :=
  stable_calls.andThen (fun m => stable_calls.child m none) fun _ =>
    stable_calls.andThen (fun _ => rfl) fun _ => stable_calls.pure _

theorem calls_after_of_moves {α : Type} {x : EvalM α} (h : Moves (fun m last => last.calls = m.calls) x)
    (m : Machine) : (outcome (x m)).2.calls = m.calls := by
  rw [outcome_snd]
  exact after_of_ends (fun last => last.calls = m.calls) (h m)

theorem calls_opened (session : Session) (source : String) :
    (session.opened source).machine.calls = session.machine.calls := by
  have hreset := calls_after_of_moves moves_install session.machine
  rw [opened]
  split
  · rfl
  · rw [reset]
    cases hx : install session.machine with
    | ok frame last =>
      rw [hx] at hreset
      exact hreset
    | error fault last => cases hx

theorem calls_runProgram (session : Session) (program : Block) :
    (session.runProgram program).2.machine.calls = session.machine.calls := by
  have hevaluate : Moves (fun m last => last.calls = m.calls) (evaluate program session.scope) :=
    stable_calls.andThen (stable_calls.evalWithin _ _ _) fun _ => stable_calls.pure _
  have hcalls := calls_after_of_moves hevaluate session.machine
  rw [runProgram]
  cases hx : evaluate program session.scope session.machine with
  | ok value last =>
    rw [hx] at hcalls
    exact hcalls
  | error fault last =>
    rw [hx] at hcalls
    exact hcalls

theorem Reachable.calls_eq_nil (h : session.Reachable) : session.machine.calls = [] := by
  induction h with
  | start persistent => exact calls_after_of_moves moves_install Machine.empty
  | @run session source _ ih =>
    rw [run_eq]
    cases parse source with
    | ok program => exact (calls_runProgram _ program).trans ((calls_opened session source).trans ih)
    | error error =>
      dsimp only
      split
      · exact (calls_opened session source).trans ih
      · exact (calls_opened session source).trans ih
  | call _ _ _ ih =>
    exact (calls_after_of_moves (moves_call stable_calls (stable_calls.evalWithin _) _ _ _) _).trans ih

end Session

open Evaluation

/-- The calls of a machine are the same after every evaluation and every call, however they end, and no
session that waits for a script has any. A script calls what cannot be called if an active evaluation does
so, and then the fault lists the active calls, outermost first. They are calls of functions with the values
of all their arguments. -/
theorem calls_exact :
    (∀ (m : Machine) (depth : Nat) (node : Node) (frame : FrameId),
      (m.after (evalWithin depth node frame)).calls = m.calls) ∧
    (∀ (m : Machine) (depth : Nat) (callee : Value) (values : List Value) (site : Option Span),
      (m.after (call (evalWithin depth) callee values site)).calls = m.calls) ∧
    (∀ session : Session, session.Reachable → session.machine.calls = []) ∧
    (∀ (session : Session) (source : String) (program : Block), session.Reachable →
      parse source = .ok program → ∀ (callee : Value) (site : Option Span) (calls : List Call),
        (session.run source).1 = .error (.fault (.notCallable callee site calls)) ↔
          ∃ x span, Active ⟨evaluationLimit, .block program, (session.opened source).scope,
            (session.opened source).machine⟩ calls x ∧ Refuses callee span x ∧ site = some span) ∧
    ∀ (x y : Evaluation) (calls : List Call), Active x calls y → ∀ call ∈ calls, call.name = "<fn>" ∧
      ∃ x y site callee args, Begins x [call] y ∧ x.node = .expr (.call site callee args) ∧
        call.arguments.length = args.length := by
  refine ⟨fun m depth node frame => m.calls_after depth node frame, ?_, fun _ h => h.calls_eq_nil, ?_,
    fun _ _ _ h => h.entered⟩
  · intro m depth callee values site
    exact Machine.after_of_ends (fun last => last.calls = m.calls)
      (moves_call Machine.stable_calls (Machine.stable_calls.evalWithin depth) callee values site m)
  intro session source program h hparse callee site calls
  have hnil : (session.opened source).machine.calls = [] :=
    (session.calls_opened source).trans h.calls_eq_nil
  rw [Session.run_of_parse hparse]
  constructor
  · intro hrun
    obtain ⟨fault, last, hevaluate, hfault⟩ := Session.runProgram_error hrun
    cases hfault
    obtain ⟨entered, x, span, hactive, hrefuses, hsite, hcalls⟩ := active_of_fault
      ⟨evaluationLimit, .block program, _, _⟩ (Session.evalWithin_of_evaluate hevaluate)
    obtain rfl : calls = entered := by simpa [hnil] using hcalls
    exact ⟨x, span, hactive, hrefuses, hsite⟩
  · rintro ⟨x, span, hactive, hrefuses, rfl⟩
    obtain ⟨between, hraised⟩ := hrefuses.result_eq_error
    obtain ⟨last, hresult⟩ := hactive.result_eq_error hraised
    have hcalls : x.machine.calls.reverse = calls := by
      simp [hactive.calls_eq, hnil]
    rw [hcalls] at hresult
    have hevaluate : evaluate program (session.opened source).scope (session.opened source).machine =
        .error (.notCallable callee (some span) calls) last := bind_of_error hresult
    rw [Session.runProgram, hevaluate]
    rfl

theorem calls_exact_literal : ∃ program x, parse "fn(x) \x7b 1() \x7d(2, 3)" = .ok program ∧
    Active ⟨evaluationLimit, .block program, ((Session.start true).opened "fn(x) \x7b 1() \x7d(2, 3)").scope,
      ((Session.start true).opened "fn(x) \x7b 1() \x7d(2, 3)").machine⟩
      [⟨"<fn>", [.integer 2, .integer 3]⟩] x ∧ Refuses (.integer 1) ⟨0, 9, 10⟩ x := by
  let program : Block := .mk ⟨0, 0, 2⟩ [.expr ⟨0, 0, 2⟩ (.call ⟨0, 13, 14⟩
    (.function ⟨0, 0, 2⟩ [⟨⟨0, 3, 4⟩, "x"⟩] (.mk ⟨0, 8, 9⟩ [.expr ⟨0, 8, 9⟩
      (.call ⟨0, 9, 10⟩ (.integer ⟨0, 8, 9⟩ 1) [])]))
    [.integer ⟨0, 14, 15⟩ 2, .integer ⟨0, 17, 18⟩ 3])]
  have hparse : parse "fn(x) \x7b 1() \x7d(2, 3)" = .ok program := by
    cbv
  have hshallow : (Session.outcome (evalWithin 7 (.block program)
      ((Session.start true).opened "fn(x) \x7b 1() \x7d(2, 3)").scope
      ((Session.start true).opened "fn(x) \x7b 1() \x7d(2, 3)").machine)).1 =
      .error (.notCallable (.integer 1) (some ⟨0, 9, 10⟩) [⟨"<fn>", [.integer 2, .integer 3]⟩]) := by
    cbv
  have hrun := Session.run_of_shallow hparse (by decide) (by simp) hshallow
  obtain ⟨x, span, hactive, hrefuses, hsite⟩ :=
    (calls_exact.2.2.2.1 (.start true) _ program (.start true) hparse _ _ _).mp hrun
  cases hsite
  exact ⟨program, x, hparse, hactive, hrefuses⟩

end MonkeyLang
