import MonkeyLang.Proofs.Ast.Nesting
import MonkeyLang.Proofs.Eval.Deepening
import MonkeyLang.Proofs.Eval.Parallel
import MonkeyLang.Proofs.Session.Reachable

namespace MonkeyLang

namespace Matching

def spanless : Matching where
  spans := False
  frames := 0
  frameShift := 0
  closures := 0
  closureShift := 0
  kept _ := False
  kept_scope _ := False.elim

@[simp] theorem spanless_frame (i : FrameId) : spanless.frame i = i := rfl

theorem spanless_closures_iff {a b : Closure} : spanless.Closures a b ↔
    b.id = a.id ∧ b.scope = a.scope ∧ a.params.map Ident.erase = b.params.map Ident.erase ∧
      a.body.erase = b.body.erase := by
  constructor
  · rintro (⟨⟨⟩, -⟩ | h)
    exact ⟨h.id, h.scope, h.params.1, h.body.1⟩
  · rintro ⟨hid, hscope, hparams, hbody⟩
    exact .inr ⟨Nat.zero_le _, hid, ⟨hparams, False.elim⟩, ⟨hbody, False.elim⟩, hscope⟩

theorem spanless_values_self (value : Value) : spanless.Values value value :=
  Value.alike_self value fun _ _ => spanless_closures_iff.mpr ⟨rfl, rfl, rfl, rfl⟩

theorem spanless_machines_self (m : Machine) : spanless.Machines m m where
  size_le := Nat.zero_le _
  size := rfl
  frames i := by
    rw [spanless_frame]
    cases m.store.frames[i]? with
    | none => exact .none
    | some frame =>
      refine .some ⟨(Option.map_id_apply).symm, List.forall₂_same.mpr fun binding _ => ?_⟩
      exact .mk binding.1 (spanless_values_self binding.2)
  calls := List.forall₂_same.mpr fun call _ => ⟨rfl, List.forall₂_same.mpr fun _ _ => spanless_values_self _⟩
  closures_le := Nat.zero_le _
  closures := rfl

theorem Faults.isSome_span? {t : Matching} {a b : Fault} (h : t.Faults a b) :
    a.span?.isSome = b.span?.isSome := by
  cases h with
  | notCallable _ hsite _ =>
    cases hsite with
    | none => rfl
    | some => rfl
  | tooDeep => rfl
  | boundReturn name => rfl

theorem Faults.kind {t : Matching} {a b : Fault} (h : t.Faults a b) : a.kind = b.kind := by
  cases h <;> rfl

theorem Machines.bindAll {m m' : Machine} (h : spanless.Machines m m') (frame : FrameId)
    (bindings : List (String × Value)) :
    spanless.Machines { m with store := m.store.bindAll frame bindings }
      { m' with store := m'.store.bindAll frame bindings } := by
  induction bindings generalizing m m' with
  | nil => exact h
  | cons binding bindings ih => exact ih (h.bind frame binding.1 (spanless_values_self binding.2))

theorem follows_install : spanless.Follows (fun i j => j = i) Machine.install Machine.install := by
  refine .bind (follows_child rfl) fun i j hij m m' hm => ?_
  obtain rfl : j = i := hij
  exact .ok rfl (hm.bindAll j (Machine.builtins j))

theorem follows_evaluate {a b : Block} (h : a.erase = b.erase) (frame : FrameId) :
    spanless.Follows spanless.Values (evaluate a frame) (evaluate b frame) := by
  refine .bind (spanless.follows_evalWithin evaluationLimit (.block ⟨h, False.elim⟩) frame) ?_
  exact fun _ _ hvalue => .pure hvalue.unwrap

end Matching

namespace Session
open Matching

/-- The sessions differ in the spans inside the bodies of functions at most, and in their traces. -/
structure Alike (session session' : Session) : Prop where
  persistent : session'.persistent = session.persistent
  scope : session'.scope = session.scope
  machine : spanless.Machines session.machine session'.machine

variable {session session' : Session}

theorem Alike.refl (session : Session) : session.Alike session :=
  ⟨rfl, rfl, spanless_machines_self session.machine⟩

theorem Alike.record (h : session.Alike session') (event event' : TraceEvent) :
    (session.record event).Alike (session'.record event') :=
  { h with machine := { h.machine with } }

theorem Alike.clearTrace (h : session.Alike session') : session.clearTrace.Alike session'.clearTrace :=
  { h with machine := { h.machine with } }

theorem Alike.reset (h : session.Alike session') : session.reset.Alike session'.reset := by
  have hresults := follows_install session.machine session'.machine h.machine
  unfold Session.reset
  generalize Machine.install session.machine = result at hresults ⊢
  generalize Machine.install session'.machine = result' at hresults ⊢
  cases hresults with
  | ok hscope hlast => exact ⟨h.persistent, hscope, hlast⟩
  | error _ hlast => exact { h with machine := hlast }

theorem Alike.opened (h : session.Alike session') (source source' : String) :
    (session.opened source).Alike (session'.opened source') := by
  unfold Session.opened
  rw [h.persistent]
  split
  · exact h.clearTrace.record _ _
  · exact h.reset.clearTrace.record _ _

end Session

def Store.shown (store : Store) (frame : FrameId) : List (String × String × String) :=
  (store.bindings frame).map fun (name, value) => (name, value.debug, value.display)

theorem Matching.Machines.shown {m m' : Machine} (h : Matching.spanless.Machines m m') (frame : FrameId) :
    m'.store.shown frame = m.store.shown frame := by
  have hframe := h.frames frame
  rw [Matching.spanless_frame] at hframe
  rw [Store.shown, Store.shown, Store.bindings, Store.bindings]
  generalize m.store.frames[frame]? = old at hframe ⊢
  generalize m'.store.frames[frame]? = new at hframe ⊢
  cases hframe with
  | none => rfl
  | some hframe =>
    refine (Matching.map_eq_of_forall₂ hframe.bindings fun a b hentry => ?_).symm
    cases hentry with
    | mk name hvalue => simp only [hvalue.debug, hvalue.display]

namespace Fault

def place (source : String) (fault : Fault) : String :=
  match fault.span? with
  | some span =>
    let ⟨line, column⟩ := span.location
    s!"\n(line {line}, col {column})\n" ++ ScriptError.excerpt source span.location
  | none => ""

def trace (fault : Fault) : String :=
  match fault.calls with
  | [] => ""
  | calls => "\n" ++ stackTrace calls

theorem trace_eq (fault : Fault) :
    fault.trace = if stackTrace fault.calls = "" then "" else "\n" ++ stackTrace fault.calls := by
  rw [trace]
  cases fault.calls with
  | nil => rfl
  | cons call calls =>
    have hne : stackTrace (call :: calls) ≠ "" := by simp [stackTrace, traceText]
    exact (if_neg hne).symm

theorem report_eq (source : String) (fault : Fault) :
    ScriptError.report source (.fault fault) =
      ⟨(ScriptError.fault fault).heading ++ ": " ++ fault.message ++ fault.place source ++ fault.trace,
        fault.span?.map Span.location⟩ := by
  rw [ScriptError.report, ScriptError.calls, ScriptError.reportWith, ← trace_eq, place]
  cases fault.span? with
  | none => simp
  | some span => simp [String.append_assoc]

structure SameReport (a b : Fault) : Prop where
  kind : a.kind = b.kind
  message : a.message = b.message
  stackTrace : stackTrace a.calls = stackTrace b.calls
  placed : a.span?.isSome = b.span?.isSome
  report : ∃ head trace, ∀ source,
    (ScriptError.report source (.fault a)).message = head ++ a.place source ++ trace ∧
      (ScriptError.report source (.fault b)).message = head ++ b.place source ++ trace

end Fault

namespace Matching
open MonkeyLang.Fault

variable {t : Matching} {a b : Fault}

theorem Faults.heading (h : t.Faults a b) :
    (ScriptError.fault a).heading = (ScriptError.fault b).heading := by
  cases h <;> rfl

theorem Faults.trace (h : t.Faults a b) : a.trace = b.trace := by
  have hcalls := h.calls
  have htext := Calls.stackTrace hcalls
  rw [Fault.trace, Fault.trace]
  generalize a.calls = calls at hcalls htext ⊢
  generalize b.calls = calls' at hcalls htext ⊢
  cases hcalls with
  | nil => rfl
  | cons => exact congrArg ("\n" ++ ·) htext

theorem Faults.sameReport (h : t.Faults a b) : a.SameReport b where
  kind := h.kind
  message := h.message
  stackTrace := Calls.stackTrace h.calls
  placed := h.isSome_span?
  report := by
    refine ⟨(ScriptError.fault a).heading ++ ": " ++ a.message, a.trace, fun source => ⟨?_, ?_⟩⟩
    · rw [report_eq]
    · rw [report_eq, h.heading, h.message, h.trace]

theorem Faults.report (h : t.Faults a b) (hspans : t.spans) (source : String) :
    ScriptError.report source (.fault a) = ScriptError.report source (.fault b) := by
  rw [report_eq, report_eq, h.heading, h.message, h.trace, place, place, h.span? hspans]

end Matching

namespace Session
open Matching

/-- The two runs ended in the same way but for spans: with values that are written alike, with faults that
are reported alike, or both with one reason not to read the script; and in sessions that are alike. -/
inductive Agree : Except ScriptError Value × Session → Except ScriptError Value × Session → Prop where
  | value {a b : Value} {last last' : Session} : spanless.Values a b → a.debug = b.debug →
      a.display = b.display → last.Alike last' → Agree (.ok a, last) (.ok b, last')
  | fault {a b : Fault} {last last' : Session} : a.SameReport b → last.Alike last' →
      Agree (.error (.fault a), last) (.error (.fault b), last')
  | refused (error : ParseError) {last last' : Session} : last.Alike last' →
      Agree (.error (.parse error), last) (.error (.parse error), last')

variable {session session' : Session}

theorem Alike.runProgram (h : session.Alike session') {p q : Block} (herase : p.erase = q.erase) :
    Agree (session.runProgram p) (session'.runProgram q) := by
  obtain ⟨_, m, _⟩ := session
  obtain ⟨mode, m', top⟩ := session'
  obtain ⟨rfl, rfl, hm⟩ := h
  have hresults := follows_evaluate herase top m m' hm
  simp only [Session.runProgram]
  generalize evaluate p top m = result at hresults ⊢
  generalize evaluate q top m' = result' at hresults ⊢
  cases hresults with
  | @ok _ _ last last' hvalue hlast =>
    have hlast : Alike ⟨mode, last, top⟩ ⟨mode, last', top⟩ := ⟨rfl, rfl, hlast⟩
    exact .value hvalue hvalue.debug hvalue.display hlast
  | @error _ _ last last' hfault hlast =>
    have hlast : Alike ⟨mode, last, top⟩ ⟨mode, last', top⟩ := ⟨rfl, rfl, hlast⟩
    exact .fault hfault.sameReport (hlast.record _ _)

theorem run_eq (session : Session) (source : String) : session.run source =
    match parse source with
    | .ok program => (session.opened source).runProgram program
    | .error error => (.error (.parse error), if error.isInternal then
        (session.opened source).record (.fault error.kind error.message) else session.opened source) :=
  rfl

theorem run_of_parse {source : String} {program : Block} (h : parse source = .ok program)
    (session : Session) : session.run source = (session.opened source).runProgram program := by
  rw [run_eq, h]

theorem run_of_shallow {session : Session} {source : String} {program : Block}
    (hparse : parse source = .ok program) {depth : Nat} (hdepth : depth ≤ evaluationLimit) {fault : Fault}
    (hfault : ∀ span, fault ≠ .tooDeep span)
    (h : (outcome (evalWithin depth (.block program) (session.opened source).scope
      (session.opened source).machine)).1 = .error fault) :
    (session.run source).1 = .error (.fault fault) := by
  have hdeep := evalWithin_deepens hdepth (.block program) (session.opened source).scope
    (session.opened source).machine
  rw [run_of_parse hparse, runProgram, evaluate]
  cases hresult : evalWithin depth (.block program) (session.opened source).scope
    (session.opened source).machine with
  | ok value last =>
    rw [hresult] at h
    cases h
  | error other last =>
    rw [hresult] at h hdeep
    cases h
    have hlimit := hdeep.resolve_left (by
      rintro ⟨span, _, heq⟩
      exact hfault span (EStateM.Result.error.inj heq).1)
    rw [bind_of_error hlimit.symm]
    rfl

theorem run_of_parse_error {source : String} {error : ParseError} (h : parse source = .error error)
    (session : Session) : (session.run source).1 = .error (.parse error) := by
  rw [run_eq, h]

theorem runProgram_ne_refused (session : Session) (program : Block) (error : ParseError) :
    (session.runProgram program).1 ≠ .error (.parse error) := by
  unfold Session.runProgram
  split <;> simp

theorem evalWithin_of_evaluate {program : Block} {frame : FrameId} {m last : Machine} {fault : Fault}
    (h : evaluate program frame m = .error fault last) :
    evalWithin evaluationLimit (.block program) frame m = .error fault last := by
  cases hx : evalWithin evaluationLimit (.block program) frame m with
  | ok value last' => cases h.symm.trans (bind_of_ok hx)
  | error fault' last' => exact (bind_of_error hx).symm.trans h

theorem runProgram_error {program : Block} {error : ScriptError}
    (h : (session.runProgram program).1 = .error error) :
    ∃ fault last, evaluate program session.scope session.machine = .error fault last ∧
      error = .fault fault := by
  unfold Session.runProgram at h
  cases hx : evaluate program session.scope session.machine with
  | ok value last =>
    rw [hx] at h
    cases h
  | error fault last =>
    rw [hx] at h
    cases h
    exact ⟨fault, last, rfl, rfl⟩

theorem Alike.run_same (h : session.Alike session') {source source' : String} {p q : Block}
    (hp : parse source = .ok p) (hq : parse source' = .ok q) (herase : p.erase = q.erase) :
    Agree (session.run source) (session'.run source') := by
  rw [run_of_parse hp, run_of_parse hq]
  exact (h.opened source source').runProgram herase

end Session

/-- Programs that are the same up to spans do the same in sessions that are. So does the printed text of
a program that was read, if the parentheses in it do not nest too deeply to be read; with the nesting
bounded high enough, it is always read and does the same. -/
theorem run_congruent :
    (∀ p q session session', p.same q = true → Session.Alike session session' →
      Session.Agree (session.runProgram p) (session'.runProgram q)) ∧
    (∀ session session', Session.Alike session session' → ∀ frame,
      session'.machine.store.shown frame = session.machine.store.shown frame) ∧
    ∀ source program, parse source = .ok program → ∀ width level session session',
      Session.Alike session session' →
      ((∃ found, (session'.run (program.printProgram width level)).1 =
          .error (.parse (.nestingTooDeep found))) ∨
        Session.Agree (session.run source) (session'.run (program.printProgram width level))) ∧
      ∃ bound, ∀ depth, bound ≤ depth → ∃ reread,
        parseWithin depth (program.printProgram width level) = .ok reread ∧
        Session.Agree (session.run source)
          ((session'.opened (program.printProgram width level)).runProgram reread) := by
  refine ⟨?_, fun _ _ h frame => h.machine.shown frame, ?_⟩
  · intro p q session session' hsame h
    exact h.runProgram ((Block.same_iff p q).mp hsame)
  · intro source program hparse width level session session' h
    obtain ⟨bound, hbound⟩ := (parseWithin_print hparse).1 width level
    have hreread : ∀ depth, bound ≤ depth → ∃ reread,
        parseWithin depth (program.printProgram width level) = .ok reread ∧
          program.erase = reread.erase := by
      intro depth hdepth
      obtain ⟨reread, hparse', hsame, -⟩ := hbound depth hdepth
      exact ⟨reread, hparse', ((Block.same_iff reread program).mp hsame).symm⟩
    constructor
    · obtain ⟨reread, hparse', herase⟩ := hreread _ (Nat.le_max_left bound nestingLimit)
      rcases parseWithin_deepens (Nat.le_max_right bound nestingLimit) (program.printProgram width level)
        with ⟨found, hlimit⟩ | hequal
      · exact .inl ⟨found, Session.run_of_parse_error hlimit session'⟩
      · exact .inr (h.run_same hparse (hequal.trans hparse') herase)
    · refine ⟨bound, fun depth hdepth => ?_⟩
      obtain ⟨reread, hparse', herase⟩ := hreread depth hdepth
      refine ⟨reread, hparse', ?_⟩
      rw [Session.run_of_parse hparse]
      exact (h.opened source _).runProgram herase

theorem run_congruent_negation :
    Session.Agree ((Session.start true).run "fn(x) \x7b -x \x7d")
      ((Session.start true).run "fn(x) \x7b\n  (-x);\n\x7d;") := by
  have hparse : parse "fn(x) \x7b -x \x7d" = .ok (.mk ⟨0, 0, 2⟩ [.expr ⟨0, 0, 2⟩
      (.function ⟨0, 0, 2⟩ [⟨⟨0, 3, 4⟩, "x"⟩] (.mk ⟨0, 8, 9⟩ [.expr ⟨0, 8, 9⟩
        (.unary ⟨0, 8, 9⟩ .neg (.name ⟨⟨0, 9, 10⟩, "x"⟩))]))]) := by
    cbv
  have htext : parse "fn(x) \x7b\n  (-x);\n\x7d;" = .ok (.mk ⟨0, 0, 2⟩ [.expr ⟨0, 0, 2⟩
      (.function ⟨0, 0, 2⟩ [⟨⟨0, 3, 4⟩, "x"⟩] (.mk ⟨1, 2, 3⟩ [.expr ⟨1, 2, 3⟩
        (.unary ⟨1, 3, 4⟩ .neg (.name ⟨⟨1, 4, 5⟩, "x"⟩))]))]) := by
    cbv
  rcases (run_congruent.2.2 _ _ hparse 2 0 _ _ (.refl (.start true))).1 with ⟨found, hlimit⟩ | hagree
  · have hrun := Session.run_of_parse htext (.start true)
    exact absurd (hrun ▸ hlimit) (Session.runProgram_ne_refused _ _ _)
  · exact hagree

theorem Session.runProgram_negations {n : Nat} (h : n + 2 < evaluationLimit) {program : Block}
    (herase : program.erase = .mk default [.expr default (.negations n)]) (session : Session) :
    (session.runProgram program).1 = .ok (.negated n) := by
  have htower : (Block.mk default [.expr default (.negations n)]).erase = program.erase := by
    rw [herase, Block.erase, Stmt.eraseAll, Stmt.eraseAll, Stmt.erase, Expr.erase_negations]
  have hagree := (Alike.refl session).runProgram htower
  have hvalue : session.runProgram (.mk default [.expr default (.negations n)]) =
      (.ok (.negated n), session) := by
    simp only [runProgram, Negations.evaluate_negations h, outcome]
  rw [hvalue] at hagree
  generalize session.runProgram program = result at hagree ⊢
  cases hagree with
  | value hvalue =>
    cases n with
    | zero =>
      cases hvalue
      rfl
    | succ n =>
      cases hvalue
      rfl

/-- Ten thousand negations are read and evaluated, and the parentheses of their printed text nest too
deeply. -/
theorem run_print_refused :
    ∃ program, parse (Negations.text 10000) = .ok program ∧
      ((Session.start true).run (Negations.text 10000)).1 = .ok (.boolean true) ∧
      (∃ found, ((Session.start true).run (program.printProgram 2 0)).1 =
        .error (.parse (.nestingTooDeep found))) ∧
      ¬ Session.Agree ((Session.start true).run (Negations.text 10000))
        ((Session.start true).run (program.printProgram 2 0)) := by
  obtain ⟨program, hparse, herase⟩ := parseWithin_negations (show 10000 + 2 < nestingLimit by decide)
  have hrun : ((Session.start true).run (Negations.text 10000)).1 = .ok (.boolean true) := by
    rw [Session.run_of_parse hparse]
    exact Session.runProgram_negations (by decide) herase _
  obtain ⟨found, hprint⟩ :=
    parseWithin_print_negations (show nestingLimit ≤ 2 * (9999 + 1) by decide) 2 0 herase
  have hrefused := Session.run_of_parse_error hprint (.start true)
  refine ⟨program, hparse, hrun, ⟨found, hrefused⟩, fun hagree => ?_⟩
  generalize (Session.start true).run (Negations.text 10000) = result at hrun hagree
  generalize (Session.start true).run (program.printProgram 2 0) = result' at hrefused hagree
  cases hagree with
  | value => cases hrefused
  | fault | refused => cases hrun

end MonkeyLang
