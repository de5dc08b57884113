import MonkeyLang.Proofs.Ast.Joining
import MonkeyLang.Proofs.Eval.Faults
import MonkeyLang.Proofs.Session.Congruence

namespace MonkeyLang

namespace Session
open Matching

def Returns (session : Session) (program : Block) : Prop :=
  ∃ value last, evalWithin evaluationLimit (.block program) session.scope session.machine =
    .ok (.returned value) last

variable {session : Session}

theorem runProgram_ok {program : Block} {value : Value} {last : Machine}
    (h : evalWithin evaluationLimit (.block program) session.scope session.machine = .ok value last) :
    session.runProgram program = (.ok value.unwrap, { session with machine := last }) := by
  have hevaluate : evaluate program session.scope session.machine = .ok value.unwrap last := bind_of_ok h
  rw [runProgram, hevaluate]
  rfl

theorem evalWithin_of_runProgram {program : Block} {value : Value}
    (h : (session.runProgram program).1 = .ok value) :
    ∃ result last, evalWithin evaluationLimit (.block program) session.scope session.machine =
      .ok result last := by
  cases hresult : evalWithin evaluationLimit (.block program) session.scope session.machine with
  | ok result last => exact ⟨result, last, rfl⟩
  | error fault last =>
    have hevaluate : evaluate program session.scope session.machine = .error fault last :=
      bind_of_error hresult
    rw [runProgram, hevaluate] at h
    cases h

theorem runProgram_append {s t u : Span} {ss ts : List Stmt} {value : Value} {last : Machine}
    (h : evalWithin evaluationLimit (.block (.mk s ss)) session.scope session.machine = .ok value last)
    (hvalue : ∀ inner, value ≠ .returned inner) (hne : ts ≠ []) :
    session.runProgram (.mk t (ss ++ ts)) = { session with machine := last }.runProgram (.mk u ts) := by
  obtain ⟨first, rest, rfl⟩ := List.exists_cons_of_ne_nil hne
  have happend : evalWithin evaluationLimit (.block (.mk t (ss ++ first :: rest))) session.scope
      session.machine = evalWithin evaluationLimit (.block (.mk u (first :: rest))) session.scope last :=
    Eval.statements_append h hvalue
  have hevaluate : evaluate (.mk t (ss ++ first :: rest)) session.scope session.machine =
      evaluate (.mk u (first :: rest)) session.scope last := by
    show EStateM.bind _ _ _ = EStateM.bind _ _ _
    rw [EStateM.bind, EStateM.bind, happend]
  rw [runProgram, runProgram, hevaluate]

theorem opened_of_persistent (h : session.persistent = true) (source : String) :
    session.opened source = session.clearTrace.record (.script source.length) := by
  rw [opened, if_pos h]

theorem Alike.reopened {session' : Session} (h : session.Alike session')
    (hpersistent : session.persistent = true) (source : String) :
    (session.opened source).Alike session' := by
  rw [opened_of_persistent hpersistent]
  exact { h with machine := { h.machine with } }

theorem Agree.alike {result result' : Except ScriptError Value × Session} (h : Agree result result') :
    result.2.Alike result'.2 := by
  cases h with
  | value _ _ _ hlast => exact hlast
  | fault _ hlast => exact hlast
  | refused _ hlast => exact hlast

theorem Alike.runProgram_line {session' : Session} (h : session.Alike session')
    (hpersistent : session.persistent = true) {a b program : Block} (hne : b.statements ≠ [])
    (hsame : program.same (.mk default (a.statements ++ b.statements)) = true) {value : Value}
    (hrun : (session.runProgram a).1 = .ok value) (hreturns : ¬ session.Returns a) (source : String) :
    Agree (((session.runProgram a).2.opened source).runProgram b) (session'.runProgram program) := by
  obtain ⟨span, as⟩ := a
  obtain ⟨span', bs⟩ := b
  obtain ⟨top, statements⟩ := program
  have herase := (Block.same_iff _ _).mp hsame
  rw [Block.erase, Block.erase, Stmt.eraseAll_eq_map, Stmt.eraseAll_eq_map, List.map_append] at herase
  obtain ⟨ss, ts, rfl, hss, hts⟩ := List.map_eq_append_iff.mp (Block.mk.inj herase).2
  obtain ⟨result, last, hresult⟩ := evalWithin_of_runProgram hrun
  have hvalue : ∀ inner, result ≠ .returned inner := by
    rintro inner rfl
    exact hreturns ⟨inner, last, hresult⟩
  have hlike : (Block.mk span as).Like spanless.spans (.mk default ss) := by
    refine ⟨?_, False.elim⟩
    rw [Block.erase, Block.erase, Stmt.eraseAll_eq_map, Stmt.eraseAll_eq_map]
    exact congrArg _ hss.symm
  have hresults := spanless.follows_evalWithin evaluationLimit (.block hlike) session.scope _ _ h.machine
  rw [hresult, spanless_frame, ← h.scope] at hresults
  generalize hresult' : evalWithin evaluationLimit (.block (.mk default ss)) session'.scope
    session'.machine = outcome at hresults
  cases hresults with
  | @ok _ result' _ last' hsame hlast =>
    have hvalue' : ∀ inner, result' ≠ .returned inner := by
      rintro inner rfl
      cases hsame with
      | returned => exact hvalue _ rfl
    have hne' : ts ≠ [] := by
      rintro rfl
      exact hne (List.map_eq_nil_iff.mp hts.symm)
    rw [runProgram_ok hresult, runProgram_append hresult' hvalue' hne' (u := default)]
    have hbetween : Alike { session with machine := last } { session' with machine := last' } :=
      { h with machine := hlast }
    refine (hbetween.reopened hpersistent source).runProgram ?_
    rw [Block.erase, Block.erase, Stmt.eraseAll_eq_map, Stmt.eraseAll_eq_map, hts]
    rfl

end Session

/-- Two texts that are read as programs, of which the first ends inside no string literal, are read as one
program when a semicolon and the end of a line stand between them. In a session that keeps its frame, that
program does what the two do one after the other, unless the first one ends at a `return`: it gives the
same value or fault, up to spans, and leaves the same bindings in the same order. -/
theorem run_line {text line : String} {a b : Block} (ha : parse text = .ok a) (hb : parse line = .ok b)
    (hne : a.statements ≠ []) (hne' : b.statements ≠ []) (hclosed : Text.endsInString text = false) :
    (∃ program, parse (text ++ ";\n" ++ line) = .ok program ∧
      program.same (.mk default (a.statements ++ b.statements)) = true) ∧
    ∀ session : Session, session.persistent = true →
      ∀ value, (session.run text).1 = .ok value → ¬ (session.opened text).Returns a →
        Session.Agree ((session.run text).2.run line) (session.run (text ++ ";\n" ++ line)) ∧
        ((session.run text).2.run line).2.machine.store.shown session.scope =
          (session.run (text ++ ";\n" ++ line)).2.machine.store.shown session.scope := by
  obtain ⟨program, hparse, hsame⟩ := parseWithin_line ha hne hclosed hb
  refine ⟨⟨program, hparse, hsame⟩, fun session hpersistent value hrun hreturns => ?_⟩
  rw [Session.run_of_parse ha] at hrun
  have halike := (Session.Alike.refl session).opened text (text ++ ";\n" ++ line)
  have hagree : Session.Agree ((session.run text).2.run line) (session.run (text ++ ";\n" ++ line)) := by
    rw [Session.run_of_parse ha, Session.run_of_parse hb, Session.run_of_parse hparse]
    have hopened : (session.opened text).persistent = true := by
      rw [Session.opened_of_persistent hpersistent]
      exact hpersistent
    exact halike.runProgram_line hopened hne' hsame hrun hreturns line
  exact ⟨hagree, (hagree.alike.machine.shown session.scope).symm⟩

theorem run_line_binding :
    Session.Agree (((Session.start true).run "let a = 1").2.run "a")
      ((Session.start true).run "let a = 1;\na") := by
  have ha : parse "let a = 1" = .ok (.mk ⟨0, 0, 3⟩ [.bind ⟨0, 0, 3⟩ ⟨⟨0, 4, 5⟩, "a"⟩
      (.integer ⟨0, 8, 9⟩ 1)]) := by
    cbv
  have hb : parse "a" = .ok (.mk ⟨0, 0, 1⟩ [.expr ⟨0, 0, 1⟩ (.name ⟨⟨0, 0, 1⟩, "a"⟩)]) := by
    cbv
  have hshallow : evalWithin 3 (.block (.mk ⟨0, 0, 3⟩ [.bind ⟨0, 0, 3⟩ ⟨⟨0, 4, 5⟩, "a"⟩
      (.integer ⟨0, 8, 9⟩ 1)])) ((Session.start true).opened "let a = 1").scope
      ((Session.start true).opened "let a = 1").machine = .ok (.integer 1) _ :=
    rfl
  have hrun := evalWithin_ok_of_le (show 3 ≤ evaluationLimit by decide) hshallow
  refine ((run_line ha hb (List.cons_ne_nil _ _) (List.cons_ne_nil _ _) (by decide)).2 (.start true) rfl
    (.integer 1) ?_ ?_).1
  · rw [Session.run_of_parse ha, Session.runProgram_ok hrun]
    rfl
  · rintro ⟨value, last, hreturned⟩
    cases hrun.symm.trans hreturned

end MonkeyLang
