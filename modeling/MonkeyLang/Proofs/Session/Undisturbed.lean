import MonkeyLang.Proofs.Command.Endings
import MonkeyLang.Proofs.Session.Lines
import MonkeyLang.Proofs.Session.Rerun

/-!
# Scripts that fail

A script that is not read leaves nothing behind but its trace: without it, all other scripts of the session
are answered as they are with it. A script that ends in a fault leaves what its statements in front of the
fault have left. The frames that a `let`, a `return` or an expression made before it failed stay, but nothing
leads to them, and no later script is answered in another way for them.
-/

namespace MonkeyLang
open Eval

/-! ## Machines that differ in their traces -/

namespace Matching

def exact : Matching :=
  { spanless with spans := True }

end Matching

namespace Session

def shown (source : String) : Except ScriptError Value → Except Report (String × String)
  | .ok value => .ok (value.debug, value.display)
  | .error error => .error (error.report source)

def reads (source : String) : Bool :=
  (parse source).isOk

variable {session session' : Session}

end Session

namespace Command.Prompt

def written : Except Report (String × String) → String × String
  | .ok (debug, _) => (debug ++ "\n", "")
  | .error report => ("", report.text ++ "\n")

variable {session session' : Session} {line : String}

theorem answers_cons_blank (hline : Text.trim line = "") (lines : List String) :
    answers session (line :: lines) = (line, "", "") :: answers session lines := by
  rw [answers, reply]
  simp only [hline, if_true]

theorem answers_cons_exit (hline : saysExit line = true) (lines : List String) :
    answers session (line :: lines) = [] := by
  rw [answers, reply_eq_quit_iff.mpr hline]

theorem answers_cons_script (hblank : Text.trim line ≠ "") (hexit : saysExit line = false)
    (lines : List String) : answers session (line :: lines) =
      (line, written (Session.shown (Text.trim line) (session.run (Text.trim line)).1)) ::
        answers (session.run (Text.trim line)).2 lines := by
  have hexit : Text.trim line ≠ "exit" := by simpa [saysExit] using hexit
  rw [answers, reply]
  simp only [if_neg hblank, if_neg hexit]
  generalize session.run (Text.trim line) = result
  obtain ⟨answer, next⟩ := result
  cases answer <;> rfl

theorem answers_eq_of_run {R : Session → Session → Prop}
    (hrun : ∀ {session session'}, R session session' → ∀ source,
      Session.shown source (session'.run source).1 = Session.shown source (session.run source).1 ∧
        R (session.run source).2 (session'.run source).2)
    (h : R session session') (lines : List String) : answers session' lines = answers session lines := by
  induction lines generalizing session session' with
  | nil => rfl
  | cons line lines ih =>
    by_cases hblank : Text.trim line = ""
    · rw [answers_cons_blank hblank, answers_cons_blank hblank, ih h]
    cases hexit : saysExit line with
    | true => rw [answers_cons_exit hexit, answers_cons_exit hexit]
    | false =>
      obtain ⟨hshown, hnext⟩ := hrun h (Text.trim line)
      rw [answers_cons_script hblank hexit, answers_cons_script hblank hexit, hshown, ih hnext]

end Command.Prompt

/-! ## Sessions that match -/

namespace Session
open Matching Command.Prompt

structure Matched (t : Matching) (session session' : Session) : Prop where
  persistent : session.persistent = true
  persistent' : session'.persistent = true
  scope : session'.scope = t.frame session.scope
  machine : t.Machines session.machine session'.machine

variable {t : Matching} {session session' : Session}

theorem Matched.runProgram (h : session.Matched t session') (hspans : t.spans) (program : Block)
    (source : String) :
    shown source (session'.runProgram program).1 = shown source (session.runProgram program).1 ∧
      (session.runProgram program).2.Matched t (session'.runProgram program).2 := by
  obtain ⟨hmode, hmode', hscope, hm⟩ := h
  have hevaluate : t.Follows t.Values (evaluate program session.scope)
      (evaluate program (t.frame session.scope)) :=
    .bind (t.follows_evalWithin evaluationLimit (.block (.refl program)) session.scope)
      fun _ _ hvalue => .pure hvalue.unwrap
  have hresults := hevaluate _ _ hm
  rw [← hscope] at hresults
  simp only [Session.runProgram]
  generalize evaluate program session.scope session.machine = result at hresults ⊢
  generalize evaluate program session'.scope session'.machine = result' at hresults ⊢
  cases hresults with
  | ok hvalue hlast =>
    refine ⟨?_, ⟨hmode, hmode', hscope, hlast⟩⟩
    exact congrArg Except.ok (Prod.ext hvalue.debug.symm hvalue.display.symm)
  | error hfault hlast =>
    refine ⟨congrArg Except.error (hfault.report hspans source).symm, ⟨hmode, hmode', hscope, ?_⟩⟩
    exact { hlast with }

theorem Matched.run (h : session.Matched t session') (hspans : t.spans) (source : String) :
    shown source (session'.run source).1 = shown source (session.run source).1 ∧
      (session.run source).2.Matched t (session'.run source).2 := by
  have hopened : (session.opened source).Matched t (session'.opened source) := by
    rw [opened_of_persistent h.persistent, opened_of_persistent h.persistent']
    exact { h with machine := { h.machine with } }
  rw [run_eq, run_eq]
  cases parse source with
  | ok program => exact hopened.runProgram hspans program source
  | error error =>
    refine ⟨rfl, ?_⟩
    dsimp only
    split
    · exact { hopened with machine := { hopened.machine with } }
    · exact hopened

theorem Matched.answers (h : session.Matched t session') (hspans : t.spans) (lines : List String) :
    answers session' lines = answers session lines :=
  answers_eq_of_run (fun h => h.run hspans) h lines

theorem Matched.dialogue (h : session.Matched t session') (hspans : t.spans) (lines : List String) :
    dialogue session' lines = dialogue session lines := by
  rw [dialogue_eq, dialogue_eq, h.answers hspans]

/-! ## Scripts that end in faults -/

/-- The program of a script comes to the statement behind the first ones, and there ends in the fault. -/
structure FaultsAt (session : Session) (before : List Stmt) (s : Stmt) (fault : Fault)
    (ready last : Machine) : Prop where
  before : Ran (evalWithin (evaluationLimit - 1)) session.scope before session.machine ready
  statement : evalWithin (evaluationLimit - 1) (.stmt s) session.scope ready = .error fault last

end Session

namespace Session
open Matching Command.Prompt

variable {session : Session} {source : String} {before : List Stmt} {s : Stmt} {fault : Fault}
  {ready last : Machine}

theorem FaultsAt.sound (h : session.FaultsAt before s fault ready last) (hsound : session.Sound) :
    ready.Sound ∧ session.machine.size ≤ ready.size ∧ session.scope < ready.size := by
  obtain ⟨value, hrun, -⟩ := h.before
  have hblock : evalWithin evaluationLimit (.block (.mk default before)) session.scope session.machine =
      .ok value ready := hrun
  obtain ⟨hready, hle, -⟩ := hsound.machine.value (upholds_evalWithin _ _ _ _ hsound.scope) hblock
  exact ⟨hready, hle, Nat.lt_of_lt_of_le hsound.scope hle⟩

end Session

end MonkeyLang
