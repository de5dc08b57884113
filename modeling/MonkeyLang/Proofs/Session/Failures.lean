import MonkeyLang.Proofs.Ast.Failure
import MonkeyLang.Proofs.Ast.RoundTrip
import MonkeyLang.Proofs.Eval.Deepening
import MonkeyLang.Proofs.Eval.Guarded
import MonkeyLang.Proofs.Session.Congruence
import MonkeyLang.Proofs.Token.Munch

namespace MonkeyLang
open Value

theorem Cut.newline {passed text : List Char} {lexemes : List Lexeme} {first last : Nat}
    (h : Cut passed text lexemes (some (.multiLine first last))) :
    ∃ front inner rest decoded, text = front ++ '"' :: inner ++ rest ∧ Literal inner rest decoded ∧
      '\n' ∈ inner := by
  generalize hending : some (LexError.multiLine first last) = ending at h
  induction h with
  | @blank passed rest c lexemes ending _ _ ih =>
    obtain ⟨front, inner, rest, decoded, rfl, hliteral, hline⟩ := ih hending
    exact ⟨c :: front, inner, rest, decoded, rfl, hliteral, hline⟩
  | @lexeme passed read rest l lexemes ending _ _ ih =>
    obtain ⟨front, inner, rest, decoded, rfl, hliteral, hline⟩ := ih hending
    exact ⟨read ++ front, inner, rest, decoded, by simp, hliteral, hline⟩
  | @multiLine passed inner rest decoded hliteral hline =>
    exact ⟨[], inner, rest, decoded, rfl, hliteral, hline⟩
  | stop | unsupported | invalidEscape => cases hending

namespace Machine

variable {m : Machine}

theorem every_empty (P : Value → Prop) : empty.Every P := by
  intro i frame hi
  cases hi

theorem Every.bindAll {P : Value → Prop} (h : m.Every P) (frame : FrameId)
    {bindings : List (String × Value)} (hbindings : ∀ binding ∈ bindings, binding.2.Every P) :
    Every P { m with store := m.store.bindAll frame bindings } := by
  induction bindings generalizing m with
  | nil => exact h
  | cons binding bindings ih =>
    obtain ⟨hbinding, hrest⟩ := List.forall_mem_cons.mp hbindings
    exact ih (h.bind frame binding.1 hbinding) hrest

theorem Every.install {P : Value → Prop} (hP : Spares P) (h : m.Every P) : (m.after install).Every P := by
  have hbuiltins : ∀ binding ∈ builtins m.store.frames.size, binding.2.Every P := by
    intro binding mem
    obtain ⟨op, -, rfl⟩ := List.mem_map.mp mem
    exact every_builtin hP op _
  exact (h.child none).bindAll m.store.frames.size hbuiltins

end Machine

namespace Session

variable {session : Session} {P : Value → Prop}

theorem every_reset (hP : Spares P) (h : session.machine.Every P) : session.reset.machine.Every P := by
  have hlast := h.install hP
  rw [← outcome_snd] at hlast
  unfold Session.reset
  cases hx : Machine.install session.machine with
  | ok frame last =>
    rw [hx] at hlast
    exact hlast
  | error fault last => cases hx

theorem every_record (h : session.machine.Every P) (event : TraceEvent) :
    (session.record event).machine.Every P :=
  h

theorem every_clearTrace (h : session.machine.Every P) : session.clearTrace.machine.Every P :=
  h

theorem every_opened (hP : Spares P) (h : session.machine.Every P) (source : String) :
    (session.opened source).machine.Every P := by
  unfold Session.opened
  split
  · exact every_record (every_clearTrace h) _
  · exact every_record (every_clearTrace (every_reset hP h)) _

theorem every_runProgram {program : Block}
    (h : (session.machine.after (evaluate program session.scope)).Every P) :
    (session.runProgram program).2.machine.Every P := by
  rw [← outcome_snd] at h
  unfold Session.runProgram
  split
  next heq =>
    rw [heq] at h
    exact h
  next heq =>
    rw [heq] at h
    exact h

theorem every_run (hP : Spares P) (h : session.machine.Every P) {source : String}
    (hevaluate : ∀ program, parse source = .ok program →
      ((session.opened source).machine.after (evaluate program (session.opened source).scope)).Every P) :
    (session.run source).2.machine.Every P := by
  rw [run_eq]
  cases hparse : parse source with
  | ok program => exact every_runProgram (hevaluate program hparse)
  | error error =>
    dsimp only
    split
    · exact every_record (every_opened hP h source) _
    · exact every_opened hP h source

theorem every_call {callee : Value} {arguments : List Value}
    (h : (session.machine.after (callValue callee arguments)).Every P) :
    (session.call callee arguments).2.machine.Every P := by
  rw [← outcome_snd] at h
  exact h

end Session

namespace ScriptError

end ScriptError

namespace Session

variable {session : Session} {source : String}

/-- What ends the script with the error, and the word that its message begins with. -/
inductive Cause (session : Session) (source : String) : (word : String) → ScriptError → Prop where
  | unsupported {c : Char} {span : Span} :
      tokenize source = .error (.unsupported c span) →
      Cause session source "LexError" (.parse (.lexical (.unsupported c span)))
  | invalidEscape {c : Char} {span : Span} :
      tokenize source = .error (.invalidEscape c span) →
      Cause session source "LexError" (.parse (.lexical (.invalidEscape c span)))
  | unexpected {expected : Expectation} {found : Token} :
      parse source = .error (.unexpected expected found) →
      Cause session source "ParseError" (.parse (.unexpected expected found))
  | nestingTooDeep {found : Token} : parse source = .error (.nestingTooDeep found) →
      Cause session source "ParseError" (.parse (.nestingTooDeep found))
  | newline {lexemes : List Lexeme} {first last : Nat} {front inner rest text : List Char} :
      Cut [] source.toList lexemes (some (.multiLine first last)) →
      source.toList = front ++ '"' :: inner ++ rest → Literal inner rest text → '\n' ∈ inner →
      Cause session source "InternalError" (.parse (.lexical (.multiLine first last)))
  | digits {lexemes : List Lexeme} {ending : Option LexError} {digits : String} :
      Cut [] source.toList lexemes ending → ⟨.integer, digits⟩ ∈ lexemes → 4300 < digits.length →
      Cause session source "InternalError" (.parse (.tooManyDigits digits.length))
  | notCallable {program : Block} {callee : Value} {site : Option Span} {calls : List Call} {last : Machine} :
      parse source = .ok program →
      evaluate program (session.opened source).scope (session.opened source).machine =
        .error (.notCallable callee site calls) last →
      callee.isCallable = false →
      Cause session source "EvaluationFault" (.fault (.notCallable callee site calls))
  | tooDeep {program : Block} {span : Span} {last : Machine} :
      parse source = .ok program →
      evaluate program (session.opened source).scope (session.opened source).machine =
        .error (.tooDeep span) last →
      (∀ depth ≤ evaluationLimit, ∃ span last, evalWithin depth (.block program) (session.opened source).scope
        (session.opened source).machine = .error (.tooDeep span) last) →
      Cause session source "EvaluationFault" (.fault (.tooDeep span))

theorem Cause.heading {word : String} {error : ScriptError} (h : session.Cause source word error) :
    error.heading = word := by
  cases h <;> rfl

end Session

end MonkeyLang
