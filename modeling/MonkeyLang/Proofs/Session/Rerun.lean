import Mathlib
import MonkeyLang.Proofs.Eval.Frames
import MonkeyLang.Proofs.Eval.Parallel
import MonkeyLang.Proofs.Eval.Steps
import MonkeyLang.Proofs.Session.Reachable
import MonkeyLang.Proofs.Value.Same

namespace MonkeyLang
open Value

namespace Machine

def Holds (m : Machine) (closure : Closure) : Prop :=
  (∃ (i : FrameId) (frame : Frame), m.store.frames[i]? = some frame ∧
    ∃ binding ∈ frame.bindings, Occurs (.function closure) binding.2) ∨
  ∃ call ∈ m.calls, ∃ argument ∈ call.arguments, Occurs (.function closure) argument

variable {m : Machine}

theorem Sound.holds (hm : m.Sound) {closure : Closure} (h : m.Holds closure) : closure.scope < m.size := by
  rcases h with ⟨i, frame, hframe, binding, mem, occurs⟩ | ⟨call, hcall, argument, mem, occurs⟩
  · exact (hm.bindings i frame hframe binding mem).live closure occurs
  · exact (hm.calls call hcall argument mem).live closure occurs

end Machine

namespace Matching

variable {m : Machine}

/-- What was there before the first evaluation stays as it is, and what was made in it has a number that is
higher in the second by as many as were made. -/
def rerun (hm : m.Sound) (last : Machine) : Matching where
  spans := True
  frames := m.size
  frameShift := last.size - m.size
  closures := m.closures
  closureShift := last.closures - m.closures
  kept := m.Holds
  kept_scope _ := hm.holds

theorem rerun_frame (hm : m.Sound) (last : Machine) {i : Nat} (hi : i < m.size) :
    (rerun hm last).frame i = i :=
  if_pos hi

theorem rerun_values (hm : m.Sound) (last : Machine) {value : Value}
    (h : ∀ closure, Occurs (.function closure) value → m.Holds closure) :
    (rerun hm last).Values value value :=
  alike_self value fun closure occurs => .inl ⟨h closure occurs, rfl⟩

theorem rerun_bindings (hm : m.Sound) (last : Machine) {bindings : List (String × Value)}
    (h : ∀ binding ∈ bindings, ∀ closure, Occurs (.function closure) binding.2 → m.Holds closure) :
    Table.EntriesLike (rerun hm last).Values bindings bindings :=
  List.forall₂_same.mpr fun binding mem => .mk binding.1 (rerun_values hm last (h binding mem))

theorem rerun_machines (hm : m.Sound) {last : Machine} (hframes : m.store.Extends last.store)
    (hsize : m.size ≤ last.size) (hcalls : last.calls = m.calls) (hclosures : m.closures ≤ last.closures) :
    (rerun hm last).Machines m last where
  size_le := Nat.le_refl m.size
  size := (Nat.add_sub_of_le hsize).symm
  frames i := by
    by_cases hi : i < m.size
    · rw [rerun_frame hm last hi]
      cases hframe : m.store.frames[i]? with
      | none => exact absurd (Array.getElem?_eq_none_iff.mp hframe) (Nat.not_le.mpr hi)
      | some frame =>
        rw [hframes i frame hframe]
        refine .some ⟨?_, rerun_bindings hm last fun binding mem closure occurs =>
          .inl ⟨i, frame, hframe, binding, mem, occurs⟩⟩
        cases hparent : frame.parent with
        | none => rfl
        | some parent =>
          have hlt := Nat.lt_trans (hm.parents i frame hframe parent hparent) hi
          rw [Option.map_some, rerun_frame hm last hlt]
    · have hframe : (rerun hm last).frame i = i + (last.size - m.size) := if_neg hi
      have hnone : last.store.frames[(rerun hm last).frame i]? = none := by
        rw [hframe]
        refine Array.getElem?_eq_none_iff.mpr ?_
        show last.size ≤ _
        omega
      rw [hnone, Array.getElem?_eq_none_iff.mpr (Nat.not_lt.mp hi)]
      exact .none
  calls := by
    rw [hcalls]
    refine List.forall₂_same.mpr fun call hcall => ⟨rfl, List.forall₂_same.mpr fun argument mem => ?_⟩
    exact rerun_values hm last fun closure occurs => .inr ⟨call, hcall, argument, mem, occurs⟩
  closures_le := Nat.le_refl m.closures
  closures := (Nat.add_sub_of_le hclosures).symm

theorem rerun_results (hm : m.Sound) (depth : Nat) (e : Expr) {frame : FrameId} (hframe : frame < m.size)
    {last : Machine} (hlast : m.after (evalWithin depth (.expr e) frame) = last) :
    (rerun hm last).Results (rerun hm last).Values (evalWithin depth (.expr e) frame m)
      (evalWithin depth (.expr e) frame last) := by
  have hmachines : (rerun hm last).Machines m last := by
    subst hlast
    refine rerun_machines hm ?_ ?_ ?_ ?_
    · exact (Machine.after_of_ends (fun last => m.store.Changes frame [] last.store)
        (keeps_evalWithin depth (.expr e) frame m)).extends
    · exact (hm.after (upholds_evalWithin depth (.expr e) frame _ hframe)).2
    · exact m.calls_after depth (.expr e) frame
    · exact m.closures_after depth (.expr e) frame
  have hresults := (rerun hm last).follows_evalWithin depth (.expr (.refl e)) frame m last hmachines
  rwa [rerun_frame hm last hframe] at hresults

end Matching

/-- An expression that gave a value in a reachable machine gives it again in the machine it has left, up
to the numbers of the frames and functions that were made: the renderings are the same, and the value is
equal to the first one if there is no function in it. An expression that ended in a fault ends in a fault
with the same message and place and the same calls. -/
theorem rerun_of_reachable {m : Machine} (h : m.Reachable) {frame : FrameId} (hframe : frame < m.size)
    (depth : Nat) (e : Expr) :
    (∀ value last, evalWithin depth (.expr e) frame m = .ok value last →
      ∃ value' last', evalWithin depth (.expr e) frame last = .ok value' last' ∧
        (Matching.rerun h.sound last).Values value value' ∧
        (Matching.rerun h.sound last).Machines last last' ∧
        value'.debug = value.debug ∧ value'.display = value.display ∧
        ((∀ closure, ¬ Occurs (.function closure) value) → value' = value ∧ value'.same value = true)) ∧
    ∀ fault last, evalWithin depth (.expr e) frame m = .error fault last →
      ∃ fault' last', evalWithin depth (.expr e) frame last = .error fault' last' ∧
        (Matching.rerun h.sound last).Faults fault fault' ∧
        (Matching.rerun h.sound last).Machines last last' ∧
        fault'.message = fault.message ∧ fault'.span? = fault.span? ∧
        stackTrace fault'.calls = stackTrace fault.calls := by
  constructor
  · intro value last hx
    have hlast : m.after (evalWithin depth (.expr e) frame) = last := by rw [Machine.after, hx]
    have hresults := Matching.rerun_results h.sound depth e hframe hlast
    rw [hx] at hresults
    generalize evalWithin depth (.expr e) frame last = result at hresults ⊢
    cases hresults with
    | @ok _ value' _ last' hvalue hlast =>
      refine ⟨value', last', rfl, hvalue, hlast, hvalue.debug.symm, hvalue.display.symm, fun hfree => ?_⟩
      obtain rfl := hvalue.eq_of_functionless hfree
      have hresult := (h.sound.value (upholds_evalWithin depth (.expr e) frame _ hframe) hx).2.2
      exact ⟨rfl, same_self value hresult.keyed⟩
  · intro fault last hx
    have hlast : m.after (evalWithin depth (.expr e) frame) = last := by rw [Machine.after, hx]
    have hresults := Matching.rerun_results h.sound depth e hframe hlast
    rw [hx] at hresults
    generalize evalWithin depth (.expr e) frame last = result at hresults ⊢
    cases hresults with
    | @error _ fault' _ last' hfault hlast =>
      exact ⟨fault', last', rfl, hfault, hlast, hfault.message.symm, (hfault.span? trivial).symm,
        (Matching.Calls.stackTrace hfault.calls).symm⟩

theorem rerun_call_literal :
    let literal : Expr := .function default [⟨default, "x"⟩] (.mk default [.expr default
      (.function default [] (.mk default [.expr default (.name ⟨default, "x"⟩)]))])
    let program : Expr := .call default literal [.integer default 1]
    let body : Block := .mk default [.expr default (.name ⟨default, "x"⟩)]
    let last := (Session.start true).machine.after (evalWithin 5 (.expr program) 0)
    evalWithin 5 (.expr program) 0 (Session.start true).machine = .ok (.function ⟨1, [], body, 1⟩) last ∧
    ∃ value' last', evalWithin 5 (.expr program) 0 last = .ok value' last' ∧
      value'.display = Value.display (.function ⟨1, [], body, 1⟩) := by
  intro literal program body last
  have hvalue : evalWithin 5 (.expr program) 0 (Session.start true).machine =
      .ok (.function ⟨1, [], body, 1⟩) last := by
    cbv
  obtain ⟨value', last', hvalue', -, -, -, hdisplay, -⟩ :=
    (rerun_of_reachable (.session (.start true)) (by cbv) 5 program).1 _ _ hvalue
  exact ⟨hvalue, value', last', hvalue', hdisplay⟩

end MonkeyLang
