import Mathlib
import MonkeyLang.Proofs.Session.Reachable

namespace MonkeyLang

namespace Store

variable {store : Store}

def parent? (store : Store) (i : FrameId) : Option FrameId :=
  store.frames[i]?.bind (·.parent)

theorem wellFounded_parent (h : ∀ (i : FrameId) (frame : Frame), store.frames[i]? = some frame →
    ∀ parent, frame.parent = some parent → parent < i) :
    WellFounded fun parent i => store.parent? i = some parent := by
  refine Subrelation.wf (fun {parent i} hparent => ?_) Nat.lt_wfRel.wf
  obtain ⟨frame, hframe, hparent⟩ := Option.bind_eq_some_iff.mp hparent
  exact h i frame hframe parent hparent

theorem owner?_eq (h : ∀ (i : FrameId) (frame : Frame), store.frames[i]? = some frame →
    ∀ parent, frame.parent = some parent → parent < i) (i : FrameId) (name : String) :
    store.owner? i name = store.frames[i]?.bind fun frame =>
      if Table.contains frame.bindings name then some i
      else frame.parent.bind fun parent => store.owner? parent name := by
  rw [owner?]
  cases hframe : store.frames[i]? with
  | none => rfl
  | some frame =>
    obtain ⟨bindings, parent⟩ := frame
    cases parent with
    | none => rfl
    | some parent =>
      have hparent : parent < i := h i _ hframe parent rfl
      simp only [Option.bind_some, if_pos hparent]

end Store

/-- In a reachable machine an expression leaves every scope as it is, however its evaluation ends. A
statement changes only the scope it is evaluated in, and there only names that its own `let` statements
bind. Every scope is younger than the one around it, so the chain outward ends, and names are looked up
along all of it. -/
theorem scopes_of_reachable {m : Machine} (h : m.Reachable) :
    (∀ (depth : Nat) (e : Expr) (frame : FrameId),
      m.store.Extends (m.after (evalWithin depth (.expr e) frame)).store) ∧
    (∀ (depth : Nat) (s : Stmt) (frame : FrameId),
      m.store.Changes frame s.lets (m.after (evalWithin depth (.stmt s) frame)).store) ∧
    (∀ (i : FrameId) (frame : Frame), m.store.frames[i]? = some frame →
      ∀ parent, frame.parent = some parent → parent < i) ∧
    (WellFounded fun parent i => m.store.parent? i = some parent) ∧
    ∀ (i : FrameId) (name : String), m.store.owner? i name = m.store.frames[i]?.bind fun frame =>
      if Table.contains frame.bindings name then some i
      else frame.parent.bind fun parent => m.store.owner? parent name := by
  have hparents := h.sound.parents
  have hchanges : ∀ depth node frame,
      m.store.Changes frame node.lets (m.after (evalWithin depth node frame)).store := by
    intro depth node frame
    exact Machine.after_of_ends (fun last => m.store.Changes frame node.lets last.store)
      (keeps_evalWithin depth node frame m)
  refine ⟨fun depth e frame => ?_, fun depth s frame => hchanges depth (.stmt s) frame, hparents,
    Store.wellFounded_parent hparents, Store.owner?_eq hparents⟩
  exact (hchanges depth (.expr e) frame).extends

theorem scopes_call_literal :
    (Session.start true).machine.store.Extends ((Session.start true).machine.after (evalWithin 5
      (.expr (.call default (.function default [⟨default, "x"⟩] (.mk default
        [.bind default ⟨default, "y"⟩ (.name ⟨default, "x"⟩)])) [.integer default 1])) 0)).store ∧
    ((Session.start true).machine.after (evalWithin 5
      (.expr (.call default (.function default [⟨default, "x"⟩] (.mk default
        [.bind default ⟨default, "y"⟩ (.name ⟨default, "x"⟩)])) [.integer default 1])) 0)).size = 2 := by
  refine ⟨(scopes_of_reachable (.session (.start true))).1 _ _ _, ?_⟩
  cbv

structure Machine.Clean (m : Machine) : Prop where
  bindings : ∀ frame ∈ m.store.frames, ∀ binding ∈ frame.bindings, binding.2.Clean
  arguments : ∀ call ∈ m.calls, ∀ argument ∈ call.arguments, argument.Clean

theorem Machine.Sound.clean {m : Machine} (h : m.Sound) : m.Clean where
  bindings frame hframe binding mem := by
    obtain ⟨i, hi⟩ := Array.mem_iff_getElem?.mp hframe
    exact (h.bindings i frame hi binding mem).clean
  arguments call hcall argument mem := (h.calls call hcall argument mem).clean

/-- In a reachable machine errors and wrapped return values are not kept, an expression gives no wrapped
return value and passes none as an argument, no wrapped value is wrapped again, a program gives no
wrapped value, and none is ever about to be bound. -/
theorem clean_of_reachable {m : Machine} (h : m.Reachable) :
    m.Clean ∧
    (∀ depth e frame value last, frame < m.size → evalWithin depth (.expr e) frame m = .ok value last →
      (∀ inner, value ≠ .returned inner) ∧ ((∃ message, value = .error message) ∨ value.Clean)) ∧
    (∀ depth es frame values last, frame < m.size →
      Eval.arguments (evalWithin depth) frame es m = .ok (.ok values) last →
      ∀ value ∈ values, value.Clean) ∧
    (∀ depth node frame inner last, frame < m.size →
      evalWithin depth node frame m = .ok (.returned inner) last → ∀ wrapped, inner ≠ .returned wrapped) ∧
    (∀ program frame value last, frame < m.size → evaluate program frame m = .ok value last →
      ∀ inner, value ≠ .returned inner) ∧
    (∀ program frame fault last, frame < m.size → evaluate program frame m = .error fault last →
      ∀ name, fault ≠ .boundReturn name) ∧
    ∀ depth node frame fault last, frame < m.size → evalWithin depth node frame m = .error fault last →
      ∀ name, fault ≠ .boundReturn name := by
  have hm := h.sound
  refine ⟨hm.clean, ?_, ?_, ?_, ?_, ?_, ?_⟩
  · intro depth e frame value last hframe hvalue
    have hresult := (hm.value (upholds_evalWithin depth (.expr e) frame _ hframe) hvalue).2.2
    exact ⟨hresult.ne_returned, hresult.imp id Value.Storable.clean⟩
  · intro depth es frame values last hframe hvalues value mem
    have harguments := (hm.value (Eval.upholds_arguments (upholds_evalWithin depth) hframe es) hvalues).2.2
    exact (harguments value mem).clean
  · intro depth node frame inner last hframe hinner
    have hgives := (hm.value (upholds_evalWithin depth node frame _ hframe) hinner).2.2
    have houtcome : Value.Outcome last.size (.returned inner) := by
      cases node with
      | block | stmt => exact hgives
      | expr => exact .inl hgives
    exact houtcome.unwrap.ne_returned
  · intro program frame value last hframe hvalue
    exact ((hm.value (upholds_evaluate program hframe) hvalue).2.2).ne_returned
  · intro program frame fault last hframe hfault
    exact hm.fault (upholds_evaluate program hframe) hfault
  · intro depth node frame fault last hframe hfault
    exact hm.fault (upholds_evalWithin depth node frame _ hframe) hfault

theorem clean_bound_array :
    evalWithin 1 (.expr (.name ⟨default, "a"⟩)) 0 ((Session.start true).machine.after
      (evalWithin 3 (.stmt (.bind default ⟨default, "a"⟩ (.array default [.integer default 1]))) 0)) =
      .ok (.array [.integer 1]) ((Session.start true).machine.after
        (evalWithin 3 (.stmt (.bind default ⟨default, "a"⟩ (.array default [.integer default 1]))) 0)) ∧
    (Value.array [.integer 1]).Clean := by
  have hreachable : ((Session.start true).machine.after (evalWithin 3
      (.stmt (.bind default ⟨default, "a"⟩ (.array default [.integer default 1]))) 0)).Reachable :=
    .evaluated 3 _ (.session (.start true)) (by cbv)
  have hvalue : evalWithin 1 (.expr (.name ⟨default, "a"⟩)) 0 ((Session.start true).machine.after
      (evalWithin 3 (.stmt (.bind default ⟨default, "a"⟩ (.array default [.integer default 1]))) 0)) =
      .ok (.array [.integer 1]) ((Session.start true).machine.after
        (evalWithin 3 (.stmt (.bind default ⟨default, "a"⟩ (.array default [.integer default 1]))) 0)) := by
    cbv
  have hclean := ((clean_of_reachable hreachable).2.1 _ _ _ _ _ (by cbv) hvalue).2
  exact ⟨hvalue, hclean.resolve_left (by simp)⟩

end MonkeyLang
