import MonkeyLang.Eval.Basic

namespace MonkeyLang

variable {α β : Type} {m : Machine}

def Ends (x : EvalM α) (m : Machine) (ok : α → Machine → Prop) (fail : Fault → Machine → Prop) : Prop :=
  match x m with
  | .ok a after => ok a after
  | .error fault after => fail fault after

variable {ok ok' : α → Machine → Prop} {fail fail' : Fault → Machine → Prop}

theorem Ends.mono {x : EvalM α} (h : Ends x m ok fail) (hok : ∀ a after, ok a after → ok' a after)
    (hfail : ∀ fault after, fail fault after → fail' fault after) : Ends x m ok' fail' := by
  unfold Ends at h ⊢
  cases hx : x m with
  | ok a after =>
    rw [hx] at h
    exact hok a after h
  | error fault after =>
    rw [hx] at h
    exact hfail fault after h

theorem Ends.of_ok {x : EvalM α} (h : Ends x m ok fail) {a : α} {last : Machine} (hx : x m = .ok a last) :
    ok a last := by
  unfold Ends at h
  rwa [hx] at h

theorem Ends.of_error {x : EvalM α} (h : Ends x m ok fail) {fault : Fault} {last : Machine}
    (hx : x m = .error fault last) : fail fault last := by
  unfold Ends at h
  rwa [hx] at h

theorem ends_bind {x : EvalM α} {f : α → EvalM β} {ok : β → Machine → Prop} :
    Ends (x >>= f) m ok fail ↔ Ends x m (fun a after => Ends (f a) after ok fail) fail := by
  have hbind : (x >>= f) m = EStateM.bind x f m := rfl
  unfold Ends
  rw [hbind, EStateM.bind]
  cases x m <;> rfl

theorem bind_of_ok {x : EvalM α} {f : α → EvalM β} {last : Machine} {a : α} (h : x m = .ok a last) :
    (x >>= f) m = f a last := by
  show EStateM.bind x f m = f a last
  rw [EStateM.bind, h]

theorem bind_of_error {x : EvalM α} {f : α → EvalM β} {last : Machine} {fault : Fault}
    (h : x m = .error fault last) : (x >>= f) m = .error fault last := by
  show EStateM.bind x f m = .error fault last
  rw [EStateM.bind, h]

namespace Machine

def after (m : Machine) (x : EvalM α) : Machine :=
  match x m with
  | .ok _ last => last
  | .error _ last => last

theorem after_of_ends {x : EvalM α} (left : Machine → Prop)
    (h : Ends x m (fun _ => left) fun _ => left) : left (m.after x) := by
  unfold Ends at h
  unfold after
  cases hx : x m <;> simpa only [hx] using h

@[simp] theorem ends_child {parent : Option FrameId} {ok : FrameId → Machine → Prop} :
    Ends (child parent) m ok fail ↔
      ok m.store.frames.size { m with store := (m.store.child parent).2 } := Iff.rfl

theorem ends_bind_value {frame : FrameId} {name : String} {value : Value}
    {ok : Value → Machine → Prop} :
    Ends (bind frame name value) m ok fail ↔
      match value with
      | .returned _ => fail (.boundReturn name) m
      | value => ok value { m with store := m.store.bind frame name value } := by
  cases value <;> exact Iff.rfl

theorem ends_during {call : Call} {body : EvalM Value} {ok : Value → Machine → Prop} :
    Ends (during call body) m ok fail ↔
      Ends body { m with calls := call :: m.calls }
        (fun value after => ok value { after with calls := after.calls.tail })
        (fun fault after => fail fault { after with calls := after.calls.tail }) := by
  unfold Ends during
  cases body { m with calls := call :: m.calls } <;> exact Iff.rfl

end Machine

end MonkeyLang
