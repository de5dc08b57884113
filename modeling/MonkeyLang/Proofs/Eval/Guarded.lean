import MonkeyLang.Proofs.Eval.Host

namespace MonkeyLang

structure Value.Proper (part : Value) : Prop where
  unwrapped : ∀ inner, part ≠ .returned inner
  body : ∀ closure, part = .function closure → (Node.block closure.body).WellFormed

namespace Value

variable {value : Value}

theorem Every.ne_returned (h : value.Every Proper) (inner : Value) : value ≠ .returned inner :=
  h.whole.unwrapped inner

theorem Every.unwrap (h : value.Every Proper) : value.unwrap.Every Proper := by
  cases value with
  | returned inner => exact absurd rfl (h.ne_returned inner)
  | _ => exact h

end Value

def Fault.Due : Fault → Prop
  | .notCallable callee _ _ => callee.isCallable = false
  | .tooDeep _ => True
  | .boundReturn _ => False

variable {α β : Type} {ok : α → Prop} {ok' : β → Prop}

/-- On proper machines the second computation ends as the first does. The machine is proper again, a value
is as the condition says, and a fault is due. -/
def Mirrors (ok : α → Prop) (x : EvalM α) (y : HostM α) : Prop :=
  ∀ m : Machine, m.Every Value.Proper →
    Ends x m (fun a last => last.Every Value.Proper ∧ ok a ∧ y m = .ok a last)
      fun fault last => last.Every Value.Proper ∧ fault.Due ∧ y m = .error (.fault fault) last

namespace Mirrors

theorem pure {a : α} (h : ok a) : Mirrors ok (Pure.pure a) (Pure.pure a) :=
  fun _ hm => ⟨hm, h, rfl⟩

theorem bind {x : EvalM α} {y : HostM α} {f : α → EvalM β} {g : α → HostM β} (h : Mirrors ok x y)
    (hf : ∀ a, ok a → Mirrors ok' (f a) (g a)) : Mirrors ok' (x >>= f) (y >>= g) := by
  intro m hm
  have hbind : ∀ g : α → HostM β, (y >>= g) m = EStateM.bind y g m := fun _ => rfl
  rw [ends_bind, Ends]
  cases hx : x m with
  | ok a last =>
    obtain ⟨hlast, ha, hy⟩ := (h m hm).of_ok hx
    simp only [hbind, EStateM.bind, hy]
    exact hf a ha last hlast
  | error fault last =>
    obtain ⟨hlast, hdue, hy⟩ := (h m hm).of_error hx
    refine ⟨hlast, hdue, ?_⟩
    rw [hbind, EStateM.bind, hy]

theorem lift {x : EvalM α} (h : ∀ m : Machine, m.Every Value.Proper →
    Ends x m (fun a last => last.Every Value.Proper ∧ ok a)
      fun fault last => last.Every Value.Proper ∧ fault.Due) : Mirrors ok x (Host.lift x) := by
  intro m hm
  have hx := h m hm
  unfold Ends at hx ⊢
  rw [Host.lift]
  cases hend : x m with
  | ok a last =>
    rw [hend] at hx
    exact ⟨hx.1, hx.2, rfl⟩
  | error fault last =>
    rw [hend] at hx
    exact ⟨hx.1, hx.2, rfl⟩

theorem attempt {a : α} {result : Except HostError α} (hresult : result = .ok a) (h : ok a) :
    Mirrors ok (Pure.pure a) (Host.attempt result) := by
  rw [hresult]
  exact .pure h

theorem unlessError {ok : Value → Prop} {x : EvalM Value} {y : HostM Value} {next : Value → EvalM Value}
    {next' : Value → HostM Value} (h : Mirrors (Value.Every Value.Proper) x y)
    (herror : ∀ message, ok (.error message))
    (hnext : ∀ value, value.Every Value.Proper → Mirrors ok (next value) (next' value)) :
    Mirrors ok (Eval.unlessError x next) (Host.unlessError y next') := by
  refine .bind h fun value hvalue => ?_
  cases value
  case error message => exact .pure (herror message)
  all_goals exact hnext _ hvalue

theorem unwrap {x : EvalM Value} {y : HostM Value} (h : Mirrors (Value.Every Value.Proper) x y) :
    Mirrors (fun value => value.unwrap.Every Value.Proper) x y :=
  fun m hm => (h m hm).mono (fun _ _ ⟨hlast, hvalue, hy⟩ => ⟨hlast, hvalue.unwrap, hy⟩) fun _ _ hfault => hfault

theorem during {ok : Value → Prop} {x : EvalM Value} {y : HostM Value} (h : Mirrors ok x y) (call : Call) :
    Mirrors ok (Machine.during call x) (Host.during call y) := by
  intro m hm
  have hentered : Machine.Every Value.Proper { m with calls := call :: m.calls } := hm
  rw [Machine.ends_during]
  refine (h _ hentered).mono ?_ ?_
  · rintro value last ⟨hlast, hvalue, hy⟩
    refine ⟨hlast, hvalue, ?_⟩
    rw [Host.during, hy]
  · rintro fault last ⟨hlast, hdue, hy⟩
    refine ⟨hlast, hdue, ?_⟩
    rw [Host.during, hy]

end Mirrors

def Node.Yields : Node → Value → Prop
  | .block _, value | .stmt _, value => value.unwrap.Every Value.Proper
  | .expr _, value => value.Every Value.Proper

namespace Host
open Value

section Rules

variable {recurse : Node → FrameId → EvalM Value} {host : Node → FrameId → HostM Value} {frame : FrameId}
  (hrec : ∀ (node : Node) frame, node.WellFormed → Mirrors node.Yields (recurse node frame) (host node frame))
include hrec

def Arguments (values : Except String (List Value)) : Prop :=
  ∀ list, values = .ok list → ∀ value ∈ list, value.Every Proper

end Rules

end Host

end MonkeyLang
