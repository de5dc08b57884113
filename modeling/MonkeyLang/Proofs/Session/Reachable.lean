import MonkeyLang.Proofs.Eval.Frames
import MonkeyLang.Proofs.Eval.Sound
import MonkeyLang.Session.Basic

namespace MonkeyLang

namespace Machine

variable {m : Machine} {α : Type} {x : EvalM α} {ok : Nat → α → Prop}

theorem Sound.after (hm : m.Sound) (h : Upholds m.size x ok) :
    (m.after x).Sound ∧ m.size ≤ (m.after x).size := by
  refine after_of_ends (fun last => last.Sound ∧ m.size ≤ last.size) ((h m hm (Nat.le_refl _)).mono ?_ ?_)
  · exact fun _ _ ⟨hlast, hle, _⟩ => ⟨hlast, hle⟩
  · exact fun _ _ ⟨hlast, hle, _⟩ => ⟨hlast, hle⟩

theorem Sound.value (hm : m.Sound) (h : Upholds m.size x ok) {a : α} {last : Machine}
    (hx : x m = .ok a last) : last.Sound ∧ m.size ≤ last.size ∧ ok last.size a :=
  (h m hm (Nat.le_refl _)).of_ok hx

theorem Sound.fault (hm : m.Sound) (h : Upholds m.size x ok) {fault : Fault} {last : Machine}
    (hx : x m = .error fault last) (name : String) : fault ≠ .boundReturn name :=
  ((h m hm (Nat.le_refl _)).of_error hx).2.2 name

theorem sound_empty : empty.Sound := by
  constructor <;> simp [empty, Store.empty]

theorem Sound.bindAll (hm : m.Sound) (frame : FrameId) {bindings : List (String × Value)}
    (h : ∀ binding ∈ bindings, binding.2.Storable m.size) :
    Sound { m with store := m.store.bindAll frame bindings } ∧
      size { m with store := m.store.bindAll frame bindings } = m.size := by
  induction bindings generalizing m with
  | nil => exact ⟨hm, rfl⟩
  | cons binding bindings ih =>
    obtain ⟨name, value⟩ := binding
    obtain ⟨hvalue, hrest⟩ := List.forall_mem_cons.mp h
    have hsize := size_bind m frame name value
    obtain ⟨hsound, hsize'⟩ := ih (hm.bind frame name hvalue) fun binding mem => by
      rw [hsize]
      exact hrest binding mem
    exact ⟨hsound, hsize'.trans hsize⟩

theorem upholds_install {size : Nat} : Upholds size install fun more frame => frame < more := by
  refine .bind (upholds_child (by simp)) fun frame more hle hframe m hm hsize => ?_
  have hbuiltins : ∀ binding ∈ builtins frame, binding.2.Storable m.size := by
    intro binding mem
    obtain ⟨op, -, rfl⟩ := List.mem_map.mp mem
    exact Value.storable_builtin op frame
  obtain ⟨hsound, hsame⟩ := hm.bindAll frame hbuiltins
  refine ⟨hsound, Nat.le_of_eq hsame.symm, ?_⟩
  exact Nat.lt_of_lt_of_le hframe (Nat.le_trans hsize (Nat.le_of_eq hsame.symm))

end Machine

namespace Session

structure Sound (session : Session) : Prop where
  machine : session.machine.Sound
  scope : session.scope < session.machine.size

def opened (session : Session) (source : String) : Session :=
  (if session.persistent then session else session.reset).clearTrace.record (.script source.length)

/-- The host may run scripts, and call values with arguments of its own. Neither these arguments nor the
called value may contain a function that was made in a frame the session does not have. -/
inductive Reachable : Session → Prop where
  | start (persistent : Bool) : Reachable (start persistent)
  | run {session : Session} (source : String) : Reachable session → Reachable (session.run source).2
  | call {session : Session} {callee : Value} {arguments : List Value} : Reachable session →
      callee.Live session.machine.size →
      (∀ argument ∈ arguments, argument.Storable session.machine.size) →
      Reachable (session.call callee arguments).2

variable {session : Session}

theorem Sound.reset (h : session.machine.Sound) : session.reset.Sound := by
  unfold Session.reset
  cases hx : Machine.install session.machine with
  | ok frame last =>
    obtain ⟨hlast, -, hframe⟩ := h.value Machine.upholds_install hx
    exact ⟨hlast, hframe⟩
  | error fault last => cases hx

theorem sound_start (persistent : Bool) : (start persistent).Sound :=
  Sound.reset Machine.sound_empty

theorem Sound.record (h : session.Sound) (event : TraceEvent) : (session.record event).Sound :=
  ⟨⟨h.machine.parents, h.machine.bindings, h.machine.calls⟩, h.scope⟩

theorem Sound.clearTrace (h : session.Sound) : session.clearTrace.Sound :=
  ⟨⟨h.machine.parents, h.machine.bindings, h.machine.calls⟩, h.scope⟩

theorem Sound.opened (h : session.Sound) (source : String) : (session.opened source).Sound := by
  unfold Session.opened
  split
  · exact h.clearTrace.record _
  · exact (Sound.reset h.machine).clearTrace.record _

theorem Sound.of_after (h : session.Sound) {α : Type} {x : EvalM α} {ok : Nat → α → Prop}
    (hx : Upholds session.machine.size x ok) : Sound { session with machine := session.machine.after x } := by
  obtain ⟨hlast, hle⟩ := h.machine.after hx
  exact ⟨hlast, Nat.lt_of_lt_of_le h.scope hle⟩

theorem outcome_snd {α : Type} (x : EvalM α) (m : Machine) : (outcome (x m)).2 = m.after x := by
  unfold Machine.after
  cases x m <;> rfl

theorem Sound.runProgram (h : session.Sound) (program : Block) : (session.runProgram program).2.Sound := by
  have hlast := h.of_after (upholds_evaluate program h.scope)
  rw [← outcome_snd] at hlast
  unfold Session.runProgram
  split
  next heq =>
    rw [heq] at hlast
    exact hlast
  next heq =>
    rw [heq] at hlast
    exact hlast.record _

theorem Sound.run (h : session.Sound) (source : String) : (session.run source).2.Sound := by
  have hopened := h.opened source
  simp only [Session.run]
  split
  · exact hopened.runProgram _
  · dsimp only
    split
    · exact hopened.record _
    · exact hopened

theorem Sound.call (h : session.Sound) {callee : Value} (hcallee : callee.Live session.machine.size)
    {arguments : List Value} (harguments : ∀ argument ∈ arguments, argument.Storable session.machine.size) :
    (session.call callee arguments).2.Sound := by
  have hlast := h.of_after (upholds_callValue hcallee harguments)
  rw [← outcome_snd] at hlast
  exact hlast

theorem Reachable.sound (h : session.Reachable) : session.Sound := by
  induction h with
  | start persistent => exact sound_start persistent
  | run source _ ih => exact ih.run source
  | call _ hcallee harguments ih => exact ih.call hcallee harguments

end Session

namespace Machine

def entered (m : Machine) (closure : Closure) (arguments : List Value) : Machine :=
  let m := m.after (Eval.prepare closure arguments)
  { m with calls := ⟨"<fn>", arguments⟩ :: m.calls }

/-- The machines that sessions hold and those in which the evaluation of nodes begins and ends. -/
inductive Reachable : Machine → Prop where
  | session {session : Session} : session.Reachable → Reachable session.machine
  | opened {session : Session} (source : String) : session.Reachable →
      Reachable (session.opened source).machine
  | evaluated {m : Machine} (depth : Nat) (node : Node) {frame : FrameId} : Reachable m →
      frame < m.size → Reachable (m.after (evalWithin depth node frame))
  | entered {m ready last : Machine} {depth : Nat} {frame : FrameId} {callee : Expr} {es : List Expr}
      {closure : Closure} {values : List Value} : Reachable m → frame < m.size →
      evalWithin depth (.expr callee) frame m = .ok (.function closure) ready →
      Eval.arguments (evalWithin depth) frame es ready = .ok (.ok values) last →
      Reachable (last.entered closure values)
  | called {session : Session} {closure : Closure} {values : List Value} : session.Reachable →
      closure.scope < session.machine.size →
      (∀ value ∈ values, value.Storable session.machine.size) →
      Reachable (session.machine.entered closure values)

variable {m : Machine}

theorem Sound.entered (hm : m.Sound) {closure : Closure} (hscope : closure.scope < m.size)
    {values : List Value} (hvalues : ∀ value ∈ values, value.Storable m.size) :
    (m.entered closure values).Sound := by
  obtain ⟨hlast, hle⟩ := hm.after (Eval.upholds_prepare hscope hvalues)
  exact hlast.enter fun value mem => (hvalues value mem).mono hle

theorem Reachable.sound (h : m.Reachable) : m.Sound := by
  induction h with
  | session h => exact h.sound.machine
  | opened source h => exact (h.sound.opened source).machine
  | evaluated depth node _ hframe ih =>
    exact (ih.after (upholds_evalWithin depth node _ _ hframe)).1
  | entered _ hframe hcallee hvalues ih =>
    obtain ⟨hready, hle, hclosure⟩ := ih.value (upholds_evalWithin _ _ _ _ hframe) hcallee
    have hframe' := Nat.lt_of_lt_of_le hframe hle
    obtain ⟨hlast, hle', harguments⟩ :=
      hready.value (Eval.upholds_arguments (upholds_evalWithin _) hframe' _) hvalues
    have hlive := (hclosure.storable (by simp)).live _ .whole
    exact hlast.entered (Nat.lt_of_lt_of_le hlive hle') harguments
  | called h hscope hvalues => exact h.sound.machine.entered hscope hvalues

end Machine

end MonkeyLang
