import MonkeyLang.Proofs.Session.Invariants

namespace MonkeyLang

theorem Table.contains_iff {α β : Type} [DecidableEq α] {entries : List (α × β)} {key : α} :
    Table.contains entries key = true ↔ key ∈ entries.map (·.1) := by
  simp [Table.contains]

namespace Store

variable {store : Store} {frame f g p : FrameId} {name other : String} {value : Value}

def names (store : Store) (frame : FrameId) : List String :=
  (store.bindings frame).map (·.1)

/-- The frame is on the chain from another one outward, and no frame in front of it binds the name. -/
inductive Sees (store : Store) (name : String) (frame : FrameId) : FrameId → Prop where
  | here : frame < store.frames.size → Sees store name frame frame
  | outward {f parent : FrameId} : store.parent? f = some parent → name ∉ store.names f →
      Sees store name frame parent → Sees store name frame f

def Ordered (store : Store) : Prop :=
  ∀ (i : FrameId) (frame : Frame), store.frames[i]? = some frame →
    ∀ parent, frame.parent = some parent → parent < i

theorem names_of_some {inner : Frame} (h : store.frames[f]? = some inner) :
    store.names f = inner.bindings.map (·.1) := by
  simp only [names, bindings, h]

theorem parent?_of_some {inner : Frame} (h : store.frames[f]? = some inner) :
    store.parent? f = inner.parent := by
  simp only [parent?, h, Option.bind_some]

theorem owner?_of_mem (horder : store.Ordered) (h : name ∈ store.names f) :
    store.owner? f name = some f := by
  rw [owner?_eq horder]
  cases hframe : store.frames[f]? with
  | none => simp [names, bindings, hframe] at h
  | some inner =>
    rw [names_of_some hframe] at h
    exact if_pos (Table.contains_iff.mpr h)

theorem owner?_of_notMem (horder : store.Ordered) (h : name ∉ store.names f) :
    store.owner? f name = (store.parent? f).bind fun parent => store.owner? parent name := by
  rw [owner?_eq horder, parent?]
  cases hframe : store.frames[f]? with
  | none => rfl
  | some inner =>
    rw [names_of_some hframe] at h
    exact if_neg fun hcontains => h (Table.contains_iff.mp hcontains)

theorem lt_of_parent? (horder : store.Ordered) (h : store.parent? f = some p) : p < f := by
  obtain ⟨inner, hinner, hparent⟩ := Option.bind_eq_some_iff.mp h
  exact horder f inner hinner p hparent

theorem lt_size_of_names (h : name ∈ store.names f) : f < store.frames.size := by
  cases hframe : store.frames[f]? with
  | none => simp [names, bindings, hframe] at h
  | some inner => exact lt_size_of_some hframe

theorem owner?_eq_some_iff (horder : store.Ordered) :
    store.owner? g name = some frame ↔ store.Sees name frame g ∧ name ∈ store.names frame := by
  constructor
  · intro h
    induction g using Nat.strongRecOn with
    | ind g ih =>
      by_cases hmem : name ∈ store.names g
      · rw [owner?_of_mem horder hmem] at h
        cases h
        exact ⟨.here (lt_size_of_names hmem), hmem⟩
      · rw [owner?_of_notMem horder hmem] at h
        obtain ⟨p, hparent, hp⟩ := Option.bind_eq_some_iff.mp h
        obtain ⟨hsees, hbinds⟩ := ih p (lt_of_parent? horder hparent) hp
        exact ⟨.outward hparent hmem hsees, hbinds⟩
  · rintro ⟨hsees, hmem⟩
    induction hsees with
    | here => exact owner?_of_mem horder hmem
    | outward hparent hnot _ ih => rw [owner?_of_notMem horder hnot, hparent, Option.bind_some, ih]

theorem getElem?_bind (store : Store) (frame f : FrameId) (name : String) (value : Value) :
    (store.bind frame name value).frames[f]? =
      if frame = f then store.frames[f]?.map fun inner =>
        { inner with bindings := Table.insert name value inner.bindings }
      else store.frames[f]? := by
  rw [bind, Array.getElem?_modify]

@[simp] theorem size_frames_bind (store : Store) (frame : FrameId) (name : String) (value : Value) :
    (store.bind frame name value).frames.size = store.frames.size := by
  simp [bind]

@[simp] theorem parent?_bind (store : Store) (frame f : FrameId) (name : String) (value : Value) :
    (store.bind frame name value).parent? f = store.parent? f := by
  rw [parent?, getElem?_bind, parent?]
  split
  · cases store.frames[f]? <;> rfl
  · rfl

theorem bindings_bind_self (h : frame < store.frames.size) (name : String) (value : Value) :
    (store.bind frame name value).bindings frame = Table.insert name value (store.bindings frame) := by
  simp only [bindings, getElem?_bind, if_pos, Array.getElem?_eq_getElem h, Option.map_some]

theorem bindings_bind_of_ne (h : f ≠ frame) (name : String) (value : Value) :
    (store.bind frame name value).bindings f = store.bindings f := by
  simp only [bindings, getElem?_bind, if_neg (Ne.symm h)]

theorem names_bind_self (h : frame < store.frames.size) (name : String) (value : Value) :
    (store.bind frame name value).names frame =
      if name ∈ store.names frame then store.names frame else store.names frame ++ [name] := by
  rw [names, bindings_bind_self h, Table.keys_insert]
  rfl

theorem mem_names_bind (h : frame < store.frames.size) (name : String) (value : Value) :
    other ∈ (store.bind frame name value).names f ↔ other ∈ store.names f ∨ f = frame ∧ other = name := by
  by_cases hf : f = frame
  · subst hf
    rw [names_bind_self h]
    by_cases hmem : name ∈ store.names f
    · rw [if_pos hmem]
      constructor
      · exact .inl
      · rintro (hother | ⟨-, rfl⟩)
        · exact hother
        · exact hmem
    · simp [if_neg hmem]
  · rw [names, bindings_bind_of_ne hf]
    simp [names, hf]

theorem Ordered.bind (horder : store.Ordered) (frame : FrameId) (name : String) (value : Value) :
    (store.bind frame name value).Ordered := by
  intro f inner hinner p hparent
  rw [← parent?_of_some hinner, parent?_bind] at hparent
  exact lt_of_parent? horder hparent

theorem Ordered.child (horder : store.Ordered) {parent : Option FrameId}
    (hparent : ∀ p, parent = some p → p < store.frames.size) : (store.child parent).2.Ordered := by
  intro f inner hinner p hp
  rw [Store.child, Array.getElem?_push] at hinner
  split at hinner
  next hnew =>
    cases hinner
    rw [hnew]
    exact hparent p hp
  next => exact horder f inner hinner p hp

section Seen

variable (hframe : frame < store.frames.size)
include hframe

theorem Sees.of_bind {target : FrameId} (h : (store.bind frame name value).Sees other target g) :
    store.Sees other target g := by
  induction h with
  | here htarget => exact .here (by simpa using htarget)
  | outward hparent hnot _ ih =>
    rw [parent?_bind] at hparent
    exact .outward hparent (fun hmem => hnot ((mem_names_bind hframe ..).mpr (.inl hmem))) ih

theorem Sees.bind {target : FrameId} (h : store.Sees other target g)
    (hunseen : ¬ (other = name ∧ store.Sees name frame g)) :
    (store.bind frame name value).Sees other target g := by
  induction h with
  | here htarget => exact .here (by simpa using htarget)
  | @outward f p hparent hnot _ ih =>
    apply Sees.outward
    · rw [parent?_bind]
      exact hparent
    · rw [mem_names_bind hframe]
      rintro (hmem | ⟨rfl, rfl⟩)
      · exact hnot hmem
      · exact hunseen ⟨rfl, .here hframe⟩
    · apply ih
      rintro ⟨rfl, hsees⟩
      exact hunseen ⟨rfl, .outward hparent hnot hsees⟩

theorem Sees.bind_self (h : store.Sees name frame g) : (store.bind frame name value).Sees name frame g := by
  induction h with
  | here htarget => exact .here (by simpa using htarget)
  | @outward f p hparent hnot _ ih =>
    by_cases hf : f = frame
    · rw [hf]
      exact .here (by simpa using hframe)
    · apply Sees.outward
      · rw [parent?_bind]
        exact hparent
      · rw [mem_names_bind hframe]
        rintro (hmem | ⟨rfl, -⟩)
        · exact hnot hmem
        · exact hf rfl
      · exact ih

theorem owner?_bind_of_sees (horder : store.Ordered) (h : store.Sees name frame g) :
    (store.bind frame name value).owner? g name = some frame :=
  (owner?_eq_some_iff (horder.bind frame name value)).mpr
    ⟨h.bind_self hframe, (mem_names_bind hframe ..).mpr (.inr ⟨rfl, rfl⟩)⟩

theorem owner?_bind_of_unseen (horder : store.Ordered) (h : ¬ (other = name ∧ store.Sees name frame g)) :
    (store.bind frame name value).owner? g other = store.owner? g other := by
  apply Option.ext
  intro target
  rw [owner?_eq_some_iff (horder.bind frame name value), owner?_eq_some_iff horder, mem_names_bind hframe]
  constructor
  · rintro ⟨hsees, hmem | ⟨rfl, rfl⟩⟩
    · exact ⟨hsees.of_bind hframe, hmem⟩
    · exact absurd ⟨rfl, hsees.of_bind hframe⟩ h
  · rintro ⟨hsees, hmem⟩
    exact ⟨hsees.bind hframe h, .inl hmem⟩

theorem resolve_bind_of_sees (horder : store.Ordered) (h : store.Sees name frame g) :
    (store.bind frame name value).resolve g name = some value := by
  rw [resolve, owner?_bind_of_sees hframe horder h, Option.bind_some, bindings_bind_self hframe]
  exact Table.lookup_insert_self name value _

theorem resolve_bind_of_unseen (horder : store.Ordered) (h : ¬ (other = name ∧ store.Sees name frame g)) :
    (store.bind frame name value).resolve g other = store.resolve g other := by
  rw [resolve, owner?_bind_of_unseen hframe horder h, resolve]
  cases howner : store.owner? g other with
  | none => rfl
  | some target =>
    rw [Option.bind_some, Option.bind_some]
    by_cases htarget : target = frame
    · subst htarget
      obtain ⟨hsees, -⟩ := (owner?_eq_some_iff horder).mp howner
      rw [bindings_bind_self hframe]
      apply Table.lookup_insert_of_ne
      rintro rfl
      exact h ⟨rfl, hsees⟩
    · rw [bindings_bind_of_ne htarget]

end Seen

end Store

namespace Machine

/-- Frames were made inside frames that were there, and names were bound in frames that were there. -/
inductive Scoped : Machine → Prop where
  | empty : Scoped .empty
  | child {m : Machine} {parent : Option FrameId} : Scoped m → (∀ p, parent = some p → p < m.size) →
      Scoped (m.after (Machine.child parent))
  | bind {m : Machine} {frame : FrameId} (name : String) (value : Value) : Scoped m → frame < m.size →
      Scoped (m.after (Machine.bind frame name value))

theorem after_bind {value : Value} (h : ∀ inner, value ≠ .returned inner) (m : Machine) (frame : FrameId)
    (name : String) :
    bind frame name value m = .ok value { m with store := m.store.bind frame name value } := by
  cases value with
  | returned inner => exact absurd rfl (h inner)
  | _ => rfl

theorem Scoped.ordered {m : Machine} (h : m.Scoped) : m.store.Ordered := by
  induction h with
  | empty =>
    intro i frame hframe
    simp [Machine.empty, Store.empty] at hframe
  | child _ hparent ih => exact ih.child hparent
  | @bind m frame name value _ hframe ih =>
    cases value with
    | returned inner => exact ih
    | _ => exact ih.bind frame name _

end Machine

/-- After any history a new binding is what its name resolves to from every frame that sees the one it was
made in. All else is looked up as before, the names of the frame keep their places, and other frames keep
their bindings. A wrapped return value is not bound and changes nothing. -/
theorem bind_shadows {m : Machine} (h : m.Scoped) {frame : FrameId} (hframe : frame < m.size)
    (name : String) (value : Value) :
    (∀ inner, value = .returned inner →
      ∃ fault, Machine.bind frame name value m = .error fault m ∧ fault.kind = "TypeError") ∧
    ((∀ inner, value ≠ .returned inner) → ∃ last, Machine.bind frame name value m = .ok value last ∧
      (∀ g, m.store.Sees name frame g →
        last.store.owner? g name = some frame ∧ last.store.resolve g name = some value) ∧
      (∀ g other, ¬ (other = name ∧ m.store.Sees name frame g) →
        last.store.owner? g other = m.store.owner? g other ∧
          last.store.resolve g other = m.store.resolve g other) ∧
      last.store.names frame = (if name ∈ m.store.names frame then m.store.names frame
        else m.store.names frame ++ [name]) ∧
      (∀ f, f ≠ frame → last.store.bindings f = m.store.bindings f) ∧
      ∀ f, last.store.parent? f = m.store.parent? f) := by
  have horder := h.ordered
  constructor
  · rintro inner rfl
    exact ⟨.boundReturn name, rfl, rfl⟩
  · intro hvalue
    refine ⟨_, Machine.after_bind hvalue m frame name, ?_, ?_, ?_, ?_, ?_⟩
    · intro g hsees
      exact ⟨Store.owner?_bind_of_sees hframe horder hsees, Store.resolve_bind_of_sees hframe horder hsees⟩
    · intro g other hunseen
      exact ⟨Store.owner?_bind_of_unseen hframe horder hunseen,
        Store.resolve_bind_of_unseen hframe horder hunseen⟩
    · exact Store.names_bind_self hframe name value
    · exact fun f hf => Store.bindings_bind_of_ne hf name value
    · exact fun f => Store.parent?_bind ..

theorem bind_shadows_late :
    let m := (((Machine.empty.after (Machine.child none)).after (Machine.child (some 0))).after
      (Machine.child (some 0))).after (Machine.bind 1 "x" (.integer 1))
    ∃ last, Machine.bind 0 "x" (.integer 2) m = .ok (.integer 2) last ∧
      last.store.resolve 1 "x" = some (.integer 1) ∧ last.store.resolve 2 "x" = some (.integer 2) := by
  intro m
  have hroot : (Machine.empty.after (Machine.child none)).Scoped := .child .empty (by simp)
  have hfirst := hroot.child (show ∀ p, some 0 = some p → p < _ by rintro p ⟨⟩; decide)
  have hsecond := hfirst.child (show ∀ p, some 0 = some p → p < _ by rintro p ⟨⟩; decide)
  have hscoped : m.Scoped := hsecond.bind "x" (.integer 1) (by decide)
  obtain ⟨last, hbind, hseen, hunseen, -⟩ :=
    (@bind_shadows m hscoped 0 (by decide) "x" (.integer 2)).2 (by simp)
  refine ⟨last, hbind, ?_, (hseen 2 ?_).2⟩
  · rw [(hunseen 1 "x" ?_).2]
    · cbv
    · rintro ⟨-, hsees⟩
      cases hsees with
      | outward _ hnot => exact hnot (by decide)
  · exact .outward rfl (by decide) (.here (by decide))

end MonkeyLang
