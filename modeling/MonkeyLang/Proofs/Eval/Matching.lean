import MonkeyLang.Proofs.Ast.Like
import MonkeyLang.Proofs.Ast.Spans
import MonkeyLang.Proofs.Eval.Sound
import MonkeyLang.Proofs.Value.Alike
import MonkeyLang.Session.Report

/-!
# Machines that match

A machine matches another when its frames and functions are found there under other numbers, and perhaps
frames that the first does not have. Evaluation of nodes that are alike goes the same way in both: it ends
in values that are alike, or in faults that are, and again in machines that match.
-/

namespace MonkeyLang

/-- How one machine is found in another. The first `frames` frames have the same numbers there and those
behind them numbers higher by `frameShift`. A function is kept as it is or has a number from `closures` on,
which is higher there by `closureShift`. Spans are the same if they matter. -/
structure Matching where
  spans : Prop
  frames : Nat
  frameShift : Nat
  closures : Nat
  closureShift : Nat
  kept : Closure → Prop
  kept_scope : ∀ closure, kept closure → closure.scope < frames

namespace Matching

/-! ## What matches -/

def frame (t : Matching) (i : Nat) : Nat :=
  if i < t.frames then i else i + t.frameShift

/-- A function that is found under another number and in the frame that its own one is. -/
structure Renewed (t : Matching) (a b : Closure) : Prop where
  id_le : t.closures ≤ a.id
  id : b.id = a.id + t.closureShift
  params : Like (List.map Ident.erase) t.spans a.params b.params
  body : a.body.Like t.spans b.body
  scope : b.scope = t.frame a.scope

def Closures (t : Matching) (a b : Closure) : Prop :=
  (t.kept a ∧ b = a) ∨ t.Renewed a b

abbrev Values (t : Matching) : Value → Value → Prop :=
  Value.Alike t.Closures

structure Frames (t : Matching) (a b : Frame) : Prop where
  parent : b.parent = a.parent.map t.frame
  bindings : Table.EntriesLike t.Values a.bindings b.bindings

structure Calls (t : Matching) (a b : Call) : Prop where
  name : a.name = b.name
  arguments : List.Forall₂ t.Values a.arguments b.arguments

structure Machines (t : Matching) (m m' : Machine) : Prop where
  size_le : t.frames ≤ m.size
  size : m'.size = m.size + t.frameShift
  frames : ∀ i, Option.Rel t.Frames m.store.frames[i]? m'.store.frames[t.frame i]?
  calls : List.Forall₂ t.Calls m.calls m'.calls
  closures_le : t.closures ≤ m.closures
  closures : m'.closures = m.closures + t.closureShift

inductive Faults (t : Matching) : Fault → Fault → Prop where
  | notCallable {a b : Value} {site site' : Option Span} {calls calls' : List Call} : t.Values a b →
      Option.Rel (fun s s' => t.spans → s = s') site site' → List.Forall₂ t.Calls calls calls' →
      Faults t (.notCallable a site calls) (.notCallable b site' calls')
  | tooDeep {span span' : Span} : (t.spans → span = span') → Faults t (.tooDeep span) (.tooDeep span')
  | boundReturn (name : String) : Faults t (.boundReturn name) (.boundReturn name)

variable {t : Matching}

/-! ## Functions -/

theorem Closures.params {a b : Closure} (h : t.Closures a b) :
    Like (List.map Ident.erase) t.spans a.params b.params := by
  rcases h with ⟨-, rfl⟩ | h
  · exact .refl _
  · exact h.params

theorem Closures.body {a b : Closure} (h : t.Closures a b) : a.body.Like t.spans b.body := by
  rcases h with ⟨-, rfl⟩ | h
  · exact .refl _
  · exact h.body

theorem Closures.scope {a b : Closure} (h : t.Closures a b) : b.scope = t.frame a.scope := by
  rcases h with ⟨hkept, rfl⟩ | h
  · exact (if_pos (t.kept_scope b hkept)).symm
  · exact h.scope

theorem Closures.printAll {a b : Closure} (h : t.Closures a b) :
    Ident.printAll a.params = Ident.printAll b.params := by
  rw [← Ident.printAll_erase, h.params.1, Ident.printAll_erase]

theorem Closures.debug {a b : Closure} (h : t.Closures a b) : a.debug = b.debug := by
  unfold Closure.debug
  rw [h.printAll]

theorem Closures.display {a b : Closure} (h : t.Closures a b) : a.display = b.display := by
  rw [Closure.display, Closure.display, Closure.print, Closure.print, h.printAll, ← Block.print_erase,
    h.body.1, Block.print_erase]

theorem Values.debug {a b : Value} (h : t.Values a b) : a.debug = b.debug :=
  Value.Alike.debug (fun _ _ => Closures.debug) h

theorem Values.display {a b : Value} (h : t.Values a b) : a.display = b.display :=
  Value.Alike.display (fun _ _ => Closures.display) h

/-! ## Faults -/

theorem map_eq_of_forall₂ {α β : Type} {R : α → α → Prop} {f : α → β} {as bs : List α}
    (h : List.Forall₂ R as bs) (hR : ∀ a b, R a b → f a = f b) : as.map f = bs.map f := by
  rw [← List.forall₂_eq_eq_eq, List.forall₂_map_left_iff, List.forall₂_map_right_iff]
  exact h.imp hR

theorem Calls.render {a b : Call} (h : t.Calls a b) : a.render = b.render := by
  have harguments := map_eq_of_forall₂ h.arguments fun _ _ => Values.debug
  unfold Call.render
  rw [h.name, harguments]

theorem Calls.stackTrace {as bs : List Call} (h : List.Forall₂ t.Calls as bs) :
    stackTrace as = stackTrace bs := by
  have hrender := map_eq_of_forall₂ h fun _ _ => Calls.render
  cases h with
  | nil => rfl
  | cons => exact congrArg ("Monkey stacktrace: " ++ " ".intercalate ·) hrender

theorem Faults.message {a b : Fault} (h : t.Faults a b) : a.message = b.message := by
  cases h with
  | notCallable hvalue =>
    have hdebug := hvalue.debug
    cases hvalue with
    | error message => rfl
    | _ => exact congrArg ("not a function: " ++ ·) hdebug
  | tooDeep _ => rfl
  | boundReturn name => rfl

theorem Faults.calls {a b : Fault} (h : t.Faults a b) : List.Forall₂ t.Calls a.calls b.calls := by
  cases h with
  | notCallable _ _ hcalls => exact hcalls
  | tooDeep _ => exact .nil
  | boundReturn name => exact .nil

theorem Faults.span? {a b : Fault} (h : t.Faults a b) (hspans : t.spans) : a.span? = b.span? := by
  cases h with
  | notCallable _ hsite _ =>
    cases hsite with
    | none => rfl
    | some hsite => exact congrArg some (hsite hspans)
  | tooDeep hspan => exact congrArg some (hspan hspans)
  | boundReturn name => rfl

/-! ## Frames -/

theorem frame_lt_iff {i j : Nat} : t.frame i < t.frame j ↔ i < j := by
  unfold frame
  split <;> split <;> omega

theorem frame_inj {i j : Nat} : t.frame i = t.frame j ↔ i = j := by
  unfold frame
  split <;> split <;> omega

namespace Machines

variable {m m' : Machine}

theorem frame_size (h : t.Machines m m') : t.frame m.size = m'.size := by
  rw [frame, if_neg (Nat.not_lt.mpr h.size_le), h.size]

theorem owner? (h : t.Machines m m') (i : FrameId) (name : String) :
    m'.store.owner? (t.frame i) name = (m.store.owner? i name).map t.frame := by
  induction i using Nat.strongRecOn with
  | ind i ih =>
    rw [Store.owner?, Store.owner?]
    have hframe := h.frames i
    generalize m.store.frames[i]? = old at hframe ⊢
    generalize m'.store.frames[t.frame i]? = new at hframe ⊢
    cases hframe with
    | none => rfl
    | @some a b hframe =>
      obtain ⟨bindings, parent⟩ := a
      obtain ⟨bindings', parent'⟩ := b
      obtain rfl : parent' = parent.map t.frame := hframe.parent
      dsimp only
      rw [← hframe.bindings.contains name]
      split
      · rfl
      · cases parent with
        | none => rfl
        | some parent =>
          simp only [Option.map_some, frame_lt_iff]
          split
          next hparent => exact ih parent hparent
          next => rfl

theorem resolve (h : t.Machines m m') (i : FrameId) (name : String) :
    Option.Rel t.Values (m.store.resolve i name) (m'.store.resolve (t.frame i) name) := by
  rw [Store.resolve, Store.resolve, h.owner?]
  cases m.store.owner? i name with
  | none => exact .none
  | some owner =>
    simp only [Option.map_some, Option.bind_some]
    rw [Store.bindings, Store.bindings]
    have hframe := h.frames owner
    generalize m.store.frames[owner]? = old at hframe ⊢
    generalize m'.store.frames[t.frame owner]? = new at hframe ⊢
    cases hframe with
    | none => exact .none
    | some hframe => exact hframe.bindings.lookup name

end Machines

end Matching

end MonkeyLang
