import Mathlib.Data.List.Forall2
import MonkeyLang.Proofs.Value.Storable
import MonkeyLang.Value.Equality

namespace MonkeyLang

inductive Table.EntryLike {α : Type} (like : Value → Value → Prop) : α × Value → α × Value → Prop where
  | mk (key : α) {a b : Value} : like a b → EntryLike like (key, a) (key, b)

namespace Table

abbrev EntriesLike {α : Type} (like : Value → Value → Prop) :
    List (α × Value) → List (α × Value) → Prop :=
  List.Forall₂ (EntryLike like)

variable {α : Type} {like : Value → Value → Prop} {as bs : List (α × Value)}

theorem EntriesLike.insert [DecidableEq α] (h : EntriesLike like as bs) (key : α) {a b : Value}
    (hvalue : like a b) : EntriesLike like (Table.insert key a as) (Table.insert key b bs) := by
  induction h with
  | nil => exact .cons (.mk key hvalue) .nil
  | cons hentry hrest ih =>
    obtain ⟨other, hother⟩ := hentry
    rw [Table.insert, Table.insert]
    split
    · exact .cons (.mk other hvalue) hrest
    · exact .cons (.mk other hother) ih

theorem EntriesLike.lookup [DecidableEq α] (h : EntriesLike like as bs) (key : α) :
    Option.Rel like (as.lookup key) (bs.lookup key) := by
  induction h with
  | nil => exact .none
  | cons hentry _ ih =>
    obtain ⟨other, hother⟩ := hentry
    rw [List.lookup_cons, List.lookup_cons]
    split
    · exact .some hother
    · exact ih

theorem EntriesLike.contains [DecidableEq α] (h : EntriesLike like as bs) (key : α) :
    Table.contains as key = Table.contains bs key := by
  induction h with
  | nil => rfl
  | cons hentry _ ih =>
    obtain ⟨other, -⟩ := hentry
    exact congrArg (decide (other = key) || ·) ih

end Table

/-- The values are equal but for functions, which are related by `R`. -/
inductive Value.Alike (R : Closure → Closure → Prop) : Value → Value → Prop where
  | null : Alike R .null .null
  | integer (value : Int) : Alike R (.integer value) (.integer value)
  | boolean (value : Bool) : Alike R (.boolean value) (.boolean value)
  | string (value : String) : Alike R (.string value) (.string value)
  | array {as bs : List Value} : List.Forall₂ (Alike R) as bs → Alike R (.array as) (.array bs)
  | hash {as bs : List (Key × Value)} : List.Forall₂ (Table.EntryLike (Alike R)) as bs →
      Alike R (.hash as) (.hash bs)
  | function {a b : Closure} : R a b → Alike R (.function a) (.function b)
  | builtin (op : Builtin) (owner : FrameId) : Alike R (.builtin op owner) (.builtin op owner)
  | returned {a b : Value} : Alike R a b → Alike R (.returned a) (.returned b)
  | error (message : String) : Alike R (.error message) (.error message)

namespace Value

variable {R : Closure → Closure → Prop} {a b c d : Value}

mutual

theorem alike_self (a : Value) (h : ∀ closure, Occurs (.function closure) a → R closure closure) :
    Alike R a a := by
  match a with
  | .null => exact .null
  | .integer value => exact .integer value
  | .boolean value => exact .boolean value
  | .string value => exact .string value
  | .array elements =>
    exact .array (alike_self_all elements fun a mem closure occurs => h closure (.child mem occurs))
  | .hash entries =>
    exact .hash (alike_self_entries entries fun entry mem closure occurs =>
      h closure (.child (List.mem_map_of_mem mem) occurs))
  | .function closure => exact .function (h closure .whole)
  | .builtin op owner => exact .builtin op owner
  | .returned a =>
    exact .returned (alike_self a fun closure occurs =>
      h closure (.child (List.mem_singleton_self a) occurs))
  | .error message => exact .error message

theorem alike_self_all (as : List Value)
    (h : ∀ a ∈ as, ∀ closure, Occurs (.function closure) a → R closure closure) :
    List.Forall₂ (Alike R) as as := by
  match as with
  | [] => exact .nil
  | a :: as =>
    obtain ⟨ha, hrest⟩ := List.forall_mem_cons.mp h
    exact .cons (alike_self a ha) (alike_self_all as hrest)

theorem alike_self_entries (as : List (Key × Value))
    (h : ∀ entry ∈ as, ∀ closure, Occurs (.function closure) entry.2 → R closure closure) :
    Table.EntriesLike (Alike R) as as := by
  match as with
  | [] => exact .nil
  | (key, a) :: as =>
    obtain ⟨ha, hrest⟩ := List.forall_mem_cons.mp h
    exact .cons (.mk key (alike_self a ha)) (alike_self_entries as hrest)

end

mutual

theorem Alike.eq {a b : Value} (h : Alike R a b)
    (hR : ∀ c d, Occurs (.function c) a → R c d → c = d) : a = b := by
  match h with
  | .null | .integer _ | .boolean _ | .string _ | .builtin _ _ | .error _ => rfl
  | .array h => rw [eq_of_alike_all h fun a mem c d occurs => hR c d (.child mem occurs)]
  | .hash h =>
    rw [eq_of_alike_entries h fun entry mem c d occurs =>
      hR c d (.child (List.mem_map_of_mem mem) occurs)]
  | .function hcd => rw [hR _ _ .whole hcd]
  | .returned h =>
    rw [Alike.eq h fun c d occurs => hR c d (.child (List.mem_singleton_self _) occurs)]

theorem eq_of_alike_all {as bs : List Value} (h : List.Forall₂ (Alike R) as bs)
    (hR : ∀ a ∈ as, ∀ c d, Occurs (.function c) a → R c d → c = d) : as = bs := by
  match h with
  | .nil => rfl
  | .cons h hrest =>
    obtain ⟨ha, hR⟩ := List.forall_mem_cons.mp hR
    rw [Alike.eq h ha, eq_of_alike_all hrest hR]

theorem eq_of_alike_entries {as bs : List (Key × Value)} (h : Table.EntriesLike (Alike R) as bs)
    (hR : ∀ entry ∈ as, ∀ c d, Occurs (.function c) entry.2 → R c d → c = d) : as = bs := by
  match h with
  | .nil => rfl
  | .cons (.mk key h) hrest =>
    obtain ⟨ha, hR⟩ := List.forall_mem_cons.mp hR
    rw [Alike.eq h ha, eq_of_alike_entries hrest hR]

end

theorem Alike.eq_of_functionless {a b : Value} (h : Alike R a b)
    (hfree : ∀ closure, ¬ Occurs (.function closure) a) : a = b :=
  h.eq fun closure _ occurs _ => absurd occurs (hfree closure)

theorem Alike.typeName (h : Alike R a b) : a.typeName = b.typeName := by
  cases h <;> rfl

theorem Alike.key? (h : Alike R a b) : a.key? = b.key? := by
  cases h <;> rfl

theorem Alike.isTruthy (h : Alike R a b) : a.isTruthy = b.isTruthy := by
  cases h <;> rfl

theorem Alike.isCallable (h : Alike R a b) : a.isCallable = b.isCallable := by
  cases h <;> rfl

theorem Alike.unwrap (h : Alike R a b) : Alike R a.unwrap b.unwrap := by
  cases h with
  | returned h => exact h
  | _ => constructor; try assumption

mutual

theorem Alike.debug (hR : ∀ a b, R a b → a.debug = b.debug) {a b : Value} (h : Alike R a b) :
    a.debug = b.debug := by
  match h with
  | .null | .integer _ | .boolean _ | .string _ | .builtin _ _ | .error _ => rfl
  | .array h =>
    exact congrArg (fun parts => "Array([" ++ ", ".intercalate parts ++ "])") (debugAll_eq hR h)
  | .hash h =>
    exact congrArg (fun parts => "Hash(\x7b" ++ ", ".intercalate parts ++ "\x7d)") (debugEntries_eq hR h)
  | .function h => exact hR _ _ h
  | .returned h => exact congrArg ("Return(" ++ · ++ ")") (Alike.debug hR h)

theorem debugAll_eq (hR : ∀ a b, R a b → a.debug = b.debug) {as bs : List Value}
    (h : List.Forall₂ (Alike R) as bs) : Value.debugAll as = Value.debugAll bs := by
  match h with
  | .nil => rfl
  | .cons h hrest => rw [Value.debugAll, Value.debugAll, Alike.debug hR h, debugAll_eq hR hrest]

theorem debugEntries_eq (hR : ∀ a b, R a b → a.debug = b.debug) {as bs : List (Key × Value)}
    (h : Table.EntriesLike (Alike R) as bs) : Value.debugEntries as = Value.debugEntries bs := by
  match h with
  | .nil => rfl
  | .cons (.mk key h) hrest =>
    rw [Value.debugEntries, Value.debugEntries, Alike.debug hR h, debugEntries_eq hR hrest]

end

mutual

theorem Alike.display (hR : ∀ a b, R a b → a.display = b.display) {a b : Value} (h : Alike R a b) :
    a.display = b.display := by
  match h with
  | .null | .integer _ | .boolean _ | .string _ | .builtin _ _ | .error _ => rfl
  | .array .nil | .hash .nil => rfl
  | .array (.cons h hrest) =>
    rw [Value.display, Value.display, Alike.display hR h, displayAll_eq hR hrest]
  | .hash (.cons (.mk key h) hrest) =>
    rw [Value.display, Value.display, Alike.display hR h, displayEntries_eq hR hrest]
  | .function h => exact hR _ _ h
  | .returned h => rw [Value.display, Value.display, Alike.display hR h]

theorem displayAll_eq (hR : ∀ a b, R a b → a.display = b.display) {as bs : List Value}
    (h : List.Forall₂ (Alike R) as bs) : Value.displayAll as = Value.displayAll bs := by
  match h with
  | .nil => rfl
  | .cons h hrest => rw [Value.displayAll, Value.displayAll, Alike.display hR h, displayAll_eq hR hrest]

theorem displayEntries_eq (hR : ∀ a b, R a b → a.display = b.display) {as bs : List (Key × Value)}
    (h : Table.EntriesLike (Alike R) as bs) : Value.displayEntries as = Value.displayEntries bs := by
  match h with
  | .nil => rfl
  | .cons (.mk key h) hrest =>
    rw [Value.displayEntries, Value.displayEntries, Alike.display hR h, displayEntries_eq hR hrest]

end

theorem alike_checked (operator : Operator) (left right result : Int) :
    Alike R (checked operator left right result) (checked operator left right result) := by
  unfold checked
  split
  · exact .integer result
  · exact .error _

theorem alike_integerOperation (operator : Operator) (left right : Int) :
    Alike R (integerOperation operator left right) (integerOperation operator left right) := by
  unfold integerOperation
  split
  case h_4 =>
    split
    · exact .error _
    · exact alike_checked _ _ _ _
  all_goals
    first
    | exact alike_checked _ _ _ _
    | exact .boolean _
    | exact .error _

theorem alike_append (operator : Operator) (left : String) (right : Value) (text : String) :
    Alike R (append operator left right text) (append operator left right text) := by
  unfold append
  split
  · exact .string _
  · exact .error _

theorem Alike.binary (hR : ∀ a b, R a b → a.debug = b.debug) (operator : Operator) (ha : Alike R a b)
    (hc : Alike R c d) : Alike R (binary operator a c) (binary operator b d) := by
  have herror : Alike R (.error s!"Expected number, got {a.debug} and {c.debug}")
      (.error s!"Expected number, got {b.debug} and {d.debug}") := by
    rw [ha.debug hR, hc.debug hR]
    exact .error _
  cases ha with
  | integer left => cases hc with
    | integer right => exact alike_integerOperation operator left right
    | _ => exact herror
  | string left => cases hc with
    | string right => exact alike_append operator left (.string right) right
    | integer right => exact alike_append operator left (.integer right) (toString right)
    | _ => exact herror
  | _ => exact herror

theorem Alike.unary (operator : Operator) (h : Alike R a b) :
    Alike R (unary operator a) (unary operator b) := by
  have herror : Alike R (.error s!"unknown operator: {operator.symbol}{a.typeName}")
      (.error s!"unknown operator: {operator.symbol}{b.typeName}") := by
    rw [h.typeName]
    exact .error _
  cases operator with
  | not =>
    show Alike R (.boolean !a.isTruthy) (.boolean !b.isTruthy)
    rw [h.isTruthy]
    exact .boolean _
  | neg => cases h with
    | integer value =>
      rw [Value.unary]
      split
      · exact .integer _
      · exact .error _
    | _ => exact herror
  | _ => exact herror

theorem Alike.unusableKey (h : Alike R a b) : Alike R a.unusableKey b.unusableKey := by
  rw [Value.unusableKey, Value.unusableKey, h.typeName]
  exact .error _

theorem alike_getD {o p : Option Value} (h : Option.Rel (Alike R) o p) {a b : Value} (hd : Alike R a b) :
    Alike R (o.getD a) (p.getD b) := by
  cases h with
  | none => exact hd
  | some h => exact h

theorem alike_getElem? {as bs : List Value} (h : List.Forall₂ (Alike R) as bs) (i : Nat) :
    Option.Rel (Alike R) as[i]? bs[i]? := by
  induction h generalizing i with
  | nil => exact .none
  | cons h _ ih =>
    cases i with
    | zero => exact .some h
    | succ i => exact ih i

theorem Alike.index (hR : ∀ a b, R a b → a.debug = b.debug) (ha : Alike R a b) (hc : Alike R c d) :
    Alike R (index a c) (index b d) := by
  cases ha with
  | array h =>
    have herror : Alike R (.error s!"Invalid index value: {c.debug}")
        (.error s!"Invalid index value: {d.debug}") := by
      rw [hc.debug hR]
      exact .error _
    cases hc with
    | integer i =>
      rw [Value.index, Value.index]
      split
      · exact .null
      · rw [List.getD_eq_getElem?_getD, List.getD_eq_getElem?_getD]
        exact alike_getD (alike_getElem? h _) .null
    | _ => exact herror
  | hash h =>
    rw [Value.index, Value.index, hc.key?]
    cases d.key? with
    | none => exact hc.unusableKey
    | some key =>
      rw [hc.debug hR]
      exact alike_getD (Table.EntriesLike.lookup h key) (.error _)
  | _ => exact .error _

end Value

namespace Builtin

variable {R : Closure → Closure → Prop}

def refused (op : Builtin) (arguments : List Value) : Value :=
  match arguments with
  | argument :: _ =>
    if arguments.length = op.arity then op.invalidArgument argument else op.wrongArity arguments.length
  | [] => op.wrongArity 0

theorem alike_refused (hR : ∀ a b, R a b → a.debug = b.debug) (op : Builtin) {as bs : List Value}
    (h : List.Forall₂ (Value.Alike R) as bs) : Value.Alike R (op.refused as) (op.refused bs) := by
  cases h with
  | nil => exact .error _
  | cons h hrest =>
    rw [refused, refused, invalidArgument, invalidArgument, h.debug hR, List.length_cons, List.length_cons,
      hrest.length_eq]
    split <;> exact .error _

theorem alike_apply (hR : ∀ a b, R a b → a.debug = b.debug) (op : Builtin) {as bs : List Value}
    (h : List.Forall₂ (Value.Alike R) as bs) : Value.Alike R (op.apply as) (op.apply bs) := by
  have hother := op.alike_refused hR h
  -- Arguments of another number or kind are refused on both sides, so only one case of each is left.
  cases op with
  | first => cases h with
    | cons h hrest => cases h with
      | array h => cases hrest with
        | nil => cases h with
          | nil => exact .null
          | cons h _ => exact h
        | cons => exact hother
      | _ => exact hother
    | nil => exact hother
  | last => cases h with
    | cons h hrest => cases h with
      | array h => cases hrest with
        | nil =>
          rw [apply, apply, List.getLastD_eq_getLast?, List.getLastD_eq_getLast?,
            List.getLast?_eq_getElem?, List.getLast?_eq_getElem?, h.length_eq]
          exact Value.alike_getD (Value.alike_getElem? h _) .null
        | cons => exact hother
      | _ => exact hother
    | nil => exact hother
  | len => cases h with
    | cons h hrest => cases h with
      | string value => cases hrest with
        | nil => exact .integer _
        | cons => exact hother
      | array h => cases hrest with
        | nil =>
          rw [apply, apply, h.length_eq]
          exact .integer _
        | cons => exact hother
      | _ => exact hother
    | nil => exact hother
  | push => cases h with
    | cons h hrest => cases h with
      | array h => cases hrest with
        | cons hvalue hrest => cases hrest with
          | nil => exact .array (List.rel_append h (.cons hvalue .nil))
          | cons => exact hother
        | nil => exact hother
      | _ => exact hother
    | nil => exact hother
  | put => cases h with
    | cons h hrest => cases h with
      | hash h => cases hrest with
        | cons hkey hrest => cases hrest with
          | cons hvalue hrest => cases hrest with
            | nil =>
              rw [apply, apply, hkey.key?]
              split
              · exact hkey.unusableKey
              · exact .hash (Table.EntriesLike.insert h _ hvalue)
            | cons => exact hother
          | nil => exact hother
        | nil => exact hother
      | _ => exact hother
    | nil => exact hother
  | rest => cases h with
    | cons h hrest => cases h with
      | array h => cases hrest with
        | nil =>
          refine .array ?_
          rw [List.dropLast_eq_take, List.dropLast_eq_take, h.length_eq]
          exact List.forall₂_take _ h
        | cons => exact hother
      | _ => exact hother
    | nil => exact hother

end Builtin

end MonkeyLang
