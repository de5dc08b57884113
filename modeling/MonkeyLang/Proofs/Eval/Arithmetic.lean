import Mathlib
import MonkeyLang.Eval.Operator

namespace MonkeyLang

def Fits (n : Int) : Prop :=
  -2 ^ 63 ≤ n ∧ n ≤ 2 ^ 63 - 1

/-- The operator has the exact result on the operands. -/
inductive Exact (left right : Int) : Operator → Int → Prop where
  | add : Exact left right .add (left + right)
  | sub : Exact left right .sub (left - right)
  | mul : Exact left right .mul (left * right)
  /-- A remainder that is not zero has the sign of the dividend. -/
  | div {quotient remainder : Int} : left = quotient * right + remainder →
      remainder.natAbs < right.natAbs → remainder = 0 ∨ remainder.sign = left.sign →
      Exact left right .div quotient

/-- The operator asks whether the operands are so related. -/
inductive Compares (left right : Int) : Operator → Prop → Prop where
  | less : Compares left right .less (left < right)
  | greater : Compares left right .greater (left > right)
  | lessEqual : Compares left right .lessEqual (left ≤ right)
  | greaterEqual : Compares left right .greaterEqual (left ≥ right)
  | equal : Compares left right .equal (left = right)
  | notEqual : Compares left right .notEqual (left ≠ right)

variable {left right : Int}

theorem inRange_iff {n : Int} : inRange n = true ↔ Fits n := by
  simp only [inRange, Bool.and_eq_true, decide_eq_true_eq]
  unfold maxInteger Fits
  omega

theorem exact_div_iff {quotient : Int} :
    Exact left right .div quotient ↔ right ≠ 0 ∧ quotient = left.tdiv right := by
  constructor
  · intro h
    cases h with
    | @div _ remainder hleft hless hsign =>
      have hright : right ≠ 0 := by
        rintro rfl
        simp at hless
      have hsum : remainder + right * quotient = left := by
        rw [hleft, Int.mul_comm, Int.add_comm]
      refine ⟨hright, Eq.symm ?_⟩
      -- The remainder is on the same side of zero as the dividend.
      rcases Int.le_total 0 left with hnonneg | hnonpos
      · have hremainder : 0 ≤ remainder := by
          rcases hsign with rfl | hsign
          · exact Int.le_refl 0
          · exact Int.sign_nonneg_iff.mp (hsign ▸ Int.sign_nonneg_iff.mpr hnonneg)
        exact ((Int.tdiv_tmod_unique hnonneg hright).mpr ⟨hsum, hremainder, by omega⟩).1
      · have hremainder : remainder ≤ 0 := by
          rcases hsign with rfl | hsign
          · exact Int.le_refl 0
          · exact Int.sign_nonpos_iff.mp (hsign ▸ Int.sign_nonpos_iff.mpr hnonpos)
        exact ((Int.tdiv_tmod_unique' hnonpos hright).mpr ⟨hsum, by omega, hremainder⟩).1
  · rintro ⟨hright, rfl⟩
    apply Exact.div
    · rw [Int.mul_comm]
      exact (Int.mul_tdiv_add_tmod left right).symm
    · rw [Int.natAbs_tmod]
      exact Nat.mod_lt _ (Int.natAbs_pos.mpr hright)
    · rw [Int.sign_tmod]
      by_cases hdvd : right ∣ left
      · exact .inl (Int.tmod_eq_zero_of_dvd hdvd)
      · exact .inr (if_neg hdvd)

theorem fits_tdiv_iff (hleft : Fits left) (hright : right ≠ 0) :
    Fits (left.tdiv right) ↔ ¬ (left = -2 ^ 63 ∧ right = -1) := by
  obtain ⟨hlow, hhigh⟩ := hleft
  unfold Fits
  by_cases hminus : right = -1
  · subst hminus
    rw [Int.tdiv_neg, Int.tdiv_one]
    omega
  · have hsize := Int.natAbs_tdiv_le_natAbs left right
    suffices left.tdiv right ≠ 2 ^ 63 by omega
    intro hquotient
    -- A divisor of one keeps the sign, and a larger one halves the dividend.
    by_cases hone : right = 1
    · rw [hone, Int.tdiv_one] at hquotient
      omega
    · have habs : (left.tdiv right).natAbs = left.natAbs / right.natAbs := Int.natAbs_tdiv left right
      have hhalf : left.natAbs / right.natAbs ≤ left.natAbs / 2 :=
        Nat.div_le_div_left (by omega) (by decide)
      omega

theorem checked_eq (operator : Operator) (left right result : Int) :
    (Fits result → checked operator left right result = .integer result) ∧
      (¬ Fits result → checked operator left right result =
        .error s!"integer overflow: {left} {operator.symbol} {right}") := by
  rw [← inRange_iff]
  exact ⟨fun h => if_pos h, fun h => if_neg h⟩

theorem overflow_ne_divisionByZero (operator : Operator) (left right : Int) :
    s!"integer overflow: {left} {operator.symbol} {right}" ≠ "division by zero" := by
  intro h
  have hfirst := congrArg (fun text => text.toList.take 1) h
  simp only [String.toList_append, List.append_assoc] at hfirst
  cases hfirst

theorem binary_of_exact {operator : Operator} {result : Int} (h : Exact left right operator result) :
    Value.binary operator (.integer left) (.integer right) = checked operator left right result := by
  cases h with
  | add | sub | mul => rfl
  | div hleft hless hsign =>
    obtain ⟨hright, rfl⟩ := exact_div_iff.mp (.div hleft hless hsign)
    exact if_neg hright

theorem binary_of_compares {operator : Operator} {holds : Prop} (h : Compares left right operator holds) :
    ∃ answer, Value.binary operator (.integer left) (.integer right) = .boolean answer ∧
      (answer = true ↔ holds) := by
  cases h <;> exact ⟨_, rfl, decide_eq_true_iff⟩

theorem exact_or_compares (operator : Operator) (hnot : operator ≠ .not) (hneg : operator ≠ .neg) :
    operator = .div ∧ right = 0 ∨ (∃ result, Exact left right operator result) ∨
      ∃ holds, Compares left right operator holds := by
  cases operator with
  | not => exact absurd rfl hnot
  | neg => exact absurd rfl hneg
  | div =>
    by_cases hright : right = 0
    · exact .inl ⟨rfl, hright⟩
    · exact .inr (.inl ⟨left.tdiv right, exact_div_iff.mpr ⟨hright, rfl⟩⟩)
  | add | sub | mul => exact .inr (.inl ⟨_, by constructor⟩)
  | _ => exact .inr (.inr ⟨_, by constructor⟩)

theorem exact_of_binary {operator : Operator} {result : Int}
    (h : Value.binary operator (.integer left) (.integer right) = .integer result) :
    Exact left right operator result ∧ Fits result := by
  have hchecked : ∀ {exact : Int}, checked operator left right exact = .integer result →
      exact = result ∧ Fits result := by
    intro exact hexact
    by_cases hfits : Fits exact
    · rw [(checked_eq operator left right exact).1 hfits] at hexact
      cases hexact
      exact ⟨rfl, hfits⟩
    · rw [(checked_eq operator left right exact).2 hfits] at hexact
      cases hexact
  cases operator with
  | add | sub | mul =>
    obtain ⟨rfl, hfits⟩ := hchecked h
    exact ⟨by constructor, hfits⟩
  | div =>
    by_cases hright : right = 0
    · rw [Value.binary, integerOperation, if_pos hright] at h
      cases h
    · rw [Value.binary, integerOperation, if_neg hright] at h
      obtain ⟨rfl, hfits⟩ := hchecked h
      exact ⟨exact_div_iff.mpr ⟨hright, rfl⟩, hfits⟩
  | _ => cases h

/-- An operator gives an integer if that is its exact result and has 64 bits, and where the exact result has
more the error names the operation; a comparison gives the truth of its relation. These are all operators of
two operands, and only the quotient by zero is missing. On integers of 64 bits only one quotient and one
negation have more. -/
theorem binary_integers (hleft : Fits left) :
    (∀ operator result,
      (Value.binary operator (.integer left) (.integer right) = .integer result ↔
        Exact left right operator result ∧ Fits result) ∧
      (Exact left right operator result → ¬ Fits result →
        Value.binary operator (.integer left) (.integer right) =
          .error s!"integer overflow: {left} {operator.symbol} {right}")) ∧
    (∀ operator holds, Compares left right operator holds → ∃ answer,
      Value.binary operator (.integer left) (.integer right) = .boolean answer ∧ (answer = true ↔ holds)) ∧
    (Value.binary .div (.integer left) (.integer right) = .error "division by zero" ↔ right = 0) ∧
    (∀ operator, operator ≠ .not → operator ≠ .neg → operator = .div ∧ right = 0 ∨
      (∃ result, Exact left right operator result) ∨ ∃ holds, Compares left right operator holds) ∧
    (∀ quotient, Exact left right .div quotient → (¬ Fits quotient ↔ left = -2 ^ 63 ∧ right = -1)) ∧
    (left = -2 ^ 63 → Value.unary .neg (.integer left) = .error s!"integer overflow: -{left}") ∧
    (left ≠ -2 ^ 63 → Value.unary .neg (.integer left) = .integer (-left)) ∧
    ∀ operator result, Value.unary operator (.integer left) = .integer result → Fits result := by
  have hexact : ∀ operator result, Exact left right operator result →
      (Fits result → Value.binary operator (.integer left) (.integer right) = .integer result) ∧
      (¬ Fits result → Value.binary operator (.integer left) (.integer right) =
        .error s!"integer overflow: {left} {operator.symbol} {right}") := by
    intro operator result h
    rw [binary_of_exact h]
    exact checked_eq operator left right result
  refine ⟨?_, fun _ _ => binary_of_compares, ?_, ?_, ?_, ?_, ?_, ?_⟩
  · intro operator result
    exact ⟨⟨exact_of_binary, fun ⟨h, hfits⟩ => (hexact operator result h).1 hfits⟩,
      fun h => (hexact operator result h).2⟩
  · constructor
    · intro herror
      refine Decidable.byContradiction fun hne => ?_
      have hdiv := hexact .div _ (exact_div_iff.mpr ⟨hne, rfl⟩)
      by_cases hfits : Fits (left.tdiv right)
      · cases (hdiv.1 hfits).symm.trans herror
      · exact overflow_ne_divisionByZero _ _ _ (Value.error.inj ((hdiv.2 hfits).symm.trans herror))
    · rintro rfl
      rfl
  · exact fun operator => exact_or_compares operator
  · intro quotient h
    obtain ⟨hne, rfl⟩ := exact_div_iff.mp h
    rw [fits_tdiv_iff hleft hne, Decidable.not_not]
  · rintro rfl
    rfl
  · intro hne
    have hfits : Fits (-left) := by
      unfold Fits at hleft ⊢
      omega
    exact if_pos (inRange_iff.mpr hfits)
  · intro operator result h
    cases operator with
    | neg =>
      rw [Value.unary] at h
      split at h
      next hfits =>
        cases h
        exact inRange_iff.mp hfits
      next => cases h
    | _ => cases h

theorem binary_integers_least :
    Fits (-2 ^ 63) ∧
      Value.binary .div (.integer (-2 ^ 63)) (.integer (-1)) =
        .error "integer overflow: -9223372036854775808 / -1" ∧
      Value.unary .neg (.integer (-2 ^ 63)) = .error "integer overflow: --9223372036854775808" := by
  have hleft : Fits (-2 ^ 63) := by
    unfold Fits
    omega
  obtain ⟨hbinary, -, -, -, hoverflow, hneg, -⟩ := @binary_integers (-2 ^ 63) (-1) hleft
  obtain ⟨quotient, hdiv⟩ : ∃ quotient, Exact (-2 ^ 63) (-1) .div quotient :=
    ⟨_, exact_div_iff.mpr ⟨by decide, rfl⟩⟩
  have hmore := (hoverflow quotient hdiv).mpr ⟨rfl, rfl⟩
  exact ⟨hleft, (hbinary .div quotient).2 hdiv hmore, hneg rfl⟩

end MonkeyLang
