/-
What a finite number is worth. `units` counts its absolute value in units of `2^-1074`, and `toRat`
is the rational number that it stands for. Magnitudes are ordered as the absolute values are
(`units_lt_iff`). `equal_iff_equals`: numbers are equal if they are worth the same or are the same
infinity, so the zeros are equal, and a NaN equals nothing.
-/
import Mathlib.Algebra.Order.Ring.Rat
import Mathlib.Tactic.Positivity
import ConstLang.Proofs.Binary64.Exact

namespace ConstLang

namespace Binary64

/-- The absolute value of a finite number in units of `2^-1074`. -/
def units (x : Binary64) : Nat := x.significand * 2 ^ x.scale

/-- The rational number that a finite one stands for. -/
def toRat (x : Binary64) : ℚ := (if x.negative then -1 else 1) * (x.units / 2 ^ 1074)

/-- Equality as the standard has it. -/
inductive Equals : Binary64 → Binary64 → Prop
  | finite {x y : Binary64} (hx : x.isFinite) (hy : y.isFinite) (h : x.toRat = y.toRat) : Equals x y
  | infinite (negative : Bool) : Equals (.infinity negative) (.infinity negative)

variable {x y : Binary64}

/-! ## Order -/

theorem units_eq_of_magnitude (h : x.magnitude = y.magnitude) : x.units = y.units := by
  rw [units, units, significand_eq, significand_eq, scale_eq, scale_eq, h]

/-- **A larger magnitude is worth more.** -/
theorem units_lt_of_magnitude_lt (h : x.magnitude < y.magnitude) : x.units < y.units := by
  have hx := x.scale_add_significand
  have hy := y.scale_add_significand
  have hxlt := x.significand_lt
  have hylt := y.significand_lt
  have hxs := x.scale_eq_zero_or
  have hys := y.scale_eq_zero_or
  rw [units, units]
  rcases Nat.lt_trichotomy x.scale y.scale with hlt | heq | hgt
  · -- The significand of `y` has its leading bit, so it is more than any one down the scale.
    calc x.significand * 2 ^ x.scale
      _ < 2 ^ 53 * 2 ^ x.scale := Nat.mul_lt_mul_of_pos_right hxlt (Nat.two_pow_pos _)
      _ = 2 ^ 52 * 2 ^ (x.scale + 1) := by rw [Nat.pow_succ]; omega
      _ ≤ 2 ^ 52 * 2 ^ y.scale := Nat.mul_le_mul_left _ (Nat.pow_le_pow_right (by decide) hlt)
      _ ≤ y.significand * 2 ^ y.scale := Nat.mul_le_mul_right _ (by omega)
  · rw [heq] at hx ⊢
    exact Nat.mul_lt_mul_of_pos_right (by omega) (Nat.two_pow_pos _)
  · omega

theorem units_lt_iff : x.units < y.units ↔ x.magnitude < y.magnitude := by
  refine ⟨fun h => ?_, units_lt_of_magnitude_lt⟩
  rcases Nat.lt_trichotomy x.magnitude y.magnitude with hlt | heq | hgt
  · exact hlt
  · exact absurd (units_eq_of_magnitude heq) (Nat.ne_of_lt h)
  · exact absurd (units_lt_of_magnitude_lt hgt) (Nat.lt_asymm h)

theorem units_le_iff : x.units ≤ y.units ↔ x.magnitude ≤ y.magnitude := by
  rw [← Nat.not_lt, ← Nat.not_lt, units_lt_iff]

theorem units_eq_iff : x.units = y.units ↔ x.magnitude = y.magnitude := by
  rw [Nat.le_antisymm_iff, Nat.le_antisymm_iff, units_le_iff, units_le_iff]

theorem units_eq_zero_iff : x.units = 0 ↔ x.magnitude = 0 := by
  have hunit : ¬ 2 ^ x.scale = 0 := Nat.ne_of_gt (Nat.two_pow_pos _)
  rw [units, Nat.mul_eq_zero, or_iff_left hunit, significand_eq]
  split <;> omega

/-! ## Rational numbers -/

theorem toRat_of_not_negative (h : x.negative = false) : x.toRat = x.units / 2 ^ 1074 := by
  rw [toRat, h, if_neg Bool.false_ne_true, one_mul]

theorem toRat_of_negative (h : x.negative = true) : x.toRat = -(x.units / 2 ^ 1074) := by
  rw [toRat, if_pos h, neg_one_mul]

theorem toRat_eq_zero_iff : x.toRat = 0 ↔ x.magnitude = 0 := by
  rw [← units_eq_zero_iff, toRat]
  cases x.negative <;> simp

theorem units_div_inj :
    (x.units / 2 ^ 1074 : ℚ) = y.units / 2 ^ 1074 ↔ x.magnitude = y.magnitude := by
  have hunit : (2 ^ 1074 : ℚ) ≠ 0 := by positivity
  rw [div_left_inj' hunit, Nat.cast_inj, units_eq_iff]

/-- Only zeros are worth as much as what is worth the opposite. -/
theorem units_div_eq_neg_iff :
    (x.units / 2 ^ 1074 : ℚ) = -(y.units / 2 ^ 1074) ↔ x.magnitude = 0 ∧ y.magnitude = 0 := by
  have hunit : (2 ^ 1074 : ℚ) ≠ 0 := by positivity
  rw [← neg_div, div_left_inj' hunit, eq_neg_iff_add_eq_zero, ← units_eq_zero_iff,
    ← units_eq_zero_iff]
  exact_mod_cast Nat.add_eq_zero_iff

/-- **Numbers that are worth the same** are the same number, or zeros. -/
theorem toRat_eq_iff :
    x.toRat = y.toRat ↔ x = y ∨ (x.magnitude = 0 ∧ y.magnitude = 0) := by
  constructor
  · intro h
    cases hx : x.negative <;> cases hy : y.negative
    · rw [toRat_of_not_negative hx, toRat_of_not_negative hy, units_div_inj] at h
      exact .inl (ext (hx.trans hy.symm) h)
    · rw [toRat_of_not_negative hx, toRat_of_negative hy, units_div_eq_neg_iff] at h
      exact .inr h
    · rw [toRat_of_negative hx, toRat_of_not_negative hy, neg_eq_iff_eq_neg,
        units_div_eq_neg_iff] at h
      exact .inr h
    · rw [toRat_of_negative hx, toRat_of_negative hy, neg_inj, units_div_inj] at h
      exact .inl (ext (hx.trans hy.symm) h)
  · intro h
    rcases h with rfl | ⟨hx, hy⟩
    · rfl
    · rw [toRat_eq_zero_iff.mpr hx, toRat_eq_zero_iff.mpr hy]

/-! ## Equality -/

/-- What is neither finite nor a NaN is an infinity. -/
theorem eq_infinity (hfinite : x.isFinite = false) (hnan : x.isNaN = false) :
    x = infinity x.negative := by
  refine ext rfl (Nat.le_antisymm ?_ ?_)
  · exact Nat.not_lt.mp (of_decide_eq_false hnan)
  · exact Nat.not_lt.mp (of_decide_eq_false hfinite)

theorem isNaN_of_isFinite (h : x.isFinite) : x.isNaN = false :=
  decide_eq_false (Nat.lt_asymm (of_decide_eq_true h))

/-- **Numbers are equal as the standard has it.** -/
theorem equal_iff_equals : x.equal y ↔ x.Equals y := by
  simp only [equal, Bool.and_eq_true, Bool.not_eq_true', Bool.or_eq_true, beq_iff_eq]
  constructor
  · intro h
    obtain ⟨⟨hx, hy⟩, h⟩ := h
    cases hfinite : x.isFinite
    · rcases h with rfl | ⟨hzero, -⟩
      · rw [eq_infinity hfinite hx]
        exact .infinite _
      · exact absurd hfinite (by simp [isFinite, hzero, infinityMagnitude])
    · have hy' : y.isFinite := by
        rcases h with rfl | ⟨-, hzero⟩
        · exact hfinite
        · simp [isFinite, hzero, infinityMagnitude]
      exact .finite hfinite hy' (toRat_eq_iff.mpr h)
  · intro h
    cases h with
    | finite hx hy h =>
      exact ⟨⟨isNaN_of_isFinite hx, isNaN_of_isFinite hy⟩, toRat_eq_iff.mp h⟩
    | infinite negative => exact ⟨⟨rfl, rfl⟩, .inl rfl⟩

theorem Equals.symm (h : x.Equals y) : y.Equals x := by
  cases h with
  | finite hx hy h => exact .finite hy hx h.symm
  | infinite negative => exact .infinite negative

theorem Equals.trans {z : Binary64} (hxy : x.Equals y) (hyz : y.Equals z) : x.Equals z := by
  cases hxy with
  | finite hx hy hxy =>
    cases hyz with
    | finite _ hz hyz => exact .finite hx hz (hxy.trans hyz)
    | infinite negative => exact absurd hy (by simp [isFinite, infinity])
  | infinite negative => exact hyz

theorem equals_self_iff : x.Equals x ↔ x.isNaN = false := by
  rw [← equal_iff_equals]
  simp [equal]

end Binary64

end ConstLang
