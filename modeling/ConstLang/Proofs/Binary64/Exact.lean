/-
What is written reads back. A finite number is `significand * 2 ^ scale` units, and a quotient
that is just that much rounds to the number, `magnitude_ofRatio`. So the exact decimal of a
number reads back as its absolute value, and with it the shortest one: each decimal that the
search tries is tested, and if no other one passes the exact one is left.
-/
import Mathlib.Algebra.Group.Nat.Defs
import ConstLang.Binary64.Decimal

namespace ConstLang

namespace Binary64

/-- Quotients of the same value round to the same number. -/
theorem ofRatio_congr (s : Bool) {n₁ n₂ d₁ d₂ : Nat} (h₁ : 0 < d₁) (h₂ : 0 < d₂)
    (h : n₁ * d₂ = n₂ * d₁) : ofRatio s n₁ d₁ = ofRatio s n₂ d₂ := by
  rw [← ofRatio_mul_right s n₁ d₁ h₂, ← ofRatio_mul_right s n₂ d₂ h₁, h, Nat.mul_comm d₁ d₂]

theorem roundHalfEven_mul (n : Nat) {d : Nat} (hd : 0 < d) : roundHalfEven (n * d) d = n := by
  simp only [roundHalfEven, Nat.mul_div_cancel n hd, Nat.mul_mod_left]
  rw [if_pos (by omega)]

/-! ## Significand and scale -/

section

variable (x : Binary64)

theorem scale_eq : x.scale = x.magnitude / 2 ^ 52 - 1 := by
  rw [scale, Nat.shiftRight_eq_div_pow]

theorem significand_eq : x.significand =
    if x.magnitude < 2 ^ 52 then x.magnitude else 2 ^ 52 + x.magnitude % 2 ^ 52 := rfl

theorem significand_lt : x.significand < 2 ^ 53 := by
  rw [significand_eq]
  split <;> omega

theorem scale_le : x.scale ≤ 2046 := by
  have := x.magnitude_lt
  rw [scale_eq]
  omega

/-- Only at the bottom of the scale is the leading bit left out. -/
theorem scale_eq_zero_or : x.scale = 0 ∨ 2 ^ 52 ≤ x.significand := by
  rw [scale_eq, significand_eq]
  split <;> omega

/-- The leading bit carries into the exponent field. -/
theorem scale_add_significand : x.scale * 2 ^ 52 + x.significand = x.magnitude := by
  rw [scale_eq, significand_eq]
  split <;> omega

theorem log2_units : (x.significand * 2 ^ x.scale).log2 - 52 = x.scale := by
  have hlt := x.significand_lt
  by_cases h0 : x.significand = 0
  · have hs := x.scale_eq_zero_or.resolve_right (by omega)
    rw [h0, hs, Nat.zero_mul, Nat.log2_zero]
  have hne : x.significand * 2 ^ x.scale ≠ 0 :=
    Nat.mul_ne_zero h0 (Nat.ne_of_gt (Nat.two_pow_pos _))
  have hupper : (x.significand * 2 ^ x.scale).log2 < 53 + x.scale := by
    rw [Nat.log2_lt hne, Nat.pow_add]
    exact Nat.mul_lt_mul_of_pos_right hlt (Nat.two_pow_pos _)
  rcases x.scale_eq_zero_or with hs | hs
  · omega
  have hlower : 52 + x.scale ≤ (x.significand * 2 ^ x.scale).log2 := by
    rw [Nat.le_log2 hne, Nat.pow_add]
    exact Nat.mul_le_mul_right _ hs
  omega

end

/-- **What a number can hold is not rounded**: a quotient of as many units as `x` has gives the
magnitude of `x`. -/
theorem magnitude_ofRatio (s : Bool) {x : Binary64} (hx : x.isFinite) {n d : Nat} (hd : 0 < d)
    (h : n <<< 1074 = x.significand * 2 ^ x.scale * d) :
    (ofRatio s n d).magnitude = x.magnitude := by
  have hquot : n <<< 1074 / d = x.significand * 2 ^ x.scale := by
    rw [h, Nat.mul_div_cancel _ hd]
  have hround : roundHalfEven (n <<< 1074) (d <<< x.scale) = x.significand := by
    have hpos : 0 < d <<< x.scale := by
      rw [Nat.shiftLeft_eq]
      exact Nat.mul_pos hd (Nat.two_pow_pos _)
    have heq : n <<< 1074 = x.significand * d <<< x.scale := by
      rw [h, Nat.shiftLeft_eq, Nat.mul_assoc, Nat.mul_comm d]
    rw [heq, roundHalfEven_mul _ hpos]
  have hlt : x.magnitude < infinityMagnitude := of_decide_eq_true hx
  simp only [ofRatio, hquot, log2_units, hround]
  rw [Nat.shiftLeft_eq, scale_add_significand, Nat.min_eq_left (Nat.le_of_lt hlt)]

/-! ## Decimals -/

theorem toBinary64_mul_pow (s : Bool) (c k : Nat) (e : Int) :
    Decimal.toBinary64 ⟨c * 10 ^ k, e - k⟩ s = Decimal.toBinary64 ⟨c, e⟩ s := by
  have hsum : k + (e - k).toNat + (-e).toNat = e.toNat + (-(e - k)).toNat := by omega
  apply ofRatio_congr s (Nat.pow_pos (by decide)) (Nat.pow_pos (by decide))
  simp only [Nat.pow_eq, Nat.mul_assoc, ← Nat.pow_add]
  rw [hsum]

theorem magnitude_toBinary64 (d : Decimal) (s : Bool) :
    (d.toBinary64 s).magnitude = (d.toBinary64 false).magnitude := rfl

/-- The exact decimal of a number reads back. -/
theorem magnitude_exactDecimal {x : Binary64} (hx : x.isFinite) (s : Bool) :
    (x.exactDecimal.toBinary64 s).magnitude = x.magnitude := by
  have hsum : x.scale - 1074 + 1074 = x.scale + (1074 - x.scale) := by omega
  have hten : 10 ^ (1074 - x.scale) = 2 ^ (1074 - x.scale) * 5 ^ (1074 - x.scale) :=
    Nat.mul_pow 2 5 _
  apply magnitude_ofRatio s hx (Nat.pow_pos (by decide))
  simp only [exactDecimal, Nat.pow_eq, Int.neg_neg, Int.toNat_natCast, Int.toNat_neg_natCast,
    Nat.pow_zero, Nat.mul_one]
  rw [mul_shiftLeft, ← Nat.shiftLeft_add, hsum, Nat.shiftLeft_eq, Nat.pow_add, hten,
    ← Nat.mul_assoc, ← Nat.mul_assoc]

/-! ## The search -/

theorem readsBack_iff {x : Binary64} {d : Decimal} :
    x.readsBack d ↔ ∀ s, (d.toBinary64 s).magnitude = x.magnitude := by
  simp only [readsBack, beq_iff_eq, magnitude_toBinary64 d]
  exact ⟨fun h _ => h, fun h => h false⟩

/-- What the search may find: a decimal near the exact one, on a grid that is not too coarse. -/
structure Found (x : Binary64) (coarseness : Nat) (d : Decimal) : Prop where
  readsBack : x.readsBack d
  coefficient_le : d.coefficient ≤ x.exactDecimal.coefficient + 1
  le_exponent : x.exactDecimal.exponent ≤ d.exponent
  exponent_le : d.exponent ≤ x.exactDecimal.exponent + coarseness

/-- What is found on a grid reads back, and is one of the two neighbours there. -/
theorem readsBack_of_onGrid? {x : Binary64} {coarseness : Nat} {d : Decimal}
    (h : x.onGrid? coarseness = some d) :
    x.readsBack d ∧ d.exponent = x.exactDecimal.exponent + coarseness ∧
      d.coefficient ≤ x.exactDecimal.coefficient / 10 ^ coarseness + 1 := by
  by_cases hb : 2 * (x.exactDecimal.coefficient % Nat.pow 10 coarseness) < Nat.pow 10 coarseness
  all_goals
    simp only [onGrid?, hb, ↓reduceIte] at h
    split at h
    · next hr =>
      cases h
      exact ⟨hr, rfl, by simp⟩
    · split at h
      · next hr =>
        cases h
        exact ⟨hr, rfl, by simp⟩
      · cases h

theorem found_of_onGrid? {x : Binary64} {coarseness : Nat} {d : Decimal}
    (h : x.onGrid? coarseness = some d) : x.Found coarseness d := by
  obtain ⟨hr, he, hc⟩ := readsBack_of_onGrid? h
  have := Nat.div_le_self x.exactDecimal.coefficient (10 ^ coarseness)
  exact ⟨hr, by omega, by omega, by omega⟩

theorem found_shortestFrom {x : Binary64} (hx : x.isFinite) :
    ∀ coarseness, x.Found coarseness (x.shortestFrom coarseness)
  | 0 => by
    have hr := readsBack_iff.mpr (magnitude_exactDecimal hx)
    exact ⟨hr, Nat.le_succ _, Int.le_refl _, by simp [shortestFrom]⟩
  | coarseness + 1 => by
    rw [shortestFrom]
    cases h : x.onGrid? (coarseness + 1) with
    | some d => exact found_of_onGrid? h
    | none =>
      obtain ⟨hr, hc, hl, hu⟩ := found_shortestFrom hx coarseness
      exact ⟨hr, hc, hl, by rw [Option.getD_none]; omega⟩

/-- **The shortest decimal reads back.** -/
theorem magnitude_shortest {x : Binary64} (hx : x.isFinite) (s : Bool) :
    (x.shortest.toBinary64 s).magnitude = x.magnitude :=
  readsBack_iff.mp (found_shortestFrom hx _).readsBack s

/-! ## How long it can be -/

/-- The exact decimal has at most `1127` digits. -/
theorem exists_coefficient_exactDecimal_lt (x : Binary64) :
    ∃ digits ≤ 1127, x.exactDecimal.coefficient < 10 ^ digits := by
  have hscale := x.scale_le
  have htwo : 2 ^ (x.scale - 1074) ≤ 10 ^ (x.scale - 1074) := Nat.pow_le_pow_left (by decide) _
  have hfive : 5 ^ (1074 - x.scale) ≤ 10 ^ (1074 - x.scale) := Nat.pow_le_pow_left (by decide) _
  have hsig : x.significand < 10 ^ 53 :=
    Nat.lt_of_lt_of_le x.significand_lt (Nat.pow_le_pow_left (by decide) _)
  refine ⟨53 + (x.scale - 1074 + (1074 - x.scale)), by omega, ?_⟩
  simp only [exactDecimal, Nat.shiftLeft_eq, Nat.pow_eq]
  calc x.significand * 2 ^ (x.scale - 1074) * 5 ^ (1074 - x.scale)
    _ ≤ x.significand * 10 ^ (x.scale - 1074) * 10 ^ (1074 - x.scale) :=
      Nat.mul_le_mul (Nat.mul_le_mul_left _ htwo) hfive
    _ = x.significand * 10 ^ (x.scale - 1074 + (1074 - x.scale)) := by
      rw [Nat.mul_assoc, ← Nat.pow_add]
    _ < 10 ^ 53 * 10 ^ (x.scale - 1074 + (1074 - x.scale)) :=
      Nat.mul_lt_mul_of_pos_right hsig (Nat.pow_pos (by decide))
    _ = 10 ^ (53 + (x.scale - 1074 + (1074 - x.scale))) := (Nat.pow_add _ _ _).symm

theorem digitBound_le {n digits : Nat} (h : n < 10 ^ digits) : digitBound n ≤ 2 * digits + 1 := by
  have hpow : 10 ^ digits ≤ 2 ^ (4 * digits) := by
    rw [Nat.pow_mul]
    exact Nat.pow_le_pow_left (by decide) _
  have hlog : n.log2 ≤ 4 * digits := by
    by_cases h0 : n = 0
    · rw [h0, Nat.log2_zero]
      exact Nat.zero_le _
    · exact Nat.le_of_lt ((Nat.log2_lt h0).mpr (Nat.lt_of_lt_of_le h hpow))
  unfold digitBound
  omega

/-- The shortest decimal has hardly more digits than the exact one. -/
theorem exists_coefficient_shortest_lt {x : Binary64} (hx : x.isFinite) :
    ∃ digits ≤ 1128, x.shortest.coefficient < 10 ^ digits := by
  obtain ⟨digits, hle, hlt⟩ := x.exists_coefficient_exactDecimal_lt
  have hc := (found_shortestFrom hx (digitBound x.exactDecimal.coefficient)).coefficient_le
  have hpow : 10 ^ (digits + 1) = 10 ^ digits * 10 := rfl
  refine ⟨digits + 1, by omega, ?_⟩
  rw [shortest]
  omega

theorem exponent_shortest_bounds {x : Binary64} (hx : x.isFinite) :
    -1074 ≤ x.shortest.exponent ∧ x.shortest.exponent ≤ 2255 := by
  obtain ⟨digits, hle, hlt⟩ := x.exists_coefficient_exactDecimal_lt
  obtain ⟨-, -, hl, hu⟩ := found_shortestFrom hx (digitBound x.exactDecimal.coefficient)
  have hbound := digitBound_le hlt
  have hexp : x.exactDecimal.exponent = -(1074 - x.scale : Nat) := rfl
  rw [shortest]
  omega

theorem magnitude_toBinary64_zero (e : Int) (s : Bool) :
    (Decimal.toBinary64 ⟨0, e⟩ s).magnitude = 0 := by
  simp [Decimal.toBinary64, ofRatio, roundHalfEven]

/-- What is not zero is not written as zero. -/
theorem coefficient_pos {x : Binary64} (hx : x.magnitude ≠ 0) {d : Decimal}
    (h : (d.toBinary64 false).magnitude = x.magnitude) : 0 < d.coefficient := by
  obtain ⟨c, e⟩ := d
  rcases Nat.eq_zero_or_pos c with rfl | hpos
  · rw [magnitude_toBinary64_zero] at h
    exact absurd h.symm hx
  · exact hpos

end Binary64

end ConstLang
