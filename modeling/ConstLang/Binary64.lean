/-
Binary64 numbers as exact data. A number is a sign and a magnitude; the magnitude is the
exponent field and the fraction field read as one natural number, so that magnitudes are
ordered as the absolute values are. A finite absolute value is `significand * 2 ^ scale`, counted
in units of `2^-1074`, and all arithmetic here is on natural numbers.

* `ofRatio` rounds a quotient to the nearest number, a tie to the even magnitude.
* `equal` is the comparison of the standard: the zeros are equal, and nothing equals a NaN.
-/

namespace ConstLang

/-- The magnitude of the infinities: all ones in the exponent field, zero in the fraction. -/
def infinityMagnitude : Nat := 2047 <<< 52

structure Binary64 where
  negative : Bool
  magnitude : Nat
  magnitude_lt : magnitude < 1 <<< 63
deriving DecidableEq

namespace Binary64

@[ext] theorem ext {x y : Binary64} (hn : x.negative = y.negative)
    (hm : x.magnitude = y.magnitude) : x = y := by
  cases x; cases y; cases hn; cases hm; rfl

/-- The number with a given 64-bit pattern. -/
def ofBits (pattern : Nat) : Binary64 :=
  ⟨pattern >>> 63 % 2 == 1, pattern % 1 <<< 63, Nat.mod_lt _ (by decide)⟩

/-- The 64-bit pattern of a number. -/
def bits (x : Binary64) : Nat := (if x.negative then 1 <<< 63 else 0) + x.magnitude

def infinity (negative : Bool) : Binary64 := ⟨negative, infinityMagnitude, by decide⟩

/-- The quiet NaN with an otherwise empty fraction. -/
def nan : Binary64 := ⟨false, infinityMagnitude + 1 <<< 51, by decide⟩

def isNaN (x : Binary64) : Bool := infinityMagnitude < x.magnitude

def isFinite (x : Binary64) : Bool := x.magnitude < infinityMagnitude

/-- The same number with the sign given. -/
def withSign (negative : Bool) (x : Binary64) : Binary64 := { x with negative }

/-- Equality of numbers: the two zeros are equal and a NaN equals nothing, itself included. -/
def equal (x y : Binary64) : Bool :=
  !x.isNaN && !y.isNaN && (x == y || (x.magnitude == 0 && y.magnitude == 0))

/-- The binary exponent of a finite number: its significand counts units of `2 ^ (scale - 1074)`. -/
def scale (x : Binary64) : Nat := x.magnitude >>> 52 - 1

/-- The significand of a finite number, with the leading bit that the fraction field leaves out. -/
def significand (x : Binary64) : Nat :=
  if x.magnitude < 1 <<< 52 then x.magnitude else 1 <<< 52 + x.magnitude % 1 <<< 52

/-- The whole number nearest to a quotient; of two equally near ones, the even one. -/
def roundHalfEven (numerator denominator : Nat) : Nat :=
  let low := numerator / denominator
  let twice := 2 * (numerator % denominator)
  if twice < denominator then low
  else if denominator < twice then low + 1
  else low + low % 2

/-- The number nearest to a quotient, a tie going to the even magnitude, and infinity for what
is too large. With the quotient counted in `2^-1074`, its neighbours are `2^shift` apart;
a significand that rounds up to `2^53` carries into the exponent field by itself. -/
def ofRatio (negative : Bool) (numerator denominator : Nat) : Binary64 :=
  let scaled := numerator <<< 1074
  let shift := (scaled / denominator).log2 - 52
  let nearest := shift <<< 52 + roundHalfEven scaled (denominator <<< shift)
  ⟨negative, min nearest infinityMagnitude,
    Nat.lt_of_le_of_lt (Nat.min_le_right _ _) (by decide)⟩

/-- Rounding depends on the quotient alone. -/
theorem roundHalfEven_mul_right (n d : Nat) {k : Nat} (hk : 0 < k) :
    roundHalfEven (n * k) (d * k) = roundHalfEven n d := by
  unfold roundHalfEven
  simp only [Nat.mul_div_mul_right _ _ hk, Nat.mul_mod_mul_right, ← Nat.mul_assoc,
    Nat.mul_lt_mul_right hk]

theorem mul_shiftLeft (n k e : Nat) : (n * k) <<< e = n <<< e * k := by
  rw [Nat.shiftLeft_eq, Nat.shiftLeft_eq, Nat.mul_right_comm]

theorem ofRatio_mul_right (s : Bool) (n d : Nat) {k : Nat} (hk : 0 < k) :
    ofRatio s (n * k) (d * k) = ofRatio s n d := by
  ext
  · rfl
  · simp only [ofRatio, mul_shiftLeft, Nat.mul_div_mul_right _ _ hk, roundHalfEven_mul_right _ _ hk]

end Binary64

end ConstLang
