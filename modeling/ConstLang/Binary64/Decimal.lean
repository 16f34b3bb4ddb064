/-
Decimals and binary64 numbers. `Decimal.toBinary64` rounds a decimal to the nearest number.
`Binary64.shortest` goes the other way: of the decimals that round to a number it takes one on
the coarsest decimal grid, so with the fewest digits, and of two neighbours there the nearer
one, the one away from zero if both are equally near. The search ends because the finest grid
holds the number's exact value.
-/
import ConstLang.Binary64

namespace ConstLang

/-- The number `coefficient * 10 ^ exponent`. -/
structure Decimal where
  coefficient : Nat
  exponent : Int
deriving DecidableEq

/-- The nearest binary64 number. -/
def Decimal.toBinary64 (d : Decimal) (negative : Bool) : Binary64 :=
  .ofRatio negative (d.coefficient * Nat.pow 10 d.exponent.toNat) (Nat.pow 10 (-d.exponent).toNat)

namespace Binary64

/-- The absolute value of a finite number, as it is: a power of two in the denominator becomes
one of ten, with as many fives in the coefficient. -/
def exactDecimal (x : Binary64) : Decimal :=
  let places := 1074 - x.scale
  ⟨x.significand <<< (x.scale - 1074) * Nat.pow 5 places, -places⟩

/-- Whether a decimal rounds to the absolute value of `x`. -/
def readsBack (x : Binary64) (d : Decimal) : Bool :=
  (d.toBinary64 false).magnitude == x.magnitude

/-- The better one of the two neighbours of `x` on the grid that is `10 ^ coarseness` times as
coarse as the one of its exact decimal, if one of them reads back. -/
def onGrid? (x : Binary64) (coarseness : Nat) : Option Decimal :=
  let exact := x.exactDecimal
  let unit := Nat.pow 10 coarseness
  let below : Decimal := ⟨exact.coefficient / unit, exact.exponent + coarseness⟩
  let above : Decimal := ⟨below.coefficient + 1, below.exponent⟩
  let belowIsNearer := 2 * (exact.coefficient % unit) < unit
  let near := if belowIsNearer then below else above
  let far := if belowIsNearer then above else below
  if x.readsBack near then some near
  else if x.readsBack far then some far
  else none

/-- The first decimal that is found on grids of falling coarseness. -/
def shortestFrom (x : Binary64) : Nat → Decimal
  | 0 => x.exactDecimal
  | coarseness + 1 => (x.onGrid? (coarseness + 1)).getD (x.shortestFrom coarseness)

/-- No less than the number of decimal digits of `n`: a bit is worth `0.30103` of a digit. -/
def digitBound (n : Nat) : Nat := (n.log2 + 1) * 30103 / 100000 + 1

/-- The shortest decimal that reads back as the absolute value of `x`. The search starts at a
grid on which nothing lies between zero and `x`. -/
def shortest (x : Binary64) : Decimal := x.shortestFrom (digitBound x.exactDecimal.coefficient)

end Binary64

end ConstLang
