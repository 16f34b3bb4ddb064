/-
The text of a number, read and written. Read are digits with an optional point among or around
them, an optional exponent and an optional sign, and the names of infinity and NaN in letters
of either case. Written are the shortest digits that read back, between `1e-4` and `1e16` as
digits around a point, outside with an exponent.
-/
import ConstLang.Binary64.Decimal

namespace ConstLang

namespace Numeral

/-- Why a text is not a number. -/
inductive Fault
  | empty
  | malformed
deriving DecidableEq

def Fault.text : Fault → String
  | empty => "cannot parse float from empty string"
  | malformed => "invalid float literal"

/-- The natural number that a run of digits stands for. -/
def ofDigits (digits : List Char) : Nat := Nat.ofDigitChars 10 digits 0

/-- The size of an exponent. Digits that follow after it has passed `65535` add nothing: the
number is then already zero or infinite, unless it has as many digits itself. -/
def exponentOfDigits (digits : List Char) : Nat :=
  digits.foldl (fun e c => if e < 65536 then 10 * e + (c.toNat - '0'.toNat) else e) 0

/-- Splits off a leading sign; whether it was a minus. -/
def splitSign : List Char → Bool × List Char
  | '-' :: cs => (true, cs)
  | '+' :: cs => (false, cs)
  | cs => (false, cs)

/-- The exponent that makes up a whole text: a letter, an optional sign and digits, or nothing. -/
def exponent? : List Char → Option Int
  | [] => some 0
  | c :: cs =>
    let (negative, digits) := splitSign cs
    if (c == 'e' || c == 'E') && !digits.isEmpty && digits.all Char.isDigit then
      let size : Int := exponentOfDigits digits
      some (if negative then -size else size)
    else none

/-- The digits after a point, and what follows them. -/
def splitFraction : List Char → List Char × List Char
  | '.' :: cs => (cs.takeWhile Char.isDigit, cs.dropWhile Char.isDigit)
  | cs => ([], cs)

/-- The decimal that makes up a whole text without a sign. -/
def decimal? (cs : List Char) : Option Decimal :=
  let whole := cs.takeWhile Char.isDigit
  let (fraction, rest) := splitFraction (cs.dropWhile Char.isDigit)
  if whole.isEmpty && fraction.isEmpty then none
  else (exponent? rest).map fun e => ⟨ofDigits (whole ++ fraction), e - fraction.length⟩

/-- Infinity and NaN by name. -/
def special? (cs : List Char) : Option Binary64 :=
  let name := cs.map Char.toLower
  if name = ['i', 'n', 'f'] ∨ name = ['i', 'n', 'f', 'i', 'n', 'i', 't', 'y'] then
    some (.infinity false)
  else if name = ['n', 'a', 'n'] then some .nan
  else none

/-- The number nearest to what a text says. -/
def read (text : String) : Except Fault Binary64 :=
  match text.toList with
  | [] => .error .empty
  | cs =>
    let (negative, unsigned) := splitSign cs
    match decimal? unsigned, special? unsigned with
    | some d, _ => .ok (d.toBinary64 negative)
    | none, some x => .ok (x.withSign negative)
    | none, none => .error .malformed

/-- Digits with the point behind the first `point` of them, at least one digit on each side. -/
def positional (digits : List Char) (point : Int) : List Char :=
  if point ≤ 0 then '0' :: '.' :: (List.replicate (-point).toNat '0' ++ digits)
  else if digits.length ≤ point.toNat then
    digits ++ List.replicate (point.toNat - digits.length) '0' ++ ['.', '0']
  else digits.take point.toNat ++ '.' :: digits.drop point.toNat

/-- Digits with a point behind the first one, if more follow, and an exponent. -/
def scientific (digits : List Char) (point : Int) : List Char :=
  let fraction := match digits.drop 1 with
    | [] => []
    | more => '.' :: more
  digits.take 1 ++ fraction ++ 'e' :: (point - 1).repr.toList

/-- The magnitudes that are written without an exponent, apart from zero: `1e-4` up to, and
not including, `1e16`. -/
def isPositional (magnitude : Nat) : Bool :=
  (Decimal.toBinary64 ⟨1, -4⟩ false).magnitude ≤ magnitude &&
    magnitude < (Decimal.toBinary64 ⟨1, 16⟩ false).magnitude

/-- The text of a finite number's absolute value. -/
def writeMagnitude (x : Binary64) : List Char :=
  if x.magnitude = 0 then ['0', '.', '0']
  else
    let decimal := x.shortest
    let digits := Nat.toDigits 10 decimal.coefficient
    let point := digits.length + decimal.exponent
    if isPositional x.magnitude then positional digits point else scientific digits point

/-- The text of a finite number. -/
def write (x : Binary64) : List Char :=
  if x.negative then '-' :: writeMagnitude x else writeMagnitude x

/-! ## Examples -/

example : write (.ofBits 0x8000000000000000) = ['-', '0', '.', '0'] := by decide +kernel

example : write (.ofBits 0x3f1a36e2eb1c432d) = ['0', '.', '0', '0', '0', '1'] := by decide +kernel

example : write (.ofBits 0x3eef75104d551d69) = ['1', '.', '5', 'e', '-', '5'] := by decide +kernel

example : write (.ofBits 0x412e848000000000) = ['1', '0', '0', '0', '0', '0', '0', '.', '0'] := by
  decide +kernel

example : write (.ofBits 0x4341c37937e08000) = ['1', 'e', '1', '6'] := by decide +kernel

/-- Of the smallest number's decimals of one digit, the nearest one is written. -/
example : write (.ofBits 1) = ['5', 'e', '-', '3', '2', '4'] := by decide +kernel

example :
    ((read "+.5e1").toOption.map Binary64.bits, (read "5.").toOption.map Binary64.bits)
      = (some 0x4014000000000000, some 0x4014000000000000) := by decide +kernel

example : (read "e1", read "1e") = (.error .malformed, .error .malformed) := by rfl

end Numeral

end ConstLang
