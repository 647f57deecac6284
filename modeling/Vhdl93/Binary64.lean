import Vhdl93.Decimal.Shortest
import Vhdl93.Decimal.Positional

set_option autoImplicit false

/-!
Binary floating-point numbers of 64 bits: a sign, eleven bits of exponent, fifty-two bits of
fraction. Comparison is that of numbers, so the two zeros are equal and a NaN differs from
everything. The text of a number has the fewest digits that identify it and no exponent.
-/

namespace Vhdl93

structure Binary64 where
  bits : UInt64
  deriving DecidableEq

namespace Binary64

def negative (x : Binary64) : Bool := 1 <<< 63 ≤ x.bits.toNat

def exponentField (x : Binary64) : Nat := x.bits.toNat / (1 <<< 52) % (1 <<< 11)

def fraction (x : Binary64) : Nat := x.bits.toNat % (1 <<< 52)

def isNaN (x : Binary64) : Bool := x.exponentField = 2047 && x.fraction ≠ 0

def isInfinite (x : Binary64) : Bool := x.exponentField = 2047 && x.fraction = 0

def isFinite (x : Binary64) : Bool := x.exponentField ≠ 2047

def isZero (x : Binary64) : Bool := x.exponentField = 0 && x.fraction = 0

def magnitude (x : Binary64) : Binary64 := ⟨UInt64.ofNat (x.bits.toNat % (1 <<< 63))⟩

/-- A finite number is `significand * 2 ^ (scale - 1074)`, up to the sign. -/
def significand (x : Binary64) : Nat :=
  if x.exponentField = 0 then x.fraction else (1 <<< 52) + x.fraction

def scale (x : Binary64) : Nat := x.exponentField - 1

def eqv (x y : Binary64) : Bool :=
  !x.isNaN && !y.isNaN && (x = y || (x.isZero && y.isZero))

instance : BEq Binary64 := ⟨eqv⟩

@[simp] theorem eqv_self (x : Binary64) : x.eqv x = !x.isNaN := by
  simp [eqv]

theorem eqv_comm (x y : Binary64) : x.eqv y = y.eqv x := by
  cases hx : x.isNaN <;> cases hy : y.isNaN <;> simp [eqv, hx, hy, Bool.and_comm, eq_comm]

def narrowBelow (x : Binary64) : Bool := x.fraction = 0 && 1 < x.exponentField

def spanExponent (x : Binary64) : Int := min 0 ((x.scale : Int) - 1076)

/-- The finite numbers that round to `x`, in units of `10 ^ x.spanExponent`: a quarter of the last
place of `x` is a whole number of units. Ties go to the even significand. -/
def span (x : Binary64) : Decimal.Span :=
  -- `2 ^ -n` is `5 ^ n * 10 ^ -n`, so one of the two factors is always one.
  let quarter := Nat.pow 5 (1076 - x.scale) * Nat.pow 2 (x.scale - 1076)
  let m := 4 * x.significand
  { low := (if x.narrowBelow then m - 1 else m - 2) * quarter
    value := m * quarter
    high := (m + 2) * quarter
    closed := x.significand % 2 = 0 }

def magnitudeText (x : Binary64) : String :=
  if x.isNaN then "NaN.0"
  else if x.isInfinite then "inf.0"
  -- Zero lies on every grid and has no leading digit to look for.
  else if x.isZero then "0.0"
  else
    let (digits, i) := x.span.shortest
    Decimal.positional digits (x.spanExponent + i)

end Binary64

end Vhdl93
