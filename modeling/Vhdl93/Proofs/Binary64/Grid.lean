import Mathlib.Algebra.Group.Nat.Defs
import Mathlib.Order.Monotone.Basic
import Vhdl93.Binary64

set_option autoImplicit false

/-!
The magnitudes of binary numbers as a grid. Counted upwards from zero, each magnitude is one unit of
its own exponent above the one before, also where the exponent changes; so the order of the bits is
the order of the numbers, and the parity of the bits is the parity of the significand.
-/

namespace Vhdl93.Binary64

/-- The magnitude with the number `n` among all, in units of `2 ^ -1074`. -/
def grid (n : Nat) : Nat :=
  (if n / 2 ^ 52 = 0 then n % 2 ^ 52 else 2 ^ 52 + n % 2 ^ 52) * 2 ^ (n / 2 ^ 52 - 1)

def order (x : Binary64) : Nat := x.bits.toNat % 2 ^ 63

theorem grid_succ (n : Nat) : grid (n + 1) = grid n + 2 ^ (n / 2 ^ 52 - 1) := by
  by_cases carry : n % 2 ^ 52 + 1 = 2 ^ 52
  · -- The fraction runs over, and the significand starts again at the next exponent.
    have quotient : (n + 1) / 2 ^ 52 = n / 2 ^ 52 + 1 := by omega
    have remainder : (n + 1) % 2 ^ 52 = 0 := by omega
    have last : n % 2 ^ 52 = 2 ^ 52 - 1 := by omega
    simp only [grid, quotient, remainder, last]
    cases n / 2 ^ 52 with
    | zero => simp
    | succ e => simp [Nat.pow_succ]; omega
  · have quotient : (n + 1) / 2 ^ 52 = n / 2 ^ 52 := by omega
    have remainder : (n + 1) % 2 ^ 52 = n % 2 ^ 52 + 1 := by omega
    simp only [grid, quotient, remainder]
    split <;> simp only [← Nat.add_one_mul, Nat.add_assoc]

theorem grid_strictMono : StrictMono grid :=
  strictMono_nat_of_lt_succ fun n => by
    have unit := Nat.two_pow_pos (n / 2 ^ 52 - 1)
    rw [grid_succ]
    omega

variable (x y : Binary64)

theorem order_lt : x.order < 2 ^ 63 := Nat.mod_lt _ (by decide)

theorem exponentField_eq : x.exponentField = x.order / 2 ^ 52 := by
  simp only [exponentField, order, Nat.reduceShiftLeft, Nat.reducePow]
  omega

theorem fraction_eq : x.fraction = x.order % 2 ^ 52 := by
  simp only [fraction, order, Nat.reduceShiftLeft, Nat.reducePow]
  omega

theorem grid_order : grid x.order = x.significand * 2 ^ x.scale := by
  simp only [grid, significand, scale, exponentField_eq, fraction_eq, Nat.reduceShiftLeft,
    Nat.reducePow]

theorem significand_parity : x.significand % 2 = x.order % 2 := by
  simp only [significand, exponentField_eq, fraction_eq, Nat.reduceShiftLeft, Nat.reducePow]
  split <;> omega

theorem isNaN_iff : x.isNaN = true ↔ 2047 * 2 ^ 52 < x.order := by
  have bound := x.order_lt
  simp only [isNaN, exponentField_eq, fraction_eq, Bool.and_eq_true, decide_eq_true_eq]
  omega

theorem isZero_iff : x.isZero = true ↔ x.order = 0 := by
  simp only [isZero, exponentField_eq, fraction_eq, Bool.and_eq_true, decide_eq_true_eq]
  omega

theorem isNaN_of_isFinite (finite : x.isFinite = true) : x.isNaN = false := by
  simp only [isFinite, ne_eq, decide_eq_true_eq] at finite
  simp [isNaN, finite]

theorem order_magnitude : x.magnitude.order = x.order := by
  simp only [order, magnitude, Nat.reduceShiftLeft, UInt64.toNat_ofNat']
  omega

theorem isFinite_magnitude : x.magnitude.isFinite = x.isFinite := by
  simp only [isFinite, exponentField_eq, order_magnitude]

variable {x y}

theorem eq_of_order (sign : x.negative = y.negative) (same : x.order = y.order) : x = y := by
  have low := x.bits.toNat_lt
  have low' := y.bits.toNat_lt
  simp only [negative, order, Nat.reduceShiftLeft, decide_eq_decide, Nat.reducePow] at sign same
  obtain ⟨bits⟩ := x
  obtain ⟨bits'⟩ := y
  rw [mk.injEq, ← UInt64.toNat_inj]
  simp only at low low' sign same
  omega

def ofOrder (n : Nat) : Binary64 := ⟨UInt64.ofNat n⟩

theorem order_ofOrder {n : Nat} (small : n < 2 ^ 63) : (ofOrder n).order = n := by
  simp only [order, ofOrder, UInt64.toNat_ofNat']
  omega

end Vhdl93.Binary64
