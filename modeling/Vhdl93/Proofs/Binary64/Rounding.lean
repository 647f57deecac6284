import Mathlib.Algebra.Order.Field.Basic
import Mathlib.Data.Rat.Cast.Order
import Mathlib.Tactic.Linarith
import Mathlib.Tactic.Positivity
import Vhdl93.Proofs.Binary64.Grid

set_option autoImplicit false

/-!
Rounding to the nearest binary number. A number is what all the numbers nearer to it than to its
neighbours round to, and of the two numbers half way between neighbours the even neighbour is. No
number rounds to two.
-/

namespace Vhdl93.Binary64

/-- The exact value without the sign. Infinity counts as the power of two behind the largest number,
so that what lies beyond half way to it rounds to infinity. -/
def size (x : Binary64) : ℚ := x.significand * 2 ^ x.scale / 2 ^ 1074

/-- The number nearest to `q`, with a given sign. Of two nearest numbers it is the even one. -/
structure RoundsFrom (x : Binary64) (minus : Bool) (q : ℚ) : Prop where
  sign : x.negative = minus
  number : x.isNaN = false
  nearest : ∀ y : Binary64, y.isNaN = false → |q - x.size| ≤ |q - y.size|
  even : ∀ y : Binary64, y.isNaN = false → y.size ≠ x.size → |q - y.size| = |q - x.size| →
    x.significand % 2 = 0

def sizeAt (n : Nat) : ℚ := grid n / 2 ^ 1074

theorem size_eq (x : Binary64) : x.size = sizeAt x.order := by
  rw [size, sizeAt, grid_order]
  push_cast
  rfl

theorem sizeAt_strictMono : StrictMono sizeAt := by
  intro m n less
  have units : (grid m : ℚ) < grid n := by exact_mod_cast grid_strictMono less
  have unit : (0 : ℚ) < 2 ^ 1074 := by positivity
  exact div_lt_div_of_pos_right units unit

theorem sizeAt_lt_succ (n : Nat) : sizeAt n < sizeAt (n + 1) :=
  sizeAt_strictMono (Nat.lt_succ_self n)

section Between

variable {n k : Nat} {q : ℚ} (above : ∀ m, m + 1 = n → sizeAt m + sizeAt n ≤ 2 * q)
  (below : 2 * q ≤ sizeAt n + sizeAt (n + 1))

include above below

theorem nearest_of_between : |q - sizeAt n| ≤ |q - sizeAt k| := by
  rcases lt_trichotomy k n with less | rfl | more
  · obtain ⟨m, rfl⟩ := Nat.exists_eq_add_one_of_ne_zero (Nat.ne_zero_of_lt less)
    have half := above m rfl
    have apart : sizeAt k ≤ sizeAt m := sizeAt_strictMono.monotone (Nat.le_of_lt_succ less)
    have next := sizeAt_lt_succ m
    exact (abs_le.mpr ⟨by linarith, by linarith⟩).trans (le_abs_self _)
  · exact le_refl _
  · have apart : sizeAt (n + 1) ≤ sizeAt k := sizeAt_strictMono.monotone more
    have next := sizeAt_lt_succ n
    exact (abs_le.mpr ⟨by linarith, by linarith⟩).trans (neg_le_abs _)

theorem half_way_of_tie (other : k ≠ n) (tie : |q - sizeAt k| = |q - sizeAt n|) :
    (∃ m, m + 1 = n ∧ sizeAt m + sizeAt n = 2 * q) ∨ 2 * q = sizeAt n + sizeAt (n + 1) := by
  rcases Nat.lt_or_gt_of_ne other with less | more
  · obtain ⟨m, rfl⟩ := Nat.exists_eq_add_one_of_ne_zero (Nat.ne_zero_of_lt less)
    have half := above m rfl
    have apart : sizeAt k ≤ sizeAt m := sizeAt_strictMono.monotone (Nat.le_of_lt_succ less)
    have next := sizeAt_lt_succ m
    rw [abs_of_nonneg (by linarith)] at tie
    rcases abs_cases (q - sizeAt (m + 1)) with ⟨size, -⟩ | ⟨size, -⟩
    · linarith
    · exact .inl ⟨m, rfl, by linarith⟩
  · have apart : sizeAt (n + 1) ≤ sizeAt k := sizeAt_strictMono.monotone more
    have next := sizeAt_lt_succ n
    rw [abs_of_nonpos (by linarith)] at tie
    rcases abs_cases (q - sizeAt n) with ⟨size, -⟩ | ⟨size, -⟩
    · exact .inr (by linarith)
    · linarith

end Between

theorem RoundsFrom.of_between {x : Binary64} {q : ℚ} (number : x.isNaN = false)
    (above : ∀ m, m + 1 = x.order → sizeAt m + sizeAt x.order ≤ 2 * q)
    (below : 2 * q ≤ sizeAt x.order + sizeAt (x.order + 1))
    (inside : x.significand % 2 ≠ 0 →
      (∀ m, m + 1 = x.order → sizeAt m + sizeAt x.order < 2 * q) ∧
        2 * q < sizeAt x.order + sizeAt (x.order + 1)) :
    x.RoundsFrom x.negative q where
  sign := rfl
  number := number
  nearest y _ := by
    rw [size_eq, size_eq]
    exact nearest_of_between above below
  even y _ other tie := by
    rw [size_eq, size_eq] at tie
    by_contra odd
    obtain ⟨low, high⟩ := inside odd
    have apart : y.order ≠ x.order := fun same => other (by rw [size_eq, size_eq, same])
    rcases half_way_of_tie above below apart tie with ⟨m, next, half⟩ | half
    · exact absurd half (low m next).ne
    · exact absurd half high.ne

theorem RoundsFrom.order_le {x y : Binary64} {minus : Bool} {q : ℚ} (rounds : x.RoundsFrom minus q)
    (rounds' : y.RoundsFrom minus q) : y.order ≤ x.order := by
  by_contra less
  have apart : x.size ≠ y.size := by
    rw [size_eq, size_eq]
    exact (sizeAt_strictMono (by omega)).ne
  have tie := le_antisymm (rounds.nearest y rounds'.number) (rounds'.nearest x rounds.number)
  have even := rounds.even y rounds'.number apart.symm tie.symm
  have even' := rounds'.even x rounds.number apart tie
  rw [significand_parity] at even even'
  have numbered : ¬2047 * 2 ^ 52 < y.order := by
    rw [← isNaN_iff, rounds'.number]
    simp
  let z := ofOrder (x.order + 1)
  have placed : z.order = x.order + 1 := order_ofOrder (by omega)
  have number : z.isNaN = false := by
    rw [← Bool.not_eq_true, isNaN_iff, placed]
    omega
  have nearer := rounds.nearest z number
  simp only [size_eq, placed] at tie nearer
  have low : sizeAt x.order < sizeAt (x.order + 1) := sizeAt_lt_succ _
  have high : sizeAt (x.order + 1) < sizeAt y.order := sizeAt_strictMono (by omega)
  rcases abs_cases (q - sizeAt x.order) with ⟨a, _⟩ | ⟨a, _⟩ <;>
    rcases abs_cases (q - sizeAt y.order) with ⟨b, _⟩ | ⟨b, _⟩ <;>
    rcases abs_cases (q - sizeAt (x.order + 1)) with ⟨c, _⟩ | ⟨c, _⟩ <;> linarith

theorem RoundsFrom.unique {x y : Binary64} {minus : Bool} {q : ℚ} (rounds : x.RoundsFrom minus q)
    (rounds' : y.RoundsFrom minus q) : x = y :=
  eq_of_order (rounds.sign.trans rounds'.sign.symm)
    (Nat.le_antisymm (rounds'.order_le rounds) (rounds.order_le rounds'))

end Vhdl93.Binary64
