import Mathlib.Algebra.Order.Field.Power
import Mathlib.Tactic.Ring
import Vhdl93.Proofs.Binary64.Rounding
import Vhdl93.Proofs.Decimal.Numeral
import Vhdl93.Proofs.Inline.Text

set_option autoImplicit false

namespace Vhdl93

namespace Binary64

open Decimal (Numeral)

variable (x : Binary64)

theorem quarter_units :
    ((Nat.pow 5 (1076 - x.scale) * Nat.pow 2 (x.scale - 1076) : ℕ) : ℚ) * 10 ^ x.spanExponent =
      2 ^ x.scale / 2 ^ 1074 / 4 := by
  have units : (2 : ℚ) ^ 1076 = 2 ^ 1074 * 4 := by
    rw [show (4 : ℚ) = 2 ^ 2 by norm_num, ← pow_add]
  rw [div_div, ← units]
  rcases Nat.le_total x.scale 1076 with small | large
  · have none : x.scale - 1076 = 0 := by omega
    have exponent : x.spanExponent = -((1076 - x.scale : ℕ) : Int) := by
      simp only [spanExponent]
      omega
    have split : (2 : ℚ) ^ 1076 = 2 ^ x.scale * 2 ^ (1076 - x.scale) := by
      rw [← pow_add, Nat.add_sub_cancel' small]
    have ten : (10 : ℚ) ^ (1076 - x.scale) = 2 ^ (1076 - x.scale) * 5 ^ (1076 - x.scale) := by
      rw [← mul_pow]
      norm_num
    rw [none, exponent, split, zpow_neg, zpow_natCast, ten]
    simp only [Nat.pow_eq]
    push_cast
    field_simp
  · have none : 1076 - x.scale = 0 := by omega
    have exponent : x.spanExponent = 0 := by
      simp only [spanExponent]
      omega
    have split : (2 : ℚ) ^ x.scale = 2 ^ (x.scale - 1076) * 2 ^ 1076 := by
      rw [← pow_add, Nat.sub_add_cancel large]
    have cancels : (2 : ℚ) ^ 1076 ≠ 0 := pow_ne_zero _ two_ne_zero
    rw [none, exponent, split, zpow_zero, mul_one, mul_div_cancel_right₀ _ cancels]
    simp only [Nat.pow_eq, pow_zero, one_mul, Nat.cast_pow, Nat.cast_ofNat]

theorem span_high :
    2 * (x.span.high * 10 ^ x.spanExponent : ℚ) = sizeAt x.order + sizeAt (x.order + 1) := by
  have next : grid (x.order + 1) = (x.significand + 1) * 2 ^ x.scale := by
    rw [grid_succ, grid_order, Nat.add_one_mul, scale, exponentField_eq]
  have units := x.quarter_units
  simp only [sizeAt, next, grid_order, span]
  push_cast at units ⊢
  rw [mul_assoc _ _ (10 ^ x.spanExponent : ℚ), units]
  generalize (2 : ℚ) ^ 1074 = unit
  ring

theorem significand_pos (nonzero : x.order ≠ 0) : 1 ≤ x.significand := by
  by_contra none
  have zero := x.grid_order
  have below : grid 0 < grid x.order := grid_strictMono (Nat.pos_of_ne_zero nonzero)
  simp_all

theorem span_low {n : Nat} (next : n + 1 = x.order) :
    2 * (x.span.low * 10 ^ x.spanExponent : ℚ) = sizeAt n + sizeAt x.order := by
  have positive := x.significand_pos (by omega)
  have step := grid_succ n
  rw [next, grid_order] at step
  have units := x.quarter_units
  have before : (grid n : ℚ) = x.significand * 2 ^ x.scale - 2 ^ (n / 2 ^ 52 - 1) := by
    rw [eq_sub_iff_add_eq]
    exact_mod_cast step.symm
  simp only [sizeAt, before, grid_order, span]
  -- Below a power of two the last place is half as wide.
  cases narrow : x.narrowBelow with
  | false =>
    have same : n / 2 ^ 52 - 1 = x.scale := by
      simp only [narrowBelow, scale, exponentField_eq, fraction_eq, Bool.and_eq_false_iff,
        decide_eq_false_iff_not] at narrow ⊢
      omega
    have low : ((4 * x.significand - 2 : ℕ) : ℚ) = 4 * x.significand - 2 := by
      rw [Nat.cast_sub (by omega)]
      push_cast
      rfl
    simp only [same, Bool.false_eq_true, if_false, Nat.cast_mul, Nat.cast_pow, Nat.cast_ofNat,
      low] at units ⊢
    rw [mul_assoc _ _ (10 ^ x.spanExponent : ℚ), units]
    generalize (2 : ℚ) ^ 1074 = unit
    ring
  | true =>
    have half : x.scale = n / 2 ^ 52 - 1 + 1 := by
      simp only [narrowBelow, scale, exponentField_eq, fraction_eq, Bool.and_eq_true,
        decide_eq_true_eq] at narrow ⊢
      omega
    have low : ((4 * x.significand - 1 : ℕ) : ℚ) = 4 * x.significand - 1 := by
      rw [Nat.cast_sub (by omega)]
      push_cast
      rfl
    simp only [if_true, Nat.cast_mul, Nat.cast_pow, Nat.cast_ofNat, low] at units ⊢
    rw [mul_assoc _ _ (10 ^ x.spanExponent : ℚ), units, half, pow_succ]
    generalize (2 : ℚ) ^ 1074 = unit
    ring

theorem contains_own (nonzero : x.order ≠ 0) : x.span.contains x.span.value = true := by
  have positive := x.significand_pos nonzero
  have quarter : 0 < Nat.pow 5 (1076 - x.scale) * Nat.pow 2 (x.scale - 1076) :=
    Nat.mul_pos (Nat.pow_pos (by decide)) (Nat.pow_pos (by decide))
  have below : x.span.low < x.span.value := by
    simp only [span]
    apply Nat.mul_lt_mul_of_pos_right _ quarter
    split <;> omega
  have above : x.span.value < x.span.high := by
    simp only [span]
    apply Nat.mul_lt_mul_of_pos_right _ quarter
    omega
  simp only [Decimal.Span.contains]
  split <;> simp <;> omega

theorem RoundsFrom.of_span {x : Binary64} {d : Nat} (number : x.isNaN = false)
    (inside : x.span.contains d = true) :
    x.RoundsFrom x.negative (d * 10 ^ x.spanExponent) := by
  have unit : (0 : ℚ) < 10 ^ x.spanExponent := by positivity
  have high := x.span_high
  have closed : x.span.closed = decide (x.significand % 2 = 0) := rfl
  rw [Decimal.Span.contains, closed] at inside
  have scaled {a b : Nat} (le : a ≤ b) :
      (a * 10 ^ x.spanExponent : ℚ) ≤ b * 10 ^ x.spanExponent :=
    mul_le_mul_of_nonneg_right (by exact_mod_cast le) unit.le
  have scaled' {a b : Nat} (less : a < b) :
      (a * 10 ^ x.spanExponent : ℚ) < b * 10 ^ x.spanExponent :=
    mul_lt_mul_of_pos_right (by exact_mod_cast less) unit
  have bounds : x.span.low ≤ d ∧ d ≤ x.span.high := by
    split at inside <;> simp at inside <;> omega
  refine .of_between number ?_ ?_ ?_
  · intro n next
    rw [← x.span_low next]
    have := scaled bounds.1
    linarith
  · rw [← high]
    have := scaled bounds.2
    linarith
  · intro odd
    simp only [odd, decide_false, Bool.false_eq_true, if_false, Bool.and_eq_true,
      decide_eq_true_eq] at inside
    refine ⟨?_, ?_⟩
    · intro n next
      rw [← x.span_low next]
      have := scaled' inside.1
      linarith
    · rw [← high]
      have := scaled' inside.2
      linarith

theorem RoundsFrom.of_order {x y : Binary64} {minus : Bool} {q : ℚ} (same : y.order = x.order)
    (rounds : x.RoundsFrom minus q) : y.RoundsFrom y.negative q where
  sign := rfl
  number := by
    rw [← Bool.not_eq_true, isNaN_iff, same, ← isNaN_iff, rounds.number]
    simp
  nearest z number := by
    rw [size_eq, same, ← size_eq]
    exact rounds.nearest z number
  even z number := by
    rw [size_eq y, same, ← size_eq x, significand_parity, same, ← significand_parity]
    exact rounds.even z number

theorem exists_numeral {x : Binary64} (finite : x.isFinite = true) (minus : Bool) :
    ∃ n : Numeral, n.minus = minus ∧
      n.text.toList = Numeral.sign minus ++ x.magnitudeText.toList ∧
      x.RoundsFrom x.negative n.size := by
  have number := x.isNaN_of_isFinite finite
  have bounded : x.isInfinite = false := by
    simp only [isFinite, ne_eq, decide_eq_true_eq] at finite
    simp [isInfinite, finite]
  by_cases zero : x.order = 0
  · have isZero := x.isZero_iff.mpr zero
    refine ⟨⟨minus, ['0'], ['0'], by simp, by simp, by decide⟩, rfl, ?_, ?_⟩
    · simp [magnitudeText, number, bounded, isZero, Numeral.text]
    · have least : Numeral.size ⟨minus, ['0'], ['0'], by simp, by simp, by decide⟩ = 0 := by
        simp [Numeral.size, Nat.ofDigitChars_cons]
      have above : sizeAt 0 < sizeAt 1 := sizeAt_strictMono (by decide)
      have none : sizeAt 0 = 0 := by simp [sizeAt, grid]
      rw [least]
      refine .of_between number ?_ ?_ ?_
      · omega
      · rw [zero]
        linarith
      · rw [significand_parity, zero]
        simp
  · have isZero : x.isZero = false := by
      rw [← Bool.not_eq_true, isZero_iff]
      exact zero
    have inside := Decimal.Span.contains_search x.span (x.contains_own zero)
      (Nat.toDigits 10 x.span.high).length
    obtain ⟨n, sign, text, size⟩ := Decimal.exists_numeral_positional minus x.span.shortest.1
      (x.spanExponent + x.span.shortest.2)
    refine ⟨n, sign, ?_, ?_⟩
    · simp [text, magnitudeText, number, bounded, isZero]
    · have units : n.size = (x.span.shortest.1 * Nat.pow 10 x.span.shortest.2 : ℕ) *
          10 ^ x.spanExponent := by
        rw [size, zpow_add₀ (by norm_num), zpow_natCast, Nat.pow_eq]
        push_cast
        ring
      rw [units]
      exact .of_span number inside

end Binary64

namespace Literal

open Decimal (Numeral)

theorem exists_numeral {x : Binary64} (finite : x.isFinite = true) :
    ∃ n : Numeral, (real x).text = n.text ∧ n.minus = x.negative ∧
      x.RoundsFrom x.negative n.size := by
  have number := x.isNaN_of_isFinite finite
  cases sign : x.negative with
  | false =>
    obtain ⟨n, plus, text, rounds⟩ := x.exists_numeral finite false
    refine ⟨n, ?_, plus, sign ▸ rounds⟩
    rw [← String.toList_inj, text]
    simp [Literal.text, pieces, sign, Piece.text, Token.text, Numeral.sign]
  | true =>
    obtain ⟨n, minus, text, rounds⟩ :=
      x.magnitude.exists_numeral (by rw [x.isFinite_magnitude, finite]) true
    refine ⟨n, ?_, minus, sign ▸ rounds.of_order x.order_magnitude.symm⟩
    rw [← String.toList_inj, text]
    simp [Literal.text, pieces, sign, number, Piece.text, Token.text, Piece.symbol, Symbol.text,
      Numeral.sign]

/-- A finite real is written as a numeral with a minus if its sign bit is set, and of all binary
numbers it alone is what the numeral rounds to. So no two of them are written alike, and none is
written like an integer. -/
theorem real_denotes {x : Binary64} (finite : x.isFinite = true) :
    (∃ n : Numeral, (real x).text = n.text ∧ n.minus = x.negative ∧
        ∀ y : Binary64, y.RoundsFrom n.minus n.size ↔ y = x) ∧
      (∀ y : Binary64, y.isFinite = true → ((real x).text = (real y).text ↔ x = y)) ∧
      ∀ k : Nat, (real x).text ≠ (integer k).text := by
  obtain ⟨n, text, minus, rounds⟩ := exists_numeral finite
  refine ⟨⟨n, text, minus, ?_⟩, ?_, ?_⟩
  · intro y
    rw [minus]
    exact ⟨fun rounds' => rounds'.unique rounds, fun same => same ▸ rounds⟩
  · intro y finite'
    refine ⟨?_, fun same => same ▸ rfl⟩
    intro same
    obtain ⟨m, text', minus', rounds'⟩ := exists_numeral finite'
    obtain rfl : m = n := Numeral.text_injective (by rw [← text', ← same, text])
    rw [← minus] at rounds
    rw [← minus'] at rounds'
    exact rounds.unique rounds'
  · intro k same
    have point := n.point_mem_text
    rw [← text, same] at point
    simp only [Literal.text, pieces, Pieces.text_cons, Pieces.text_nil, Piece.text, Token.text,
      String.append_empty, Nat.toList_repr] at point
    exact absurd (List.all_eq_true.mp (Decimal.isDigit_toDigits k) _ point) (by decide)

theorem real_denotes_of_tenth :
    let x : Binary64 := ⟨0xBFB999999999999A⟩
    x.isFinite = true ∧ (real x).text = "-0.1" ∧ x.RoundsFrom true (1 / 10) := by
  intro x
  have finite : x.isFinite = true := by decide
  have written : (real x).text = "-0.1" := by decide +kernel
  obtain ⟨n, text, -, rounds⟩ := (real_denotes finite).1
  let m : Numeral := ⟨true, ['0'], ['1'], by simp, by simp, by decide⟩
  have size : m.size = 1 / 10 := by simp [m, Numeral.size, Nat.ofDigitChars_cons]
  obtain rfl : n = m := Numeral.text_injective (by rw [← text, written]; rfl)
  exact ⟨finite, written, size ▸ (rounds x).mpr rfl⟩

end Literal

end Vhdl93
