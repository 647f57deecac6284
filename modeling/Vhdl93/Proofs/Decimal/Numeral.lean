import Mathlib.Data.List.Basic
import Mathlib.Algebra.Order.Field.Basic
import Mathlib.Data.Rat.Cast.Order
import Mathlib.Tactic.FieldSimp
import Vhdl93.Decimal.Positional

set_option autoImplicit false

namespace Vhdl93.Decimal

structure Numeral where
  minus : Bool
  whole : List Char
  fraction : List Char
  whole_ne_nil : whole ≠ []
  fraction_ne_nil : fraction ≠ []
  digits : (whole ++ fraction).all Char.isDigit = true

namespace Numeral

def sign (minus : Bool) : List Char := if minus then ['-'] else []

def text (n : Numeral) : String :=
  String.ofList (sign n.minus ++ (n.whole ++ '.' :: n.fraction))

def size (n : Numeral) : ℚ :=
  Nat.ofDigitChars 10 (n.whole ++ n.fraction) 0 / 10 ^ n.fraction.length

theorem isDigit_of_mem {n : Numeral} {c : Char} (member : c ∈ n.whole ++ n.fraction) :
    c.isDigit = true :=
  List.all_eq_true.mp n.digits c member

theorem point_mem_text (n : Numeral) : '.' ∈ n.text.toList := by
  simp [text]

theorem point_not_mem (n : Numeral) : '.' ∉ n.whole ++ n.fraction := fun member =>
  absurd (isDigit_of_mem member) (by decide)

theorem whole_head (n : Numeral) : n.whole.head? ≠ some '-' := fun head =>
  absurd (isDigit_of_mem (List.mem_append_left n.fraction (List.mem_of_head? head))) (by decide)

theorem text_injective {m n : Numeral} (same : m.text = n.text) : m = n := by
  have chars := congrArg String.toList same
  simp only [text, String.toList_ofList] at chars
  have signs : m.minus = n.minus := by
    have first (k : Numeral) : (sign k.minus ++ (k.whole ++ '.' :: k.fraction)).head? = some '-' ↔
        k.minus = true := by
      obtain ⟨c, cs, whole⟩ := List.exists_cons_of_ne_nil k.whole_ne_nil
      have head := k.whole_head
      rw [whole] at head ⊢
      cases k.minus with
      | false => simpa [sign] using head
      | true => simp [sign]
    rw [Bool.eq_iff_iff, ← first m, ← first n, chars]
  rw [signs, List.append_cancel_left_eq] at chars
  have point := m.point_not_mem
  rw [List.mem_append, not_or] at point
  have parts := (List.append_cons_inj_of_notMem point.1 point.2).mp chars
  obtain ⟨minus, whole, fraction, _, _, _⟩ := m
  obtain ⟨minus', whole', fraction', _, _, _⟩ := n
  obtain ⟨rfl, -, rfl⟩ := parts
  obtain rfl := signs
  rfl

end Numeral

theorem isDigit_toDigits (n : Nat) : (Nat.toDigits 10 n).all Char.isDigit = true :=
  List.all_eq_true.mpr fun _ member => Nat.isDigit_of_mem_toDigits (by decide) (by decide) member

theorem exists_numeral_positional (minus : Bool) (digits : Nat) (exponent : Int) :
    ∃ n : Numeral, n.minus = minus ∧
      n.text.toList = Numeral.sign minus ++ (positional digits exponent).toList ∧
      n.size = digits * 10 ^ exponent := by
  have all := isDigit_toDigits digits
  have nonempty : 0 < (Nat.toDigits 10 digits).length := List.length_pos_iff.mpr Nat.toDigits_ne_nil
  cases exponent with
  | ofNat k =>
    refine ⟨⟨minus, Nat.toDigits 10 digits ++ List.replicate k '0', ['0'], ?_, by simp, ?_⟩, rfl,
      ?_, ?_⟩
    · rw [← List.length_pos_iff, List.length_append]
      omega
    · simp [List.all_append, all]
    · simp [Numeral.text, positional]
    · have value : Nat.ofDigitChars 10
          (Nat.toDigits 10 digits ++ List.replicate k '0' ++ ['0']) 0 = digits * 10 ^ k * 10 := by
        simp only [Nat.ofDigitChars_append, Nat.ofDigitChars_ten_toDigits,
          Nat.ofDigitChars_replicate_zero, Nat.ofDigitChars_cons, Nat.ofDigitChars_nil]
        simp [Nat.mul_comm]
      simp only [Numeral.size, value, List.length_singleton]
      push_cast
      simp
  | negSucc k =>
    let padded := List.replicate (k + 2 - (Nat.toDigits 10 digits).length) '0' ++
      Nat.toDigits 10 digits
    have length : k + 2 ≤ padded.length := by
      simp only [padded, List.length_append, List.length_replicate]
      omega
    have behind : (padded.drop (padded.length - (k + 1))).length = k + 1 := by
      rw [List.length_drop]
      omega
    refine ⟨⟨minus, padded.take (padded.length - (k + 1)), padded.drop (padded.length - (k + 1)),
      ?_, ?_, ?_⟩, rfl, ?_, ?_⟩
    · rw [← List.length_pos_iff, List.length_take]
      omega
    · rw [← List.length_pos_iff, behind]
      omega
    · simp [padded, List.all_append, all]
    · simp [Numeral.text, positional, padded]
    · have value : Nat.ofDigitChars 10 padded 0 = digits := by
        simp [padded, Nat.ofDigitChars_append]
      simp only [Numeral.size, List.take_append_drop, value, behind, zpow_negSucc, div_eq_mul_inv]

end Vhdl93.Decimal
