import Vhdl93.Proofs.Decimal.Numeral
import Vhdl93.Proofs.Lexer.Reading
import Vhdl93.Toml.Document

set_option autoImplicit false

namespace Vhdl93.Toml

def EndsLine (rest : List Char) : Prop := rest = [] ∨ (lineBreak? rest).isSome = true

section Numbers

variable {ds : List Char} {n : Nat}

theorem numeral_eq (digits : ds.all Char.isDigit = true) :
    numeral 10 ds = Nat.ofDigitChars 10 ds 0 := by
  rw [numeral, Nat.ofDigitChars_eq_foldl]
  refine List.foldl_ext _ _ _ fun k c member => ?_
  rw [digitValue, if_pos (List.all_eq_true.1 digits c member)]

theorem digits?_of_all (nonempty : ds ≠ []) (digits : ds.all Char.isDigit = true) :
    digits? Char.isDigit ds = some ds := by
  induction ds with
  | nil => contradiction
  | cons c ds ih =>
    rw [List.all_cons, Bool.and_eq_true] at digits
    cases ds with
    | nil => simp [digits?, digits.1]
    | cons d ds =>
      -- An underscore would be skipped, but it is no digit.
      have digit : d ≠ '_' := by
        rintro rfl
        exact absurd digits.2 (by simp [Char.isDigit])
      rw [digits?, if_pos digits.1, ih (List.cons_ne_nil d ds) digits.2, Option.map_some]
      · simp
      · simp [digit]

theorem toDigits_head (positive : 0 < n) :
    ∃ c ds, Nat.toDigits 10 n = c :: ds ∧ c ≠ '0' ∧ c.isDigit = true := by
  suffices head : ∃ c ds, Nat.toDigits 10 n = c :: ds ∧ c ≠ '0' by
    obtain ⟨c, ds, written, leading⟩ := head
    refine ⟨c, ds, written, leading, ?_⟩
    have digits := Decimal.isDigit_toDigits n
    rw [written, List.all_cons, Bool.and_eq_true] at digits
    exact digits.1
  induction n using Nat.base_induction 10 (by decide) with
  | single k small =>
    exact ⟨k.digitChar, [], Nat.toDigits_of_lt_base small, by simpa using positive.ne'⟩
  | digit k d small more ih =>
    obtain ⟨c, ds, written, leading⟩ := ih more
    refine ⟨c, ds ++ Nat.toDigits 10 d, ?_, leading⟩
    rw [← Nat.toDigits_append_toDigits (by decide) more small, written, List.cons_append]

theorem decimal?_toDigits (positive : 0 < n) :
    decimal? (Nat.toDigits 10 n) = some (Nat.toDigits 10 n) := by
  obtain ⟨c, ds, written, leading, -⟩ := toDigits_head positive
  rw [decimal?, digits?_of_all Nat.toDigits_ne_nil (Decimal.isDigit_toDigits n), written]
  split
  · rename_i same
    simp_all
  · rfl

theorem integer?_toDigits (positive : 0 < n) : integer? (Nat.toDigits 10 n) = some (n : Int) := by
  have value := numeral_eq (Decimal.isDigit_toDigits n)
  rw [Nat.ofDigitChars_ten_toDigits] at value
  have decimal := decimal?_toDigits positive
  -- The leading digit rules out a sign and, being no zero, the mark of another base.
  obtain ⟨c, ds, written, leading, digit⟩ := toDigits_head positive
  rw [written] at value decimal ⊢
  have unsigned : splitSign (c :: ds) = (false, c :: ds) := by
    rw [splitSign] <;>
    · intro _ same
      rw [(List.cons.inj same).1] at digit
      exact absurd digit (by decide)
  rw [integer?]
  · simp only [unsigned, decimal, Option.map_some, value, signed, Bool.false_eq_true, if_false]
  all_goals
    intro _ same
    exact leading (List.cons.inj same).1

theorem wordScalar?_toDigits (positive : 0 < n) :
    wordScalar? (Nat.toDigits 10 n) = some (.integer n) := by
  obtain ⟨c, ds, written, -, digit⟩ := toDigits_head positive
  have named {word : List Char} (letter : word.head?.all Char.isDigit = false) :
      Nat.toDigits 10 n ≠ word := by
    rintro rfl
    simp [written, digit] at letter
  rw [wordScalar?, if_neg (named rfl), if_neg (named rfl), integer?_toDigits positive]
  rfl

end Numbers

section Lines

variable {rest : List Char} {n : Nat}

theorem EndsLine.head {c : Char} (ends : EndsLine rest) (first : c ∈ rest.head?) :
    c = '\n' ∨ c = '\r' := by
  obtain rfl | broken := ends
  · simp at first
  · unfold lineBreak? at broken
    split at broken <;> simp at first broken <;> simp [← first]

theorem EndsLine.lineEnds (ends : EndsLine rest) : lineEnds rest = true := by
  have shown : skipBlanks rest = rest := by
    cases rest with
    | nil => rfl
    | cons c rest =>
      rw [skipBlanks, List.dropWhile_cons_of_neg]
      obtain rfl | rfl := ends.head rfl <;> decide
  rw [Toml.lineEnds, shown]
  obtain rfl | broken := ends
  · rfl
  · split
    · rfl
    · rfl
    · exact broken

theorem takeWord_toDigits (n : Nat) (ends : EndsLine rest) :
    takeWord (Nat.toDigits 10 n ++ rest) = (Nat.toDigits 10 n, rest) := by
  have word : (Nat.toDigits 10 n).all isWordChar = true := by
    refine List.all_eq_true.2 fun c member => ?_
    have digit := List.all_eq_true.1 (Decimal.isDigit_toDigits n) c member
    simp [isWordChar, Char.isAlphanum, digit]
  have stops : ∀ c ∈ rest.head?, isWordChar c = false := by
    intro c first
    obtain rfl | rfl := ends.head first <;> decide
  rw [takeWord, Lexer.takeWhile_stop word stops, Lexer.dropWhile_stop word stops]
  -- No blank can follow, behind which a time might go on.
  split
  · obtain blank | blank := ends.head rfl <;> cases blank
  · rfl

theorem value?_toDigits (positive : 0 < n) (ends : EndsLine rest) (depth : Nat) :
    value? depth (Nat.toDigits 10 n ++ rest) = some (.scalar (.integer n), rest) := by
  have word := takeWord_toDigits n ends
  have scalar := wordScalar?_toDigits positive
  obtain ⟨c, ds, written, -, digit⟩ := toDigits_head positive
  rw [written] at word scalar ⊢
  rw [List.cons_append] at word ⊢
  have plain : quoted? (c :: (ds ++ rest)) = none := by
    rw [quoted?] <;>
    · intro _ same
      rw [(List.cons.inj same).1] at digit
      exact absurd digit (by decide)
  have read : scalar? (c :: (ds ++ rest)) = some (.integer n, rest) := by
    rw [scalar?, plain]
    simp only [word, scalar, Option.map_some]
  rw [value?]
  · rw [read]
    rfl
  all_goals
    intro _ _ _ same
    rw [(List.cons.inj same).1] at digit
    exact absurd digit (by decide)

end Lines

end Vhdl93.Toml
