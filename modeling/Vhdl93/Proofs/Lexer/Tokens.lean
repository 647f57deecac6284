import Vhdl93.Proofs.Decimal.Numeral
import Vhdl93.Proofs.Lexer.Reading

set_option autoImplicit false

namespace Vhdl93

open Lexer

def Ident.isAccepted : Ident → Bool
  | .basic text => (ofBasic text).isOk
  | .extended text => (ofExtended text).isOk

/-- A reserved designator is read as the keyword that it spells. -/
def Token.lexeme : Token → Lexeme
  | .ident i => if i.isAccepted then .ident i else .keyword i.render
  | .keyword word => .keyword word
  | .symbol s => .delimiter s.text
  | .integer n => .number n.repr
  | .real x => .number x.magnitudeText
  | .character c => .character c
  | .string s => .string s
  | .bitString base digits => .bitString base digits

def Piece.lexeme : Piece → Lexeme
  | .token t => t.lexeme
  | .blank => .white " "

def Pieces.lexemes (ps : Pieces) : List Lexeme := ps.map Piece.lexeme

@[simp] theorem Token.text_lexeme (t : Token) : t.lexeme.text = t.text := by
  cases t with
  | ident i =>
    simp only [lexeme]
    split <;> rfl
  | keyword | symbol | integer | real | character | string | bitString => rfl

theorem Pieces.spell_lexemes (ps : Pieces) : spell ps.lexemes = ps.text.toList := by
  induction ps with
  | nil => rfl
  | cons p ps ih =>
    have first : p.lexeme.text = p.text := by
      cases p with
      | token t => exact t.text_lexeme
      | blank => rfl
    have whole : Pieces.text (p :: ps) = p.text ++ Pieces.text ps := by simp [Pieces.text]
    rw [whole, String.toList_append, ← ih, ← first]
    rfl

namespace Lexer

variable {rules : Rules} {before : Before}

theorem toLower_of_mem {word : String} (member : word ∈ reservedWords) : word.toLower = word := by
  have all : reservedWords.all (fun word => word.toLower = word) = true := by
    decide +kernel
  simpa using List.all_eq_true.mp all word member

theorem reserved_of_mem {word : String} (member : word ∈ reservedWords) :
    Ident.isBasicText word.toList = true ∧ isReserved word = true := by
  have all : reservedWords.all (fun word => Ident.isBasicText word.toList) = true := by
    decide +kernel
  refine ⟨List.all_eq_true.mp all word member, ?_⟩
  rw [isReserved_iff, toLower_of_mem member]
  exact member

theorem keyword_fits {word : String} (member : word ∈ reservedWords) :
    (Lexeme.keyword word).Fits rules before :=
  reserved_of_mem member

theorem ident_fits {i : Ident} (accepted : i.isAccepted = true) :
    (Lexeme.ident i).Fits rules before := by
  cases i with
  | basic text =>
    simp only [Ident.isAccepted, Ident.ofBasic] at accepted
    split at accepted
    · cases accepted
    · split at accepted
      · next ok => simpa [Lexeme.Fits] using ok
      · cases accepted
  | extended text =>
    simp only [Ident.isAccepted, Ident.ofExtended] at accepted
    split at accepted
    · cases accepted
    · next nonempty =>
      split at accepted
      · next graphic =>
        refine ⟨by simpa [String.isEmpty_iff] using nonempty, ?_⟩
        simp only [List.all_eq_true] at graphic ⊢
        exact fun c member => rules.graphic_ascii c (graphic c member)
      · cases accepted

theorem isDelimiter_symbol (s : Symbol) : isDelimiter s.text.toList = true := by
  cases s <;> decide

theorem symbol_fits {s : Symbol} (other : s ≠ .tick) :
    (Lexeme.delimiter s.text).Fits rules before := by
  refine ⟨isDelimiter_symbol s, ?_⟩
  intro tick
  cases s <;> simp [Symbol.text] at tick other

theorem isNumber_repr (n : Nat) : IsNumber n.repr.toList := by
  rw [Nat.toList_repr]
  exact ⟨Nat.toDigits 10 n, Nat.toDigits_ne_nil, Decimal.isDigit_toDigits n, .inl rfl⟩

theorem isNumber_positional (digits : Nat) (exponent : Int) :
    IsNumber (Decimal.positional digits exponent).toList := by
  obtain ⟨n, plus, text, -⟩ := Decimal.exists_numeral_positional false digits exponent
  have all := n.digits
  rw [List.all_append, Bool.and_eq_true] at all
  refine ⟨n.whole, n.whole_ne_nil, all.1, .inr ⟨n.fraction, n.fraction_ne_nil, all.2, ?_⟩⟩
  simpa [Decimal.Numeral.text, Decimal.Numeral.sign, plus] using text.symm

theorem isNumber_magnitudeText {x : Binary64} (finite : x.isFinite = true) :
    IsNumber x.magnitudeText.toList := by
  simp only [Binary64.isFinite, ne_eq, decide_eq_true_eq] at finite
  simp only [Binary64.magnitudeText, Binary64.isNaN, Binary64.isInfinite, finite, decide_false,
    Bool.false_and, Bool.false_eq_true, if_false]
  split
  · exact ⟨['0'], by simp, by decide, .inr ⟨['0'], by simp, by decide, by decide⟩⟩
  · exact isNumber_positional _ _

end Lexer

end Vhdl93
