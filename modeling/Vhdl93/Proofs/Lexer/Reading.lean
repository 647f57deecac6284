import Vhdl93.Proofs.Lexer.Basic

set_option autoImplicit false

namespace Vhdl93.Lexer

variable {rules : Rules} {before : Before}

def IsNumber (text : List Char) : Prop :=
  ∃ whole, whole ≠ [] ∧ whole.all Char.isDigit = true ∧
    (text = whole ∨ ∃ fraction, fraction ≠ [] ∧ fraction.all Char.isDigit = true ∧
      text = whole ++ '.' :: fraction)

namespace Lexeme

def Fits (rules : Rules) (before : Before) : Lexeme → Prop
  | .white text => text.toList ≠ [] ∧ text.toList.all isWhite = true
  | .ident (.basic text) => Ident.isBasicText text.toList = true ∧ isReserved text = false
  | .ident (.extended text) => text.toList ≠ [] ∧ text.toList.all rules.graphic = true
  | .keyword word => Ident.isBasicText word.toList = true ∧ isReserved word = true
  | .delimiter d => isDelimiter d.toList = true ∧ (d = "'" → before = .value)
  | .number text => IsNumber text.toList
  | .character c => rules.graphic c = true ∧ before ≠ .value
  | .string text => text.toList.all rules.graphic = true
  | .bitString _ digits => digits.toList.all rules.bit = true
  | .comment _ | .stray _ => False

end Lexeme

theorem takeWhile_stop {p : Char → Bool} {cs rest : List Char} (inside : cs.all p = true)
    (stops : ∀ c ∈ rest.head?, p c = false) : (cs ++ rest).takeWhile p = cs := by
  rw [List.takeWhile_append_of_pos (by simpa using inside)]
  cases rest with
  | nil => simp
  | cons c rest => simp [stops c rfl]

theorem dropWhile_stop {p : Char → Bool} {cs rest : List Char} (inside : cs.all p = true)
    (stops : ∀ c ∈ rest.head?, p c = false) : (cs ++ rest).dropWhile p = rest := by
  rw [List.dropWhile_append_of_pos (by simpa using inside)]
  cases rest with
  | nil => simp
  | cons c rest => simp [stops c rfl]

theorem not_mem_of_all {p : Char → Bool} {c : Char} {cs : List Char} (all : cs.all p = true)
    (other : p c = false) : c ∉ cs := by
  intro member
  rw [List.all_eq_true.mp all c member] at other
  cases other

theorem mem_doubled {mark c : Char} {cs : List Char} (member : c ∈ Text.doubled mark cs) :
    c ∈ cs := by
  simp only [Text.doubled, List.mem_flatMap] at member
  obtain ⟨d, inside, same⟩ := member
  split at same <;> simp at same <;> exact same ▸ inside

section Characters

variable {c : Char}

theorem of_white (white : isWhite c = true) :
    isWordChar c = false ∧ c ∉ singles ∧ c ∉ ['"', '\\', '#'] := by
  simp only [isWhite, List.mem_cons, List.not_mem_nil, or_false, decide_eq_true_eq] at white
  rcases white with rfl | rfl | rfl | rfl | rfl | rfl | rfl <;> decide

theorem of_single (single : c ∈ singles) :
    isWhite c = false ∧ isWordChar c = false ∧ c ≠ '"' ∧ c ≠ '\\' := by
  simp only [singles, List.mem_cons, List.not_mem_nil, or_false] at single
  rcases single with rfl | rfl | rfl | rfl | rfl | rfl | rfl | rfl | rfl | rfl | rfl |
    rfl | rfl | rfl |
    rfl | rfl | rfl | rfl <;> decide

theorem letter_of_alpha (alpha : c.isAlpha = true) : isLetter c = true := by
  simp [isLetter, alpha]

theorem isAlpha_eq (c : Char) : c.isAlpha = (c.isUpper || c.isLower) := rfl

theorem isUpper_iff (c : Char) : c.isUpper = true ↔ 65 ≤ c.toNat ∧ c.toNat ≤ 90 :=
  decide_eq_true_iff

theorem isLower_iff (c : Char) : c.isLower = true ↔ 97 ≤ c.toNat ∧ c.toNat ≤ 122 := by
  change (decide (97 ≤ c.val) && decide (c.val ≤ 122)) = true ↔ _
  simp [UInt32.le_iff_toNat_le]

theorem wordChar_of_alphanum (alphanum : c.isAlphanum = true) : isWordChar c = true := by
  simp only [Char.isAlphanum, Bool.or_eq_true] at alphanum
  rcases alphanum with alpha | digit
  · simp [isWordChar, isLetter, alpha]
  · simp [isWordChar, digit]

theorem not_white_of_wordChar (word : isWordChar c = true) : isWhite c = false := by
  cases white : isWhite c with
  | false => rfl
  | true => simp [(of_white white).1] at word

theorem not_letter_of_digit (digit : c.isDigit = true) : isLetter c = false := by
  simp only [Char.isDigit, Bool.and_eq_true, decide_eq_true_eq, UInt32.le_iff_toNat_le,
    ge_iff_le] at digit
  change 48 ≤ c.toNat ∧ c.toNat ≤ 57 at digit
  have alpha : c.isAlpha = false := by
    rw [isAlpha_eq, Bool.or_eq_false_iff, ← Bool.not_eq_true, ← Bool.not_eq_true, isUpper_iff,
      isLower_iff]
    omega
  have low : ¬ 0xc0 ≤ c.toNat := by omega
  simp [isLetter, alpha, low]

end Characters

section Words

theorem basicTail_all {closed : Bool} {cs : List Char}
    (basic : Ident.isBasicTail closed cs = true) : cs.all isWordChar = true := by
  induction cs generalizing closed with
  | nil => rfl
  | cons c cs ih =>
    rw [Ident.isBasicTail] at basic
    split at basic
    · next underscore => simpa [isWordChar, underscore] using ih basic
    · simp only [Bool.and_eq_true] at basic
      simpa [wordChar_of_alphanum basic.1] using ih basic.2

theorem basicText_cases {cs : List Char} (basic : Ident.isBasicText cs = true) :
    ∃ c tail, cs = c :: tail ∧ isLetter c = true ∧ tail.all isWordChar = true := by
  cases cs with
  | nil => cases basic
  | cons c tail =>
    simp only [Ident.isBasicText, Bool.and_eq_true] at basic
    exact ⟨c, tail, rfl, letter_of_alpha basic.1, basicTail_all basic.2⟩

theorem readBits_none {word rest : List Char} (stops : ∀ c ∈ rest.head?, c ≠ '"') :
    readBits rules word rest = none := by
  cases rest with
  | nil => simp [readBits]
  | cons c rest =>
    have other : c ≠ '"' := stops c rfl
    unfold readBits
    split
    · simp_all
    · rfl

theorem next_word (rules : Rules) (before : Before) {text : String} {rest : List Char}
    (basic : Ident.isBasicText text.toList = true)
    (stops : ∀ c ∈ rest.head?, (!isWordChar c && c ≠ '"') = true) :
    ∃ c cs, text.toList ++ rest = c :: cs ∧ next rules before c cs = readWord text.toList := by
  obtain ⟨c, tail, same, letter, inside⟩ := basicText_cases basic
  have ends : ∀ d ∈ rest.head?, isWordChar d = false := fun d member => by
    have stop := stops d member
    simp only [Bool.and_eq_true, Bool.not_eq_true'] at stop
    exact stop.1
  have unmarked : ∀ d ∈ rest.head?, d ≠ '"' := fun d member => by
    have stop := stops d member
    simp only [Bool.and_eq_true, decide_eq_true_eq] at stop
    exact stop.2
  have black : isWhite c = false := not_white_of_wordChar (by simp [isWordChar, letter])
  refine ⟨c, tail ++ rest, by rw [same, List.cons_append], ?_⟩
  simp only [next, black, letter, Bool.false_eq_true, if_false, if_true, takeWhile_stop inside ends,
    dropWhile_stop inside ends, readBits_none unmarked, Option.getD_none, same]

end Words

theorem readEnclosed_doubled (mark : Char) (cs rest : List Char)
    (stops : ∀ c ∈ rest.head?, c ≠ mark) :
    readEnclosed mark (Text.doubled mark cs ++ mark :: rest) = some cs := by
  induction cs with
  | nil =>
    cases rest with
    | nil => simp [readEnclosed]
    | cons c rest => simp [readEnclosed, stops c rfl]
  | cons c cs ih =>
    rw [Text.doubled_cons]
    by_cases same : c = mark
    · simp [same, readEnclosed, ih]
    · simp only [same, if_false, List.cons_append, List.nil_append]
      cases tail : Text.doubled mark cs ++ mark :: rest with
      | nil => simp at tail
      | cons d tail' =>
        rw [tail] at ih
        simp [readEnclosed, same, ih]

section Numbers

variable {rest : List Char}

theorem digits_numeral {cs : List Char} (digits : cs.all Char.isDigit = true) :
    cs.all isNumeral = true := by
  simp only [List.all_eq_true] at digits ⊢
  intro c member
  simp [isNumeral, digits c member]

theorem number_stop {c : Char} {text : String} (stop : (Lexeme.number text).stopsAt c = true) :
    isNumeral c = false ∧ isLetter c = false ∧ c ≠ '.' ∧ c ≠ '#' := by
  simp only [Lexeme.stopsAt, isWordChar, Bool.and_eq_true, Bool.not_eq_true', Bool.or_eq_false_iff,
    decide_eq_true_eq] at stop
  simp [isNumeral, stop]

theorem readBased_none (stops : ∀ c ∈ rest.head?, c ≠ '#') : readBased rest = [] := by
  unfold readBased
  split
  · next tail => exact absurd rfl (stops '#' rfl)
  · rfl

theorem readFraction_none (stops : ∀ c ∈ rest.head?, c ≠ '.') : readFraction rest = [] := by
  unfold readFraction
  split
  · next tail => exact absurd rfl (stops '.' rfl)
  · rfl

theorem readExponent_none (stops : ∀ c ∈ rest.head?, isLetter c = false) :
    readExponent rest = [] := by
  unfold readExponent
  split
  · next e c tail =>
    have other : isLetter e = false := stops e rfl
    have noExponent : ¬ (e = 'e' ∨ e = 'E') := by
      rintro (rfl | rfl) <;> revert other <;> decide
    simp [noExponent]
  · rfl

theorem readNumber_whole {whole : List Char} (digits : whole.all Char.isDigit = true)
    (numeral : ∀ c ∈ rest.head?, isNumeral c = false)
    (letter : ∀ c ∈ rest.head?, isLetter c = false) (dot : ∀ c ∈ rest.head?, c ≠ '.')
    (hash : ∀ c ∈ rest.head?, c ≠ '#') : readNumber (whole ++ rest) = whole := by
  simp [readNumber, takeWhile_stop (digits_numeral digits) numeral,
    dropWhile_stop (digits_numeral digits) numeral, readBased_none hash, readFraction_none dot,
    readExponent_none letter]

theorem readNumber_fraction {whole fraction : List Char} (digits : whole.all Char.isDigit = true)
    (nonempty : fraction ≠ []) (fractional : fraction.all Char.isDigit = true)
    (numeral : ∀ c ∈ rest.head?, isNumeral c = false)
    (letter : ∀ c ∈ rest.head?, isLetter c = false) :
    readNumber (whole ++ '.' :: fraction ++ rest) = whole ++ '.' :: fraction := by
  have point : ∀ c ∈ ('.' :: (fraction ++ rest)).head?, isNumeral c = false := by
    intro c member
    cases member
    decide
  have based : readBased ('.' :: (fraction ++ rest)) = [] := readBased_none (by simp)
  have read : readFraction ('.' :: (fraction ++ rest)) = '.' :: fraction := by
    cases fraction with
    | nil => exact absurd rfl nonempty
    | cons d ds =>
      simp only [List.all_cons, Bool.and_eq_true] at fractional
      simp [readFraction, fractional.1, takeWhile_stop (digits_numeral fractional.2) numeral]
  simp only [readNumber, List.append_assoc, List.cons_append,
    takeWhile_stop (digits_numeral digits) point, dropWhile_stop (digits_numeral digits) point,
    based, read, List.nil_append, List.length_cons, List.drop_succ_cons, List.drop_left,
    readExponent_none letter, List.append_nil]

theorem readNumber_text {text : String} (number : IsNumber text.toList)
    (stops : ∀ c ∈ rest.head?, (Lexeme.number text).stopsAt c = true) :
    readNumber (text.toList ++ rest) = text.toList := by
  have ends (c : Char) (member : c ∈ rest.head?) := number_stop (stops c member)
  obtain ⟨whole, -, digits, same | ⟨fraction, nonempty, fractional, same⟩⟩ := number
  · rw [same]
    exact readNumber_whole digits (fun c member => (ends c member).1)
      (fun c member => (ends c member).2.1)
      (fun c member => (ends c member).2.2.1) (fun c member => (ends c member).2.2.2)
  · rw [same]
    exact readNumber_fraction digits nonempty fractional (fun c member => (ends c member).1)
      (fun c member => (ends c member).2.1)

theorem number_head {text : List Char} (number : IsNumber text) :
    ∃ c tail, text = c :: tail ∧ c.isDigit = true := by
  obtain ⟨whole, nonempty, digits, rest⟩ := number
  cases whole with
  | nil => exact absurd rfl nonempty
  | cons c whole =>
    simp only [List.all_cons, Bool.and_eq_true] at digits
    rcases rest with rfl | ⟨fraction, -, -, rfl⟩
    · exact ⟨c, whole, rfl, digits.1⟩
    · exact ⟨c, _, rfl, digits.1⟩

end Numbers

theorem readDelimiter_text {d : String} {rest : List Char} (delimiter : isDelimiter d.toList = true)
    (stops : ∀ c ∈ rest.head?, (Lexeme.delimiter d).stopsAt c = true) :
    readDelimiter (d.toList ++ rest) = .delimiter d := by
  simp only [isDelimiter, Bool.or_eq_true, decide_eq_true_eq, List.mem_map] at delimiter
  rcases delimiter with compound | ⟨c, single, same⟩
  · obtain ⟨first, second, same⟩ : ∃ first second, d.toList = [first, second] := by
      simp only [compounds, List.mem_cons, List.not_mem_nil, or_false] at compound
      rcases compound with same | same | same | same | same | same | same <;> exact ⟨_, _, same⟩
    have written : String.ofList [first, second] = d := by rw [← same, String.ofList_toList]
    rw [same] at compound ⊢
    simp only [readDelimiter, List.cons_append, List.nil_append, List.take_succ_cons,
      List.take_zero, compound, if_true, written]
  · have apart : c :: rest.take 1 ∉ compounds := by
      cases rest with
      | nil => simp [compounds]
      | cons e rest =>
        have stop := stops e rfl
        simp only [Lexeme.stopsAt, ← same, List.cons_append, List.nil_append, List.mem_cons, not_or,
          decide_eq_true_eq] at stop
        simpa using stop.2
    have written : String.ofList [c] = d := by rw [same, String.ofList_toList]
    simp only [← same, List.cons_append, List.nil_append, readDelimiter, apart, single, if_true,
      if_false, written]

theorem delimiter_head {d : String} (delimiter : isDelimiter d.toList = true) :
    ∃ c tail, d.toList = c :: tail ∧ c ∈ singles := by
  simp only [isDelimiter, compounds, Bool.or_eq_true, List.mem_cons, List.not_mem_nil, or_false,
    List.mem_map, decide_eq_true_eq] at delimiter
  rcases delimiter with (same | same | same | same | same | same | same) | ⟨c, single, same⟩
  all_goals first
    | exact ⟨_, _, same, by decide⟩
    | exact ⟨c, [], same.symm, single⟩

theorem alone_of_head {d : String} {c : Char} {tail : List Char}
    (delimiter : isDelimiter d.toList = true) (same : d.toList = c :: tail)
    (kind : c = '\x27' ∨ c = '-') : tail = [] := by
  simp only [isDelimiter, Bool.or_eq_true, decide_eq_true_eq, List.mem_map, same] at delimiter
  rcases delimiter with compound | ⟨e, -, same⟩
  · rcases kind with rfl | rfl <;> simp [compounds] at compound
  · exact (List.cons.inj same).2.symm

section Steps

variable {rest : List Char}

theorem next_white {text : String} (nonempty : text.toList ≠ [])
    (white : text.toList.all isWhite = true) (stops : ∀ c ∈ rest.head?, isWhite c = false) :
    ∃ c cs, text.toList ++ rest = c :: cs ∧ next rules before c cs = .white text := by
  cases same : text.toList with
  | nil => exact absurd same nonempty
  | cons c cs =>
    simp only [same, List.all_cons, Bool.and_eq_true] at white
    have written : String.ofList (c :: cs) = text := by rw [← same, String.ofList_toList]
    refine ⟨c, cs ++ rest, rfl, ?_⟩
    simp only [next, white.1, if_true, takeWhile_stop white.2 stops, written]

theorem next_number {text : String} (number : IsNumber text.toList)
    (stops : ∀ c ∈ rest.head?, (Lexeme.number text).stopsAt c = true) :
    ∃ c cs, text.toList ++ rest = c :: cs ∧ next rules before c cs = .number text := by
  obtain ⟨c, tail, same, digit⟩ := number_head number
  have read := readNumber_text number stops
  have black : isWhite c = false := not_white_of_wordChar (by simp [isWordChar, digit])
  refine ⟨c, tail ++ rest, by rw [same, List.cons_append], ?_⟩
  rw [same, List.cons_append, ← same] at read
  simp only [next, black, not_letter_of_digit digit, digit, Bool.false_eq_true, if_false, if_true,
    read, String.ofList_toList]

theorem next_string {text : String} (graphic : text.toList.all rules.graphic = true)
    (stops : ∀ c ∈ rest.head?, c ≠ '"') :
    ∃ c cs, (Text.enclosed '"' text).toList ++ rest = c :: cs ∧ next rules before c cs = .string text := by
  have read := readEnclosed_doubled '"' text.toList rest stops
  refine ⟨'"', Text.doubled '"' text.toList ++ '"' :: rest, by simp, ?_⟩
  have plain : isWhite '"' = false ∧ isLetter '"' = false ∧ '"'.isDigit = false := by decide
  simp only [next, plain, Bool.false_eq_true, if_false, if_true, read, graphic,
    String.ofList_toList]

theorem next_extended {text : String} (nonempty : text.toList ≠ [])
    (graphic : text.toList.all rules.graphic = true) (stops : ∀ c ∈ rest.head?, c ≠ '\\') :
    ∃ c cs, (Text.enclosed '\\' text).toList ++ rest = c :: cs ∧
      next rules before c cs = .ident (.extended text) := by
  have read := readEnclosed_doubled '\\' text.toList rest stops
  refine ⟨'\\', Text.doubled '\\' text.toList ++ '\\' :: rest, by simp, ?_⟩
  have plain : isWhite '\\' = false ∧ isLetter '\\' = false ∧ '\\'.isDigit = false ∧
      ('\\' = '"') = False := by
    decide
  simp only [next, plain, Bool.false_eq_true, if_false, if_true, read, graphic, nonempty, ne_eq,
    not_false_eq_true, decide_true, Bool.and_self, String.ofList_toList]

theorem next_character {c : Char} (graphic : rules.graphic c = true) (free : before ≠ .value) :
    next rules before '\x27' (c :: '\x27' :: rest) = .character c := by
  have plain : isWhite '\x27' = false ∧ isLetter '\x27' = false ∧ '\x27'.isDigit = false ∧
      ('\x27' = '"') = False ∧ ('\x27' = '\\') = False := by
    decide
  simp only [next, plain, Bool.false_eq_true, if_false, if_true, free, graphic, ne_eq,
    not_false_eq_true, decide_true, Bool.and_self]

theorem next_delimiter {d : String} (delimiter : isDelimiter d.toList = true)
    (attributed : d = "'" → before = .value)
    (stops : ∀ c ∈ rest.head?, (Lexeme.delimiter d).stopsAt c = true) :
    ∃ c cs, d.toList ++ rest = c :: cs ∧ next rules before c cs = .delimiter d := by
  obtain ⟨c, tail, same, single⟩ := delimiter_head delimiter
  obtain ⟨black, word, string, extended⟩ := of_single single
  have letter : isLetter c = false ∧ c.isDigit = false := by
    simp only [isWordChar, Bool.or_eq_false_iff] at word
    exact word.1
  have read := readDelimiter_text delimiter stops
  refine ⟨c, tail ++ rest, by rw [same, List.cons_append], ?_⟩
  have noCharacter : (c = '\x27' && before ≠ .value) = false := by
    simp only [Bool.and_eq_false_imp, decide_eq_true_eq, decide_eq_false_iff_not, ne_eq,
      Decidable.not_not]
    rintro rfl
    have alone := alone_of_head delimiter same (.inl rfl)
    exact attributed (String.toList_injective (by rw [same, alone]; rfl))
  have noComment : (c = '-' && (tail ++ rest).head? = some '-') = false := by
    simp only [Bool.and_eq_false_imp, decide_eq_true_eq, decide_eq_false_iff_not]
    rintro rfl next
    have alone := alone_of_head delimiter same (.inr rfl)
    rw [alone, List.nil_append] at next
    have stop := stops '-' next
    simp [Lexeme.stopsAt, same, alone] at stop
  rw [same, List.cons_append] at read
  simp only [next, black, letter, string, extended, noCharacter, noComment, Bool.false_eq_true,
    if_false, read]

theorem next_bits {base : Base} {digits : String} (bits : digits.toList.all rules.bit = true) :
    ∃ c cs, (Token.bitString base digits).text.toList ++ rest = c :: cs ∧
      next rules before c cs = .bitString base digits := by
  obtain ⟨letter, specified, spelled⟩ :
      ∃ letter, base? [letter] = some base ∧ base.text.toList = [letter] := by
    cases base
    · exact ⟨'B', rfl, rfl⟩
    · exact ⟨'O', rfl, rfl⟩
    · exact ⟨'X', rfl, rfl⟩
  refine ⟨letter, '"' :: digits.toList ++ '"' :: rest, by simp [Token.text, spelled], ?_⟩
  have alphabetic : isLetter letter = true := by
    cases base <;> simp only [Base.text] at spelled <;> cases spelled <;> decide
  have black : isWhite letter = false := not_white_of_wordChar (by simp [isWordChar, alphabetic])
  have mark : isWordChar '"' = false := by decide
  have inside : digits.toList.all (· ≠ '"') = true := by
    simp only [List.all_eq_true, decide_eq_true_eq]
    rintro c member rfl
    have unmarked := List.all_eq_true.mp bits _ member
    simp [rules.bit_mark] at unmarked
  have content : (digits.toList ++ '"' :: rest).takeWhile (· ≠ '"') = digits.toList :=
    takeWhile_stop inside (by simp)
  simp only [next, black, alphabetic, Bool.false_eq_true, if_false, if_true, List.cons_append,
    List.takeWhile_cons, List.dropWhile_cons, mark, readBits, specified, content, List.drop_left,
    List.head?_cons, bits, decide_true, Bool.and_self, String.ofList_toList, Option.getD_some]

end Steps

/-- One step: a lexeme that fits is read at the front of a text, if it stops there. -/
theorem next_text {l : Lexeme} {rest : List Char} (fits : l.Fits rules before)
    (stops : ∀ c ∈ rest.head?, l.stopsAt c = true) :
    ∃ c cs, l.text.toList ++ rest = c :: cs ∧ next rules before c cs = l := by
  cases l with
  | white text => exact next_white fits.1 fits.2 (by simpa [Lexeme.stopsAt] using stops)
  | ident i =>
    cases i with
    | basic text =>
      obtain ⟨c, cs, same, read⟩ := next_word rules before fits.1 stops
      exact ⟨c, cs, same, by simp [read, readWord, fits.2]⟩
    | extended text => exact next_extended fits.1 fits.2 (by simpa [Lexeme.stopsAt] using stops)
  | keyword word =>
    obtain ⟨c, cs, same, read⟩ := next_word rules before fits.1 stops
    exact ⟨c, cs, same, by simp [read, readWord, fits.2]⟩
  | delimiter d => exact next_delimiter fits.1 fits.2 stops
  | number text => exact next_number fits stops
  | character c => exact ⟨_, _, by simp [Lexeme.text, Token.text]; rfl, next_character fits.1 fits.2⟩
  | string text => exact next_string fits (by simpa [Lexeme.stopsAt] using stops)
  | bitString base digits => exact next_bits fits
  | comment | stray => cases fits

def Lexeme.isBlank : Lexeme → Bool
  | .white _ => true
  | _ => false

/-- Whether a lexeme ends where another starts. White space is a single blank here, and there is
none directly inside parentheses. -/
structure Lexeme.Meets (l m : Lexeme) : Prop where
  stops : ∀ c ∈ m.text.toList.head?, l.stopsAt c = true
  single : m.isBlank = true → m = .white " "
  opening : l = .delimiter "(" → m.isBlank = false
  closing : l.isBlank = true → m ≠ .delimiter ")"

def Legible (rules : Rules) : Before → List Lexeme → Prop
  | _, [] => True
  | before, l :: ls =>
      l.Fits rules before ∧ (∀ m ∈ ls.head?, l.Meets m) ∧ Legible rules (l.after rules before) ls

def spell (ls : List Lexeme) : List Char := ls.flatMap fun l => l.text.toList

def afterAll (rules : Rules) (before : Before) (ls : List Lexeme) : Before :=
  ls.foldl (fun before l => l.after rules before) before

@[simp] theorem spell_nil : spell [] = [] := rfl

@[simp] theorem spell_cons (l : Lexeme) (ls : List Lexeme) :
    spell (l :: ls) = l.text.toList ++ spell ls := rfl

@[simp] theorem spell_append (ls ms : List Lexeme) : spell (ls ++ ms) = spell ls ++ spell ms := by
  simp [spell]

theorem Lexeme.Fits.text_ne_nil {l : Lexeme} (fits : l.Fits rules before) : l.text.toList ≠ [] := by
  obtain ⟨c, cs, same, -⟩ := @next_text rules before l [] fits (by simp)
  simp only [List.append_nil] at same
  simp [same]

theorem Legible.head_stops {ls : List Lexeme} {l : Lexeme} (legible : Legible rules before ls)
    (meets : ∀ m ∈ ls.head?, l.Meets m) : ∀ c ∈ (spell ls).head?, l.stopsAt c = true := by
  cases ls with
  | nil => simp
  | cons m ls =>
    have nonempty := legible.1.text_ne_nil
    intro c member
    apply (meets m rfl).stops c
    cases same : m.text.toList with
    | nil => exact absurd same nonempty
    | cons d tail => simpa [same] using member

theorem lex_step {l : Lexeme} {rest : List Char} (fits : l.Fits rules before)
    (stops : ∀ c ∈ rest.head?, l.stopsAt c = true) :
    lex rules before (l.text.toList ++ rest) = l :: lex rules (l.after rules before) rest := by
  obtain ⟨c, cs, same, read⟩ := next_text fits stops
  have behind : cs.drop (l.text.length - 1) = rest := by
    have whole : (c :: cs).drop l.text.toList.length = rest := by rw [← same, List.drop_left]
    have positive : 0 < l.text.toList.length := List.length_pos_iff.mpr fits.text_ne_nil
    obtain ⟨n, count⟩ := Nat.exists_eq_succ_of_ne_zero (Nat.ne_of_gt positive)
    rw [String.length_toList] at count whole
    rw [count] at whole ⊢
    exact whole
  rw [same, lex, read, behind]

/-- A whole run: legible lexemes are read back from their texts. -/
theorem lex_spell {ls : List Lexeme} (legible : Legible rules before ls) :
    lex rules before (spell ls) = ls := by
  induction ls generalizing before with
  | nil => simp [lex]
  | cons l ls ih =>
    obtain ⟨fits, meets, legible⟩ := legible
    rw [spell_cons, lex_step fits (legible.head_stops meets), ih legible]

theorem legible_append {ls ms : List Lexeme} :
    Legible rules before (ls ++ ms) ↔
      Legible rules before ls ∧ (∀ l ∈ ls.getLast?, ∀ m ∈ ms.head?, l.Meets m) ∧
        Legible rules (afterAll rules before ls) ms := by
  induction ls generalizing before with
  | nil => simp [Legible, afterAll]
  | cons l ls ih =>
    cases ls with
    | nil => simp [Legible, afterAll]
    | cons k ls =>
      have unfolded : Legible rules before (l :: k :: ls ++ ms) ↔
          l.Fits rules before ∧ l.Meets k ∧ Legible rules (l.after rules before)
            (k :: ls ++ ms) := by
        simp [Legible]
      rw [unfolded, ih]
      simp [Legible, afterAll, and_assoc]

end Vhdl93.Lexer
