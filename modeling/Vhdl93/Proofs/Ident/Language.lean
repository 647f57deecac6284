import Mathlib.Computability.RegularExpressions
import Vhdl93.Proofs.Lexer.Tokens

set_option autoImplicit false

namespace Vhdl93

open Computability

namespace Text

def CaseVariant (s t : String) : Prop :=
  List.Forall₂ (fun c d => d = c ∨ d = c.toUpper ∨ d = c.toLower) s.toList t.toList

def charRange (low high : Char) : List Char :=
  (List.range' low.toNat (high.toNat + 1 - low.toNat)).map Char.ofNat

def letters : List Char := charRange 'A' 'Z' ++ charRange 'a' 'z'

def lettersAndDigits : List Char := letters ++ charRange '0' '9'

theorem toNat_ofNat {n : Nat} (valid : n.isValidChar) : (Char.ofNat n).toNat = n := by
  rw [Char.ofNat, dif_pos valid]
  rfl

theorem mem_charRange {low high : Char} (bound : high.toNat < 0xd800) (c : Char) :
    c ∈ charRange low high ↔ low.toNat ≤ c.toNat ∧ c.toNat ≤ high.toNat := by
  simp only [charRange, List.mem_map, List.mem_range'_1]
  constructor
  · rintro ⟨n, range, rfl⟩
    rw [toNat_ofNat (.inl (by omega))]
    omega
  · intro range
    exact ⟨c.toNat, by omega, Char.ofNat_toNat c⟩

theorem mem_letters (c : Char) : c ∈ letters ↔ c.isAlpha = true := by
  rw [letters, List.mem_append, mem_charRange (by decide), mem_charRange (by decide),
    Lexer.isAlpha_eq, Bool.or_eq_true, Lexer.isUpper_iff, Lexer.isLower_iff]
  rfl

theorem mem_lettersAndDigits (c : Char) : c ∈ lettersAndDigits ↔ c.isAlphanum = true := by
  rw [lettersAndDigits, List.mem_append, mem_letters, mem_charRange (by decide), Char.isAlphanum,
    Bool.or_eq_true, Char.isDigit, Bool.and_eq_true, decide_eq_true_eq, decide_eq_true_eq]
  rfl

theorem toNat_toLower (c : Char) :
    c.toLower.toNat = if 65 ≤ c.toNat ∧ c.toNat ≤ 90 then c.toNat + 32 else c.toNat := by
  unfold Char.toLower
  split
  · next upper =>
    have range : 65 ≤ c.toNat ∧ c.toNat ≤ 90 := upper
    rw [if_pos range]
    change (c.toNat + 32) % 4294967296 = c.toNat + 32
    omega
  · next other => exact (if_neg other).symm

theorem toNat_toUpper (c : Char) :
    c.toUpper.toNat = if 97 ≤ c.toNat ∧ c.toNat ≤ 122 then c.toNat - 32 else c.toNat := by
  unfold Char.toUpper
  split
  · next lower =>
    have range : 97 ≤ c.toNat ∧ c.toNat ≤ 122 := lower
    have shift : ('A'.val - 'a'.val).toNat = 4294967264 := by decide
    rw [if_pos range]
    change (c.val + ('A'.val - 'a'.val)).toNat = c.toNat - 32
    rw [UInt32.toNat_add, shift]
    change (c.toNat + 4294967264) % 4294967296 = c.toNat - 32
    omega
  · next other => exact (if_neg other).symm

theorem toLower_eq_iff (c d : Char) :
    c.toLower = d.toLower ↔ d = c ∨ d = c.toUpper ∨ d = c.toLower := by
  simp only [← Char.toNat_inj, toNat_toLower, toNat_toUpper]
  split <;> split <;> split <;> omega

theorem toList_toLower (s : String) : s.toLower.toList = s.toList.map Char.toLower :=
  String.toList_map

theorem caseVariant_iff (s t : String) : CaseVariant s t ↔ s.toLower = t.toLower := by
  have chars : ∀ cs ds : List Char,
      List.Forall₂ (fun c d => d = c ∨ d = c.toUpper ∨ d = c.toLower) cs ds ↔
        cs.map Char.toLower = ds.map Char.toLower := by
    intro cs
    induction cs with
    | nil => intro ds; cases ds <;> simp
    | cons c cs ih => intro ds; cases ds <;> simp [ih, toLower_eq_iff]
  rw [CaseVariant, chars, ← String.toList_inj, toList_toLower, toList_toLower]

theorem toLower_letter (c : Char) : c.toLower ∈ letters ↔ c ∈ letters := by
  rw [letters, List.mem_append, List.mem_append, mem_charRange (by decide),
    mem_charRange (by decide), mem_charRange (by decide), mem_charRange (by decide), toNat_toLower]
  change (65 ≤ _ ∧ _ ≤ 90) ∨ (97 ≤ _ ∧ _ ≤ 122) ↔ (65 ≤ _ ∧ _ ≤ 90) ∨ (97 ≤ _ ∧ _ ≤ 122)
  split <;> omega

theorem toLower_digit (c : Char) : c.toLower ∈ charRange '0' '9' ↔ c ∈ charRange '0' '9' := by
  rw [mem_charRange (by decide), mem_charRange (by decide), toNat_toLower]
  change 48 ≤ _ ∧ _ ≤ 57 ↔ 48 ≤ _ ∧ _ ≤ 57
  split <;> omega

theorem toLower_underscore (c : Char) : c.toLower = '_' ↔ c = '_' := by
  rw [← Char.toNat_inj, ← Char.toNat_inj, toNat_toLower]
  change _ = 95 ↔ _ = 95
  split <;> omega

end Text

namespace Ident

open Text

def oneOf (cs : List Char) : RegularExpression Char := (cs.map RegularExpression.char).sum

/-- `_*[A-Za-z0-9]` -/
def stepPattern : RegularExpression Char := .star (.char '_') * oneOf lettersAndDigits

/-- `[A-Za-z](_*[A-Za-z0-9])*` -/
def basicPattern : RegularExpression Char := oneOf letters * .star stepPattern

def BasicText (s : String) : Prop :=
  s.toList ∈ basicPattern.matches' ∧ ∀ t, CaseVariant s t → t ∉ reservedWords

def ExtendedText (s : String) : Prop :=
  s ≠ "" ∧ ∀ c ∈ s.toList, 0x20 ≤ c.toNat ∧ c.toNat ≤ 0x7E

theorem matches_oneOf (cs text : List Char) :
    text ∈ (oneOf cs).matches' ↔ ∃ c ∈ cs, text = [c] := by
  induction cs with
  | nil => simp [oneOf]
  | cons c cs ih =>
    have first : oneOf (c :: cs) = .char c + oneOf cs := rfl
    have single : text ∈ ({[c]} : Language Char) ↔ text = [c] := Set.mem_singleton_iff
    rw [first, RegularExpression.matches'_add, Language.mem_add, ih,
      RegularExpression.matches'_char, single]
    simp

theorem cons_mem_oneOf_mul (cs rest : List Char) (c : Char) (l : Language Char) :
    c :: rest ∈ (oneOf cs).matches' * l ↔ c ∈ cs ∧ rest ∈ l := by
  rw [Language.mem_mul]
  constructor
  · rintro ⟨front, inside, back, later, same⟩
    obtain ⟨d, member, rfl⟩ := (matches_oneOf cs front).mp inside
    obtain ⟨rfl, rfl⟩ := List.cons.inj same
    exact ⟨member, later⟩
  · rintro ⟨member, later⟩
    exact ⟨[c], (matches_oneOf cs [c]).mpr ⟨c, member, rfl⟩, rest, later, rfl⟩

theorem nil_not_mem_oneOf_mul (cs : List Char) (l : Language Char) :
    [] ∉ (oneOf cs).matches' * l := by
  rw [Language.mem_mul]
  rintro ⟨front, inside, back, later, same⟩
  obtain ⟨d, member, rfl⟩ := (matches_oneOf cs front).mp inside
  cases same

def steps : Language Char := stepPattern.matches' * stepPattern.matches'∗

theorem star_eq : stepPattern.matches'∗ = 1 + steps :=
  (Language.one_add_self_mul_kstar_eq_kstar _).symm

theorem steps_eq : steps = (oneOf lettersAndDigits).matches' * stepPattern.matches'∗ +
    (oneOf ['_']).matches' * steps := by
  have underscore : (oneOf ['_']).matches' = (RegularExpression.char '_').matches' := by
    ext text
    rw [matches_oneOf]
    simp only [List.mem_singleton, exists_eq_left]
    rfl
  have step : stepPattern.matches' = (oneOf lettersAndDigits).matches' +
      (oneOf ['_']).matches' * stepPattern.matches' := by
    rw [underscore, stepPattern, RegularExpression.matches'_mul, RegularExpression.matches'_star,
      ← mul_assoc]
    nth_rewrite 1 [← Language.one_add_self_mul_kstar_eq_kstar]
    rw [add_mul, one_mul]
  rw [steps]
  nth_rewrite 1 [step]
  rw [add_mul, mul_assoc]

theorem isBasicTail_iff (closed : Bool) (cs : List Char) :
    isBasicTail closed cs = true ↔
      if closed then cs ∈ stepPattern.matches'∗ else cs ∈ steps := by
  -- An open scan has read underscores that no letter or digit ended: it owes a step.
  induction cs generalizing closed with
  | nil =>
    have none : [] ∉ steps := by
      rw [steps_eq, Language.mem_add, not_or]
      exact ⟨nil_not_mem_oneOf_mul _ _, nil_not_mem_oneOf_mul _ _⟩
    cases closed with
    | false => simp [isBasicTail, none]
    | true => simp [isBasicTail, Language.nil_mem_kstar]
  | cons c cs ih =>
    -- Once a character is left, the two languages do not differ.
    have both : (if closed then c :: cs ∈ stepPattern.matches'∗ else c :: cs ∈ steps) ↔
        c :: cs ∈ steps := by
      cases closed with
      | false => rfl
      | true =>
        rw [if_pos rfl, star_eq, Language.mem_add, Language.mem_one]
        simp
    rw [both, steps_eq, Language.mem_add, cons_mem_oneOf_mul, cons_mem_oneOf_mul,
      mem_lettersAndDigits, List.mem_singleton, isBasicTail]
    have later := ih true
    have pending := ih false
    simp only [if_true, Bool.false_eq_true, if_false] at later pending
    by_cases underscore : c = '_'
    · simp [underscore, pending]
    · simp [underscore, later]

theorem isBasicText_iff (cs : List Char) :
    isBasicText cs = true ↔ cs ∈ basicPattern.matches' := by
  rw [basicPattern, RegularExpression.matches'_mul, RegularExpression.matches'_star]
  cases cs with
  | nil => simp [isBasicText, nil_not_mem_oneOf_mul]
  | cons c cs =>
    rw [cons_mem_oneOf_mul, mem_letters, isBasicText, Bool.and_eq_true, isBasicTail_iff]
    rfl

theorem isBasicTail_toLower (closed : Bool) (cs : List Char) :
    isBasicTail closed (cs.map Char.toLower) = isBasicTail closed cs := by
  induction cs generalizing closed with
  | nil => rfl
  | cons c cs ih =>
    have known : c.toLower.isAlphanum = c.isAlphanum := by
      rw [Bool.eq_iff_iff, ← mem_lettersAndDigits, ← mem_lettersAndDigits, lettersAndDigits,
        List.mem_append, List.mem_append, toLower_letter, toLower_digit]
    simp [isBasicTail, toLower_underscore, known, ih]

theorem isBasicText_toLower (cs : List Char) :
    isBasicText (cs.map Char.toLower) = isBasicText cs := by
  cases cs with
  | nil => rfl
  | cons c cs =>
    have known : c.toLower.isAlpha = c.isAlpha := by
      rw [Bool.eq_iff_iff, ← mem_letters, ← mem_letters, toLower_letter]
    simp [isBasicText, known, isBasicTail_toLower]

theorem isGraphic_iff (c : Char) : isGraphic c = true ↔ 0x20 ≤ c.toNat ∧ c.toNat ≤ 0x7E := by
  rw [isGraphic, Bool.and_eq_true, decide_eq_true_eq, decide_eq_true_eq]
  rfl

theorem variant_of_word {s w : String} (member : w ∈ reservedWords) :
    CaseVariant s w ↔ s.toLower = w := by
  rw [caseVariant_iff, Lexer.toLower_of_mem member]

theorem isReserved_iff_variant (s : String) :
    isReserved s = true ↔ ∃ w ∈ reservedWords, CaseVariant s w := by
  rw [isReserved_iff]
  constructor
  · intro member
    exact ⟨_, member, (variant_of_word member).mpr rfl⟩
  · rintro ⟨w, member, variant⟩
    rw [(variant_of_word member).mp variant]
    exact member

theorem reserved_once (s : String) :
    isReserved s = true ↔ ∃! i : Fin reservedWords.length, CaseVariant s (reservedWords.get i) := by
  -- All entries are in lower case, so two spelled by one text are equal.
  have distinct : reservedWords.Nodup := by decide +kernel
  rw [isReserved_iff_variant]
  constructor
  · rintro ⟨w, member, variant⟩
    obtain ⟨i, rfl⟩ := List.get_of_mem member
    refine ⟨i, variant, ?_⟩
    intro j other
    have words : reservedWords.get j = reservedWords.get i :=
      ((variant_of_word (List.get_mem _ _)).mp other).symm.trans
        ((variant_of_word member).mp variant)
    exact List.nodup_iff_injective_get.mp distinct words
  · rintro ⟨i, variant, -⟩
    exact ⟨_, List.get_mem _ _, variant⟩

theorem basicText_iff (s : String) :
    BasicText s ↔ isBasicText s.toList = true ∧ isReserved s = false := by
  rw [BasicText, isBasicText_iff, ← Bool.not_eq_true, isReserved_iff_variant]
  simp only [not_exists, not_and]
  exact and_congr_right fun _ => ⟨fun free w member variant => free w variant member,
    fun free w variant member => free w member variant⟩

theorem extendedText_iff (s : String) :
    ExtendedText s ↔ s ≠ "" ∧ s.toList.all isGraphic = true := by
  simp only [ExtendedText, List.all_eq_true, isGraphic_iff]

theorem basicText_of_variant {s t : String} (variant : CaseVariant s t) :
    BasicText s ↔ BasicText t := by
  rw [caseVariant_iff] at variant
  have chars : s.toList.map Char.toLower = t.toList.map Char.toLower := by
    rw [← toList_toLower, ← toList_toLower, variant]
  have text : isBasicText s.toList = isBasicText t.toList := by
    rw [← isBasicText_toLower, chars, isBasicText_toLower]
  have words : isReserved s = isReserved t := by
    rw [Bool.eq_iff_iff, isReserved_iff, isReserved_iff, variant]
  rw [basicText_iff, basicText_iff, text, words]

theorem verdict {s : String} {valid : Bool} {Text : Prop} (text : Text ↔ s ≠ "" ∧ valid = true)
    {i : Ident} {cause : Error} (other : cause ≠ .emptyIdentifier) :
    let result : Except Error Ident :=
      if s.isEmpty then .error .emptyIdentifier else if valid then .ok i else .error cause
    (result = .ok i ↔ Text) ∧ (result = .error .emptyIdentifier ↔ s = "") ∧
      (result = .error cause ↔ s ≠ "" ∧ ¬ Text) := by
  rw [text]
  by_cases empty : s = ""
  · simp [empty, other.symm]
  · cases valid <;> simp [empty, other]

theorem ofBasic_verdict (s : String) :
    (ofBasic s = .ok (.basic s) ↔ BasicText s) ∧
      (ofBasic s = .error .emptyIdentifier ↔ s = "") ∧
      (ofBasic s = .error (.invalidBasic s) ↔ s ≠ "" ∧ ¬ BasicText s) := by
  have nonempty (basic : isBasicText s.toList = true) : s ≠ "" := by
    rintro rfl
    simp [isBasicText] at basic
  have valid : BasicText s ↔ s ≠ "" ∧ (isBasicText s.toList && !isReserved s) = true := by
    simpa [basicText_iff] using fun basic _ => nonempty basic
  exact verdict valid (by simp)

theorem ofExtended_verdict (s : String) :
    (ofExtended s = .ok (.extended s) ↔ ExtendedText s) ∧
      (ofExtended s = .error .emptyIdentifier ↔ s = "") ∧
      (ofExtended s = .error (.invalidExtended s) ↔ s ≠ "" ∧ ¬ ExtendedText s) :=
  verdict (extendedText_iff s) (by simp)

theorem isOk_ofBasic (s : String) : (ofBasic s).isOk = true ↔ BasicText s := by
  obtain ⟨accepted, -, -⟩ := ofBasic_verdict s
  rw [← accepted, ofBasic]
  split
  · simp [Except.isOk, Except.toBool]
  · split <;> simp [Except.isOk, Except.toBool]

/-- The checked constructors accept just their languages and name the cause otherwise; the case of
letters plays no part in it, and no text spells two reserved words. -/
theorem constructors_accept (s : String) :
    ((ofBasic s = .ok (.basic s) ↔ BasicText s) ∧
      (ofBasic s = .error .emptyIdentifier ↔ s = "") ∧
      (ofBasic s = .error (.invalidBasic s) ↔ s ≠ "" ∧ ¬ BasicText s)) ∧
    (∀ t, CaseVariant s t → (ofBasic s).isOk = (ofBasic t).isOk) ∧
    ((ofExtended s = .ok (.extended s) ↔ ExtendedText s) ∧
      (ofExtended s = .error .emptyIdentifier ↔ s = "") ∧
      (ofExtended s = .error (.invalidExtended s) ↔ s ≠ "" ∧ ¬ ExtendedText s)) ∧
    (isReserved s = true ↔
      ∃! i : Fin reservedWords.length, CaseVariant s (reservedWords.get i)) ∧
    (isReserved s = false ↔ ∀ w ∈ reservedWords, ¬ CaseVariant s w) := by
  refine ⟨ofBasic_verdict s, ?_, ofExtended_verdict s, reserved_once s, ?_⟩
  · intro t variant
    rw [Bool.eq_iff_iff, isOk_ofBasic, isOk_ofBasic]
    exact basicText_of_variant variant
  · rw [← Bool.not_eq_true, isReserved_iff_variant]
    simp only [not_exists, not_and]

/-- `a__B1` is accepted in any case, though it has two underscores in a row. -/
theorem accepts_underscores_in_any_case :
    CaseVariant "a__B1" "A__b1" ∧ (ofBasic "a__B1").isOk = (ofBasic "A__b1").isOk ∧
      BasicText "a__B1" := by
  have variant : CaseVariant "a__B1" "A__b1" := by
    simp [CaseVariant]
  have text : isBasicText "a__B1".toList = true := by decide +kernel
  have free : isReserved "a__B1" = false := by decide +kernel
  obtain ⟨-, anyCase, -⟩ := constructors_accept "a__B1"
  exact ⟨variant, anyCase _ variant, (basicText_iff _).mpr ⟨text, free⟩⟩

end Ident

end Vhdl93
