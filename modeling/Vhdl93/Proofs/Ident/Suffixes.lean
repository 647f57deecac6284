import Vhdl93.Proofs.Ident.Language

set_option autoImplicit false

namespace Vhdl93.Ident

open Computability Text

/-- `(_*[A-Za-z0-9])+` -/
def suffixPattern : RegularExpression Char := stepPattern * .star stepPattern

theorem matches_basic_append {s t : List Char} (basic : s ∈ basicPattern.matches')
    (suffix : t ∈ suffixPattern.matches') : s ++ t ∈ basicPattern.matches' := by
  have absorbed : basicPattern.matches' * suffixPattern.matches' ≤ basicPattern.matches' := by
    simp only [basicPattern, suffixPattern, RegularExpression.matches'_mul,
      RegularExpression.matches'_star]
    calc (oneOf letters).matches' * stepPattern.matches'∗ *
          (stepPattern.matches' * stepPattern.matches'∗)
        ≤ (oneOf letters).matches' * stepPattern.matches'∗ * stepPattern.matches'∗ := by
          gcongr
          exact mul_kstar_le_kstar
      _ = (oneOf letters).matches' * stepPattern.matches'∗ := by
          rw [mul_assoc, kstar_mul_kstar]
  exact absorbed (Language.append_mem_mul basic suffix)

theorem not_reserved_of_underscore {s : String} (underscore : '_' ∈ s.toList) :
    isReserved s = false := by
  have plain : ∀ word ∈ reservedWords, '_' ∉ word.toList := by decide +kernel
  rw [← Bool.not_eq_true, isReserved_iff]
  intro member
  have lowered : '_' ∈ s.toLower.toList := by
    rw [toList_toLower]
    exact List.mem_map.mpr ⟨'_', underscore, rfl⟩
  exact plain _ member lowered

theorem eq_of_ofBasic {s : String} {i : Ident} (accepted : ofBasic s = .ok i) :
    i = .basic s ∧ BasicText s := by
  have text : BasicText s := by
    rw [← isOk_ofBasic, accepted]
    rfl
  have same : ofBasic s = .ok (.basic s) := (ofBasic_verdict s).1.mpr text
  exact ⟨Except.ok.inj (accepted.symm.trans same), text⟩

theorem eq_of_ofExtended {s : String} {i : Ident} (accepted : ofExtended s = .ok i) :
    i = .extended s ∧ ExtendedText s := by
  unfold ofExtended at accepted
  split at accepted
  · cases accepted
  · next nonempty =>
    split at accepted
    · next graphic =>
      cases accepted
      exact ⟨rfl, (extendedText_iff s).mpr ⟨by simpa using nonempty, graphic⟩⟩
    · cases accepted

theorem basicText_append {s t : String} (basic : BasicText s)
    (suffix : t.toList ∈ suffixPattern.matches') :
    (s ++ t).toList ∈ basicPattern.matches' ∧
      (BasicText (s ++ t) ↔ ∀ word ∈ reservedWords, ¬ CaseVariant (s ++ t) word) := by
  have grammar : (s ++ t).toList ∈ basicPattern.matches' := by
    rw [String.toList_append]
    exact matches_basic_append basic.1 suffix
  refine ⟨grammar, fun text word member variant => text.2 word variant member, ?_⟩
  exact fun free => ⟨grammar, fun word variant member => free word member variant⟩

theorem extendedText_append {s t : String} (text : ExtendedText s)
    (graphic : ∀ c ∈ t.toList, 0x20 ≤ c.toNat ∧ c.toNat ≤ 0x7E) : ExtendedText (s ++ t) := by
  refine ⟨by simp [text.1], ?_⟩
  intro c member
  rw [String.toList_append, List.mem_append] at member
  exact member.elim (text.2 c) (graphic c)

theorem append_append (i : Ident) (s t : String) : (i.append s).append t = i.append (s ++ t) := by
  cases i <;> simp [append, String.append_assoc]

/-- A suffix of steps leaves an accepted basic identifier inside the grammar, and only a reserved
word is refused then, never a text whose suffix has an underscore. A graphic suffix leaves an
accepted extended identifier accepted. Suffixes add up, and the kind of an identifier stays. -/
theorem suffix_keeps_identifier :
    (∀ (text s : String) (i : Ident), ofBasic text = .ok i →
        s.toList ∈ suffixPattern.matches' →
        (i.append s).text.toList ∈ basicPattern.matches' ∧
          ((ofBasic (i.append s).text).isOk = true ↔
            ∀ word ∈ reservedWords, ¬ CaseVariant (i.append s).text word) ∧
          ('_' ∈ s.toList → ofBasic (i.append s).text = .ok (i.append s))) ∧
      (∀ (text s : String) (i : Ident), ofExtended text = .ok i →
        (∀ c ∈ s.toList, 0x20 ≤ c.toNat ∧ c.toNat ≤ 0x7E) →
        ofExtended (i.append s).text = .ok (i.append s)) ∧
      ∀ (i : Ident) (s t : String), (i.append s).append t = i.append (s ++ t) ∧
        (i.append s).isBasic = i.isBasic := by
  refine ⟨?_, ?_, fun i s t => ⟨i.append_append s t, i.isBasic_append s⟩⟩
  · intro text s i accepted suffix
    obtain ⟨rfl, basic⟩ := eq_of_ofBasic accepted
    obtain ⟨grammar, free⟩ := basicText_append basic suffix
    refine ⟨grammar, (isOk_ofBasic _).trans free, ?_⟩
    intro underscore
    have unreserved : isReserved (text ++ s) = false :=
      not_reserved_of_underscore (by simp [underscore])
    exact (ofBasic_verdict (text ++ s)).1.mpr
      ((basicText_iff _).mpr ⟨(isBasicText_iff _).mpr grammar, unreserved⟩)
  · intro text s i accepted graphic
    obtain ⟨rfl, extended⟩ := eq_of_ofExtended accepted
    exact (ofExtended_verdict (text ++ s)).1.mpr (extendedText_append extended graphic)

/-- `en` with the suffix `d` is refused though both are right, and with `_d` it is accepted. -/
theorem suffix_of_reserved_word :
    ofBasic "en" = .ok (.basic "en") ∧ (ofBasic ((basic "en").append "d").text).isOk = false ∧
      ofBasic ((basic "en").append "_d").text = .ok (.basic "en_d") ∧
      ofExtended ((extended "my data").append "\\0").text = .ok (.extended "my data\\0") := by
  have accepted : ofBasic "en" = .ok (.basic "en") := by decide +kernel
  have quoted : ofExtended "my data" = .ok (.extended "my data") := by decide +kernel
  have step (s : String) (tail : isBasicTail false s.toList = true) :
      s.toList ∈ suffixPattern.matches' := (isBasicTail_iff false _).mp tail
  obtain ⟨basics, extendeds, -⟩ := suffix_keeps_identifier
  obtain ⟨-, refused, -⟩ := basics "en" "d" _ accepted (step "d" (by decide))
  obtain ⟨-, -, safe⟩ := basics "en" "_d" _ accepted (step "_d" (by decide))
  refine ⟨accepted, ?_, safe (by decide), extendeds _ "\\0" _ quoted (by simp)⟩
  rw [← Bool.not_eq_true, refused]
  intro free
  have word : CaseVariant ((basic "en").append "d").text "end" := by
    simp [CaseVariant, append, text]
  exact free "end" (by decide) word

end Vhdl93.Ident
