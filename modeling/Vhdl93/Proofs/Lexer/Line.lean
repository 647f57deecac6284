import Vhdl93.Proofs.Lexer.Cutting

set_option autoImplicit false

namespace Vhdl93.Lexer

variable {rules : Rules} {before : Before}

namespace Lexeme

def isWord : Lexeme → Bool
  | .ident _ | .keyword _ => true
  | _ => false

def endsLine : Lexeme → Bool
  | .delimiter d => d ∈ [")", ";", "=>"]
  | l => l.endsName

theorem after_of_endsLine {l : Lexeme} (ends : l.endsLine = true) :
    l.after rules before ≠ .tick := by
  cases l with
  | delimiter d =>
    simp only [endsLine, List.mem_cons, List.not_mem_nil, or_false, decide_eq_true_eq] at ends
    rcases ends with rfl | rfl | rfl <;> simp [after]
  | ident | keyword => exact after_ne_tick ends
  | white | comment | number | character | string | bitString | stray => cases ends

theorem endsLine_meets {l : Lexeme} (ends : l.endsLine = true) : l.Meets (.white " ") := by
  cases l with
  | delimiter d =>
    simp only [endsLine, List.mem_cons, List.not_mem_nil, or_false, decide_eq_true_eq] at ends
    rcases ends with rfl | rfl | rfl <;>
      exact ⟨by simp [text, stopsAt, compounds], by simp, by simp, by simp [isBlank]⟩
  | ident | keyword => exact operand_meets_white ends
  | white | comment | number | character | string | bitString | stray => cases ends

end Lexeme

namespace Phrase

variable {ends : Lexeme → Bool} {xs ys js : List Lexeme}

theorem keyword {word : String} (member : word ∈ reservedWords) :
    Phrase rules Lexeme.endsLine [.keyword word] :=
  .single (keyword_fits member) rfl rfl

theorem ident {i : Ident} (accepted : i.isAccepted = true) :
    Phrase rules Lexeme.endsName [.ident i] :=
  .single (ident_fits accepted) rfl rfl

theorem line (phrase : Phrase rules Lexeme.endsName xs) : Phrase rules Lexeme.endsLine xs := by
  obtain ⟨l, last, ends⟩ := phrase.ends
  refine ⟨phrase.legible, phrase.starts, l, last, ?_⟩
  cases l with
  | delimiter d =>
    have closes : d = ")" := by simpa [Lexeme.endsName] using ends
    simp [Lexeme.endsLine, closes]
  | ident | keyword => exact ends
  | white | comment | number | character | string | bitString | stray => cases ends

theorem ended (phrase : Phrase rules Lexeme.endsOperand xs) :
    Phrase rules Lexeme.endsLine (xs ++ [.delimiter ";"]) := by
  refine phrase.append ?_ ⟨⟨by decide, by simp⟩, by simp, trivial⟩ ⟨_, rfl, by decide⟩
  intro l ends m member
  obtain rfl : Lexeme.delimiter ";" = m := by simpa using member
  exact Lexeme.operand_meets ends rfl (by decide) (by decide) (by simp [Lexeme.isBlank])

theorem named {i : Ident} (accepted : i.isAccepted = true) (joint : Joint rules js)
    (phrase : Phrase rules ends ys) : Phrase rules ends (.ident i :: (js ++ ys)) :=
  (Phrase.ident accepted).operand.join joint phrase

theorem headed {l : Lexeme} (phrase : Phrase rules Lexeme.endsOperand xs)
    (fits : ∀ b, l.Fits rules b) (leads : l.leads = true) (ends : l.endsLine = true) :
    Phrase rules Lexeme.endsLine (xs ++ [.white " ", l]) := by
  refine phrase.append ?_ ⟨white_fits, ?_, fits _, by simp, trivial⟩ ⟨_, rfl, ends⟩
  · intro k ends m next
    obtain rfl : Lexeme.white " " = m := by simpa using next
    exact operand_meets_white ends
  · intro m next
    obtain rfl : l = m := by simpa using next
    exact Lexeme.white_meets " " (fits .start) leads

end Phrase

theorem Phrase.listed {js : List Lexeme} {items : List (List Lexeme)} (joint : Joint rules js)
    (each : ∀ x ∈ items, Phrase rules Lexeme.endsOperand x) :
    Phrase rules Lexeme.endsName (.delimiter "(" ::
      (Lexer.separated js items ++ [.delimiter ")"])) := by
  cases items with
  | nil => exact Phrase.enclosed (.inl rfl)
  | cons item items => exact Phrase.enclosed (.inr (.separated joint each))

/-- A phrase that starts with a word and ends as lines do. -/
structure Line (rules : Rules) (ls : List Lexeme) : Prop where
  phrase : Phrase rules Lexeme.endsLine ls
  word : ∃ l ∈ ls.head?, l.isWord = true

namespace Line

variable {xs ys : List Lexeme}

theorem legible (line : Line rules xs) (free : before ≠ .tick) : Legible rules before xs := by
  -- A word is read in the same way behind everything but a tick.
  obtain ⟨l, head, word⟩ := line.word
  have first := line.phrase.legible
  cases xs with
  | nil => trivial
  | cons m xs =>
    obtain rfl : m = l := by simpa using head
    obtain ⟨fits, meets, rest⟩ := first
    cases m with
    | ident i => cases i <;> exact ⟨fits, meets, rest⟩
    | keyword w =>
      refine ⟨fits, meets, ?_⟩
      have same : (Lexeme.keyword w).after rules before =
          (Lexeme.keyword w).after rules .start := by
        simp [Lexeme.after, free]
      rw [same]
      exact rest
    | white | comment | delimiter | number | character | string | bitString | stray => cases word

theorem after_ne_tick (line : Line rules xs) : afterAll rules before xs ≠ .tick := by
  obtain ⟨l, last, ends⟩ := line.phrase.ends
  obtain ⟨b, same⟩ := @afterAll_last rules before xs l last
  rw [same]
  exact Lexeme.after_of_endsLine ends

theorem join (left : Line rules xs) (right : Line rules ys) :
    Line rules (xs ++ .white " " :: ys) := by
  obtain ⟨l, last, ends⟩ := right.phrase.ends
  obtain ⟨first, head, word⟩ := left.word
  refine ⟨left.phrase.append ?_ ⟨white_fits, ?_, right.legible left.after_ne_tick⟩ ⟨l, ?_, ends⟩,
    first, ?_, word⟩
  · intro k closes m member
    obtain rfl : Lexeme.white " " = m := by simpa using member
    exact Lexeme.endsLine_meets closes
  · exact right.phrase.head_meets fun m fits leads => Lexeme.white_meets " " fits leads
  · rw [Option.mem_def] at last ⊢
    simp [List.getLast?_cons, last]
  · rw [Option.mem_def] at head ⊢
    simp [List.head?_append, head]

end Line

end Vhdl93.Lexer
