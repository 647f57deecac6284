import Vhdl93.Proofs.Lexer.Tokens

set_option autoImplicit false

namespace Vhdl93.Lexer

variable {rules : Rules} {before : Before}

def isBreak (c : Char) : Bool := isWhite c || c ∈ singles

theorem of_break {c : Char} (breaks : isBreak c = true) :
    isWordChar c = false ∧ c ≠ '"' ∧ c ≠ '\\' ∧ c ≠ '#' := by
  simp only [isBreak, Bool.or_eq_true, decide_eq_true_eq] at breaks
  rcases breaks with white | single
  · obtain ⟨word, -, marks⟩ := of_white white
    simpa [word] using marks
  · obtain ⟨-, word, string, extended⟩ := of_single single
    exact ⟨word, string, extended, by rintro rfl; revert single; decide⟩

namespace Lexeme

def leads : Lexeme → Bool
  | .white _ => false
  | .delimiter d => d ≠ ")"
  | _ => true

theorem not_blank_of_leads {l : Lexeme} (leads : l.leads = true) : l.isBlank = false := by
  cases l <;> first | rfl | cases leads

theorem ne_closing_of_leads {l : Lexeme} (leads : l.leads = true) : l ≠ .delimiter ")" := by
  rintro rfl
  simp [Lexeme.leads] at leads

def endsName : Lexeme → Bool
  | .ident _ | .keyword _ => true
  | .delimiter d => d = ")"
  | _ => false

def endsOperand : Lexeme → Bool
  | .number _ | .character _ | .string _ | .bitString _ _ => true
  | l => l.endsName

theorem endsOperand_of_endsName {l : Lexeme} (ends : l.endsName = true) : l.endsOperand = true := by
  cases l <;> simp_all [endsName, endsOperand]

theorem not_blank_of_endsOperand {l : Lexeme} (ends : l.endsOperand = true) :
    l.isBlank = false := by
  cases l <;> first | rfl | cases ends

theorem not_blank_of_endsName {l : Lexeme} (ends : l.endsName = true) : l.isBlank = false :=
  not_blank_of_endsOperand (endsOperand_of_endsName ends)

theorem endsName_stops {l : Lexeme} {c : Char} (ends : l.endsName = true)
    (breaks : isBreak c = true) : l.stopsAt c = true := by
  obtain ⟨word, string, extended, -⟩ := of_break breaks
  cases l with
  | ident i => cases i <;> simp [stopsAt, word, string, extended]
  | keyword => simp [stopsAt, word, string]
  | delimiter d =>
    simp only [endsName, decide_eq_true_eq] at ends
    simp [ends, stopsAt, compounds]
  | white | comment | number | character | string | bitString | stray => cases ends

theorem endsOperand_stops {l : Lexeme} {c : Char} (ends : l.endsOperand = true)
    (breaks : isBreak c = true) (other : c ≠ '.') : l.stopsAt c = true := by
  -- A number would go on with a dot.
  obtain ⟨word, string, -, based⟩ := of_break breaks
  cases l with
  | number => simp [stopsAt, word, other, based]
  | string => simp [stopsAt, string]
  | character | bitString => rfl
  | ident | keyword | delimiter | white | comment | stray => exact endsName_stops ends breaks

theorem after_ne_tick {l : Lexeme} (ends : l.endsOperand = true) :
    l.after rules before ≠ .tick := by
  cases l with
  | keyword =>
    simp only [after]
    split <;> simp
  | delimiter d =>
    simp only [endsOperand, endsName, decide_eq_true_eq] at ends
    simp [after, ends]
  | ident | number | character | string | bitString => simp [after]
  | white | comment | stray => cases ends

theorem Fits.head {l : Lexeme} {c : Char} (fits : l.Fits rules before)
    (member : c ∈ l.text.toList.head?) :
    isWhite c = true ∧ l.isBlank = true ∨ isWordChar c = true ∨ c ∈ ['\\', '"', '\x27'] ∨
      ∃ d tail, l = .delimiter d ∧ d.toList = c :: tail ∧ c ∈ singles := by
  have word {cs : List Char} (basic : Ident.isBasicText cs = true) (head : c ∈ cs.head?) :
      isWordChar c = true := by
    obtain ⟨d, tail, rfl, letter, -⟩ := basicText_cases basic
    obtain rfl : d = c := by simpa using head
    simp [isWordChar, letter]
  cases l with
  | white text =>
    cases same : text.toList with
    | nil => exact absurd same fits.1
    | cons d tail =>
      obtain rfl : d = c := by simpa [Lexeme.text, same] using member
      have white := fits.2
      simp only [same, List.all_cons, Bool.and_eq_true] at white
      exact .inl ⟨white.1, rfl⟩
  | comment | stray => cases fits
  | ident i =>
    cases i with
    | basic text => exact .inr (.inl (word fits.1 member))
    | extended text =>
      obtain rfl : '\\' = c := by simpa [Lexeme.text, Ident.render] using member
      exact .inr (.inr (.inl (by decide)))
  | keyword text => exact .inr (.inl (word fits.1 member))
  | delimiter d =>
    obtain ⟨e, tail, same, single⟩ := delimiter_head fits.1
    obtain rfl : e = c := by simpa [Lexeme.text, same] using member
    exact .inr (.inr (.inr ⟨d, tail, rfl, same, single⟩))
  | number text =>
    obtain ⟨d, tail, same, digit⟩ := number_head fits
    obtain rfl : d = c := by simpa [Lexeme.text, same] using member
    exact .inr (.inl (by simp [isWordChar, digit]))
  | character d =>
    obtain rfl : '\x27' = c := by simpa [Lexeme.text, Token.text] using member
    exact .inr (.inr (.inl (by decide)))
  | string text =>
    obtain rfl : '"' = c := by simpa [Lexeme.text, Token.text] using member
    exact .inr (.inr (.inl (by decide)))
  | bitString base digits =>
    refine .inr (.inl ?_)
    cases base <;> simp [Lexeme.text, Token.text, Base.text] at member <;> subst member <;> decide

theorem stops_white {l : Lexeme} {c : Char} (fits : l.Fits rules before) (black : l.isBlank = false)
    (white : isWhite c = true) : l.stopsAt c = true := by
  -- Every lexeme ends before white space.
  obtain ⟨word, single, marks⟩ := of_white white
  simp only [List.mem_cons, List.not_mem_nil, or_false, not_or] at marks
  cases l with
  | white => cases black
  | comment | stray => cases fits
  | ident i => cases i <;> simp [Lexeme.stopsAt, word, marks]
  | keyword => simp [Lexeme.stopsAt, word, marks]
  | delimiter d =>
    have second : (['-', '-'] :: compounds).all (fun cs => cs.getLast?.all (· ∈ singles)) =
        true := by decide
    simp only [Lexeme.stopsAt, decide_eq_true_eq]
    intro member
    have last := List.all_eq_true.mp second _ member
    exact single (by simpa using last)
  | number =>
    have point : c ≠ '.' := by
      rintro rfl
      exact single (by decide)
    simp [Lexeme.stopsAt, word, marks, point]
  | string => simp [Lexeme.stopsAt, marks]
  | character | bitString => rfl

theorem meets_blank {l : Lexeme} (fits : l.Fits rules before) (black : l.isBlank = false)
    (other : l ≠ .delimiter "(") : l.Meets (.white " ") := by
  refine ⟨?_, by simp, fun paren => absurd paren other, by simp [black]⟩
  intro c member
  obtain rfl : ' ' = c := by simpa [text] using member
  exact stops_white fits black (by decide)

theorem white_meets {l : Lexeme} (text : String) (fits : l.Fits rules before)
    (leads : l.leads = true) : (Lexeme.white text).Meets l := by
  refine ⟨?_, by simp [not_blank_of_leads leads], by simp, fun _ => ne_closing_of_leads leads⟩
  intro c member
  suffices plain : isWhite c = false by simp [stopsAt, plain]
  rcases fits.head member with ⟨-, blank⟩ | word | mark | ⟨d, tail, -, -, single⟩
  · simp [not_blank_of_leads leads] at blank
  · exact not_white_of_wordChar word
  · simp only [List.mem_cons, List.not_mem_nil, or_false] at mark
    rcases mark with rfl | rfl | rfl <;> decide
  · exact (of_single single).1

theorem minus_meets {l : Lexeme} (fits : l.Fits rules before) (leads : l.leads = true)
    (other : l ≠ .delimiter "-") : (Lexeme.delimiter "-").Meets l := by
  refine ⟨?_, by simp [not_blank_of_leads leads], by simp, by simp [isBlank]⟩
  intro c member
  suffices plain : c ≠ '-' by simp [stopsAt, compounds, plain]
  rintro rfl
  rcases fits.head member with ⟨white, -⟩ | word | mark | ⟨d, tail, rfl, same, -⟩
  · revert white
    decide
  · revert word
    decide
  · simp at mark
  · have alone := alone_of_head fits.1 same (.inr rfl)
    apply other
    congr 1
    exact String.toList_injective (by rw [same, alone]; rfl)

theorem paren_meets {l : Lexeme} (black : l.isBlank = false) : (Lexeme.delimiter "(").Meets l :=
  ⟨fun c _ => by simp [stopsAt, compounds], by simp [black], fun _ => black, by simp [isBlank]⟩

theorem operand_meets {l m : Lexeme} {c : Char} (ends : l.endsOperand = true)
    (head : m.text.toList.head? = some c) (breaks : isBreak c = true) (other : c ≠ '.')
    (single : m.isBlank = true → m = .white " ") : l.Meets m := by
  refine ⟨?_, single, ?_, ?_⟩
  · intro d member
    obtain rfl : c = d := Option.some.inj (head.symm.trans member)
    exact endsOperand_stops ends breaks other
  · rintro rfl
    simp [endsOperand, endsName] at ends
  · simp [not_blank_of_endsOperand ends]

theorem name_meets {l m : Lexeme} {c : Char} (ends : l.endsName = true)
    (head : m.text.toList.head? = some c) (breaks : isBreak c = true)
    (single : m.isBlank = true → m = .white " ") : l.Meets m := by
  refine ⟨?_, single, ?_, ?_⟩
  · intro d member
    obtain rfl : c = d := Option.some.inj (head.symm.trans member)
    exact endsName_stops ends breaks
  · rintro rfl
    simp [endsName] at ends
  · simp [not_blank_of_endsName ends]

end Lexeme

@[simp] theorem afterAll_nil : afterAll rules before [] = before := rfl

@[simp] theorem afterAll_cons (l : Lexeme) (ls : List Lexeme) :
    afterAll rules before (l :: ls) = afterAll rules (l.after rules before) ls := rfl

@[simp] theorem afterAll_append (ls ms : List Lexeme) :
    afterAll rules before (ls ++ ms) = afterAll rules (afterAll rules before ls) ms := by
  simp [afterAll]

theorem afterAll_last {ls : List Lexeme} {l : Lexeme} (last : l ∈ ls.getLast?) :
    ∃ b, afterAll rules before ls = l.after rules b := by
  obtain ⟨init, rfl⟩ := List.getLast?_eq_some_iff.mp last
  exact ⟨afterAll rules before init, by simp⟩

theorem Legible.head_fits {l : Lexeme} {ls : List Lexeme} (legible : Legible rules before ls)
    (first : l ∈ ls.head?) : l.Fits rules before := by
  cases ls with
  | nil => cases first
  | cons m ls =>
    obtain rfl : m = l := by simpa using first
    exact legible.1

def separated (separator : List Lexeme) : List (List Lexeme) → List Lexeme
  | [] => []
  | [item] => item
  | item :: rest => item ++ (separator ++ separated separator rest)

theorem separated_cons (separator item : List Lexeme) (items : List (List Lexeme)) :
    separated separator (item :: items) = item ++ items.flatMap (separator ++ ·) := by
  induction items generalizing item with
  | nil => simp [separated]
  | cons next items ih => simp [separated, ih]

/-- Lexemes that are legible at the start of a text and end as `ends` tells. -/
structure Phrase (rules : Rules) (ends : Lexeme → Bool) (ls : List Lexeme) : Prop where
  legible : Legible rules .start ls
  starts : ∃ l ∈ ls.head?, l.leads = true
  ends : ∃ l ∈ ls.getLast?, ends l = true

/-- What stands between two phrases. -/
structure Joint (rules : Rules) (js : List Lexeme) : Prop where
  legible : ∀ b, b ≠ .tick → Legible rules b js
  after : ∀ b, b ≠ .tick → afterAll rules b js = .start
  left : ∃ m ∈ js.head?, ∀ l : Lexeme, l.endsOperand = true → l.Meets m
  right : ∃ l ∈ js.getLast?, ∀ (m : Lexeme) (b : Before), m.Fits rules b → m.leads =
    true → l.Meets m

namespace Phrase

variable {ends : Lexeme → Bool} {xs ys js : List Lexeme}

theorem single {l : Lexeme} (fits : l.Fits rules .start) (leads : l.leads = true)
    (last : ends l = true) : Phrase rules ends [l] :=
  ⟨⟨fits, by simp, trivial⟩, ⟨l, rfl, leads⟩, l, rfl, last⟩

theorem operand (phrase : Phrase rules Lexeme.endsName xs) :
    Phrase rules Lexeme.endsOperand xs := by
  obtain ⟨l, last, closes⟩ := phrase.ends
  exact ⟨phrase.legible, phrase.starts, l, last, Lexeme.endsOperand_of_endsName closes⟩

theorem after_ne_tick (phrase : Phrase rules Lexeme.endsOperand xs) :
    afterAll rules before xs ≠ .tick := by
  obtain ⟨l, last, closes⟩ := phrase.ends
  obtain ⟨b, same⟩ := @afterAll_last rules before xs l last
  rw [same]
  exact Lexeme.after_ne_tick closes

theorem append {other : Lexeme → Bool} (phrase : Phrase rules ends xs)
    (meets : ∀ l, ends l = true → ∀ m ∈ ys.head?, l.Meets m)
    (legible : Legible rules (afterAll rules .start xs) ys)
    (last : ∃ l ∈ ys.getLast?, other l = true) : Phrase rules other (xs ++ ys) := by
  obtain ⟨l, lastLeft, closes⟩ := phrase.ends
  obtain ⟨first, firstLeft, black⟩ := phrase.starts
  obtain ⟨m, lastRight, closesRight⟩ := last
  refine ⟨legible_append.mpr ⟨phrase.legible, ?_, legible⟩, ⟨first, ?_, black⟩, m, ?_, closesRight⟩
  · intro k member
    obtain rfl : l = k := by
      rw [Option.mem_def] at lastLeft member
      exact Option.some.inj (lastLeft.symm.trans member)
    exact meets l closes
  · rw [Option.mem_def] at firstLeft ⊢
    simp [List.head?_append, firstLeft]
  · rw [Option.mem_def] at lastRight ⊢
    simp [List.getLast?_append, lastRight]

theorem behind_joint (joint : Joint rules js) (right : Phrase rules ends ys)
    (free : before ≠ .tick) : Legible rules before (js ++ ys) := by
  obtain ⟨k, last, meets⟩ := joint.right
  obtain ⟨h, head, leads⟩ := right.starts
  refine legible_append.mpr ⟨joint.legible before free, ?_, ?_⟩
  · intro e member n next
    obtain rfl : k = e := Option.some.inj (last.symm.trans member)
    obtain rfl : h = n := Option.some.inj (head.symm.trans next)
    exact meets h _ (right.legible.head_fits head) leads
  · rw [joint.after before free]
    exact right.legible

theorem join (left : Phrase rules Lexeme.endsOperand xs) (joint : Joint rules js)
    (right : Phrase rules ends ys) : Phrase rules ends (xs ++ (js ++ ys)) := by
  obtain ⟨m, first, meets⟩ := joint.left
  obtain ⟨l, last, closes⟩ := right.ends
  refine left.append ?_ (behind_joint joint right left.after_ne_tick) ⟨l, ?_, closes⟩
  · intro e endsOperand n member
    rw [Option.mem_def] at first member
    rw [List.head?_append, first] at member
    obtain rfl : m = n := by simpa using member
    exact meets e endsOperand
  · rw [Option.mem_def] at last ⊢
    simp [List.getLast?_append, last]

theorem separated {js : List Lexeme} {item : List Lexeme} {items : List (List Lexeme)}
    (joint : Joint rules js) (each : ∀ x ∈ item :: items, Phrase rules Lexeme.endsOperand x) :
    Phrase rules Lexeme.endsOperand (Lexer.separated js (item :: items)) := by
  induction items generalizing item with
  | nil => exact each item (by simp)
  | cons next items ih =>
    have first := each item (by simp)
    have later := @ih next fun x member => each x (List.mem_cons_of_mem _ member)
    exact first.join joint later

theorem cons {l : Lexeme} (fits : l.Fits rules .start) (leads : l.leads = true)
    (after : l.after rules .start = .start) (meets : ∀ m ∈ ys.head?, l.Meets m)
    (phrase : Phrase rules ends ys) : Phrase rules ends (l :: ys) := by
  obtain ⟨m, last, closes⟩ := phrase.ends
  refine ⟨⟨fits, meets, by rw [after]; exact phrase.legible⟩, ⟨l, rfl, leads⟩, m, ?_, closes⟩
  rw [Option.mem_def] at last ⊢
  simp [List.getLast?_cons, last]

theorem head_meets {l : Lexeme} (phrase : Phrase rules ends ys)
    (meets : ∀ m, m.Fits rules .start → m.leads = true → l.Meets m) :
    ∀ m ∈ ys.head?, l.Meets m := by
  obtain ⟨first, head, leads⟩ := phrase.starts
  intro m member
  obtain rfl : first = m := Option.some.inj (head.symm.trans member)
  exact meets first (phrase.legible.head_fits head) leads

theorem enclosed_legible (inner : xs = [] ∨ Phrase rules Lexeme.endsOperand xs) :
    Legible rules before (.delimiter "(" :: xs ++ [.delimiter ")"]) := by
  -- What stands between parentheses is read from the start, whatever precedes them.
  have opening : (Lexeme.delimiter "(").Fits rules before :=
    symbol_fits (s := .leftParen) (by decide)
  have closing (b : Before) : (Lexeme.delimiter ")").Fits rules b :=
    symbol_fits (s := .rightParen) (by decide)
  have start : (Lexeme.delimiter "(").after rules before = .start := by simp [Lexeme.after]
  rcases inner with rfl | phrase
  · exact ⟨opening, by simpa using Lexeme.paren_meets rfl, closing _, by simp, trivial⟩
  · obtain ⟨l, last, ends⟩ := phrase.ends
    obtain ⟨first, head, leads⟩ := phrase.starts
    refine ⟨opening, ?_, ?_⟩
    · intro m member
      rw [Option.mem_def] at head
      obtain rfl : first = m := by simpa [List.head?_append, head] using member
      exact Lexeme.paren_meets (Lexeme.not_blank_of_leads leads)
    · rw [start]
      refine legible_append.mpr ⟨phrase.legible, ?_, closing _, by simp, trivial⟩
      intro k member m next
      obtain rfl : l = k := Option.some.inj (last.symm.trans member)
      obtain rfl : Lexeme.delimiter ")" = m := by simpa using next
      exact Lexeme.operand_meets ends rfl (by decide) (by decide) (by simp [Lexeme.isBlank])

theorem enclosed_last (xs : List Lexeme) :
    Lexeme.delimiter ")" ∈ (Lexeme.delimiter "(" :: xs ++ [Lexeme.delimiter ")"]).getLast? := by
  rw [Option.mem_def, List.getLast?_append]
  rfl

theorem enclosed (inner : xs = [] ∨ Phrase rules Lexeme.endsOperand xs) :
    Phrase rules Lexeme.endsName (.delimiter "(" :: xs ++ [.delimiter ")"]) :=
  ⟨enclosed_legible inner, ⟨_, rfl, rfl⟩, _, enclosed_last xs, rfl⟩

theorem applied (name : Phrase rules Lexeme.endsName ys)
    (inner : xs = [] ∨ Phrase rules Lexeme.endsOperand xs) :
    Phrase rules Lexeme.endsName (ys ++ (.delimiter "(" :: xs ++ [.delimiter ")"])) := by
  refine name.append ?_ (enclosed_legible inner) ⟨_, enclosed_last xs, rfl⟩
  intro l ends m member
  obtain rfl : Lexeme.delimiter "(" = m := by simpa using member
  exact Lexeme.name_meets ends rfl (by decide) (by simp [Lexeme.isBlank])

end Phrase

theorem white_fits : (Lexeme.white " ").Fits rules before := by
  simp [Lexeme.Fits, isWhite]

theorem operand_meets_white {l : Lexeme} (ends : l.endsOperand = true) : l.Meets (.white " ") :=
  Lexeme.operand_meets ends rfl (by decide) (by decide) (by simp [Lexeme.isBlank])

namespace Joint

theorem spaced {l : Lexeme} (fits : ∀ b, l.Fits rules b) (leads : l.leads = true)
    (meets : l.Meets (.white " "))
    (after : ∀ b, b ≠ .tick → l.after rules b = .start) :
      Joint rules [.white " ", l, .white " "] where
  legible b free :=
    ⟨white_fits, by simpa using Lexeme.white_meets " " (fits b) leads, fits _, by simpa using meets, white_fits,
      by simp, trivial⟩
  after b free := by
    have white (b : Before) : (Lexeme.white " ").after rules b = b := rfl
    rw [afterAll_cons, afterAll_cons, afterAll_cons, afterAll_nil, white, white, after b free]
  left := ⟨_, rfl, fun l ends => operand_meets_white ends⟩
  right := ⟨.white " ", rfl, fun m b fits leads => Lexeme.white_meets " " fits leads⟩

theorem delimiter {d : String} (delimiter : isDelimiter d.toList = true)
    (plain : d ∉ ["'", "(", ")"]) : Joint rules [.white " ", .delimiter d, .white " "] := by
  simp only [List.mem_cons, List.not_mem_nil, or_false, not_or] at plain
  have fits (b : Before) : (Lexeme.delimiter d).Fits rules b :=
    ⟨delimiter, fun tick => absurd tick plain.1⟩
  refine spaced fits (by simp [Lexeme.leads, plain])
    (Lexeme.meets_blank (fits .start) rfl (by simp [plain])) ?_
  intro b _
  simp [Lexeme.after, plain]

theorem colon : Joint rules [.white " ", .delimiter ":", .white " "] :=
  delimiter (by decide) (by decide)

theorem trailing {d : String} {c : Char} (delimiter : isDelimiter d.toList = true)
    (plain : d ∉ ["'", "(", ")"]) (head : d.toList.head? = some c) (breaks : isBreak c = true)
    (other : c ≠ '.') : Joint rules [.delimiter d, .white " "] := by
  simp only [List.mem_cons, List.not_mem_nil, or_false, not_or] at plain
  have fits (b : Before) : (Lexeme.delimiter d).Fits rules b :=
    ⟨delimiter, fun tick => absurd tick plain.1⟩
  have meets := Lexeme.meets_blank (fits .start) rfl (by simp [plain])
  refine ⟨?_, ?_, ⟨_, rfl, ?_⟩, .white " ", rfl, ?_⟩
  · intro b _
    exact ⟨fits b, by simpa using meets, white_fits, by simp, trivial⟩
  · intro b _
    simp [Lexeme.after, plain]
  · intro l ends
    exact Lexeme.operand_meets ends head breaks other (by simp [Lexeme.isBlank])
  · exact fun m b fits leads => Lexeme.white_meets " " fits leads

theorem comma : Joint rules [.delimiter ",", .white " "] :=
  trailing (by decide) (by decide) rfl (by decide) (by decide)

theorem semicolon : Joint rules [.delimiter ";", .white " "] :=
  trailing (by decide) (by decide) rfl (by decide) (by decide)

theorem keyword {word : String} (member : word ∈ reservedWords) (other : word ≠ "all") :
    Joint rules [.white " ", .keyword word, .white " "] := by
  refine spaced (fun b => keyword_fits member) rfl (operand_meets_white rfl) ?_
  intro b free
  simp [Lexeme.after, toLower_of_mem member, other, free]

theorem symbol {s : Symbol} (plain : s ∉ [Symbol.tick, .leftParen, .rightParen]) :
    Joint rules [.white " ", .delimiter s.text, .white " "] := by
  refine delimiter (isDelimiter_symbol s) ?_
  cases s <;> simp_all [Symbol.text]

end Joint

end Vhdl93.Lexer
