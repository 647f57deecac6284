import Vhdl93.Proofs.Grammar.Spoiled
import Vhdl93.Proofs.Lexer.Standard

set_option autoImplicit false

namespace Vhdl93

open Grammar Lexer

namespace Lexer

variable {rules : Rules} {before : Before}

def Lexeme.isToken : Lexeme → Bool
  | .white _ | .comment _ => false
  | _ => true

def Scans (text : String) (ts : List Token) : Prop :=
  (lex standard .start text.toList).filter Lexeme.isToken = ts.map Token.lexeme

theorem lex_append {ls : List Lexeme} {rest : List Char} (legible : Legible rules before ls)
    (apart : ∀ l ∈ ls.getLast?, ∀ c ∈ rest.head?, l.stopsAt c = true) :
    lex rules before (spell ls ++ rest) = ls ++ lex rules (afterAll rules before ls) rest := by
  induction ls generalizing before with
  | nil => simp
  | cons l ls ih =>
    obtain ⟨fits, meets, legible⟩ := legible
    have stops : ∀ c ∈ (spell ls ++ rest).head?, l.stopsAt c = true := by
      cases ls with
      | nil => simpa using apart l rfl
      | cons m ls =>
        have nonempty := legible.1.text_ne_nil
        have head : (spell (m :: ls) ++ rest).head? = (spell (m :: ls)).head? := by
          rw [List.head?_append_of_ne_nil]
          simp [nonempty]
        rw [head]
        exact legible.head_stops meets
    have later : ∀ k ∈ ls.getLast?, ∀ c ∈ rest.head?, k.stopsAt c = true := by
      intro k last
      rw [Option.mem_def] at last
      exact apart k (by simp [List.getLast?_cons, last])
    rw [spell_cons, List.append_assoc, lex_step fits stops, ih legible later]
    rfl

theorem lex_comment {rest : List Char} (line : '\n' ∉ rest) :
    lex rules before ('-' :: '-' :: rest) =
      [.comment (String.ofList ('-' :: '-' :: rest))] := by
  have inside : rest.all (· ≠ '\n') = true := by
    rw [List.all_eq_true]
    intro c member
    simpa using fun same : c = '\n' => line (same ▸ member)
  have whole : rest.takeWhile (· ≠ '\n') = rest := by
    simpa using @takeWhile_stop _ _ [] inside (by simp)
  have read : next rules before '-' ('-' :: rest) =
      .comment (String.ofList ('-' :: '-' :: rest)) := by
    have plain : isWhite '-' = false ∧ isLetter '-' = false ∧ '-'.isDigit = false := by decide
    simp only [ne_eq, decide_not] at whole
    simp [next, plain, whole]
  have behind : ('-' :: rest).drop ((String.ofList ('-' :: '-' :: rest)).length - 1) = [] := by
    simp only [String.length_ofList, List.length_cons]
    exact List.drop_of_length_le (by simp)
  rw [lex, read, Lexeme.text, behind, lex]

theorem line_of_basic {cs : List Char} (text : Ident.isBasicText cs = true) : '\n' ∉ cs := by
  obtain ⟨c, tail, rfl, letter, all⟩ := basicText_cases text
  exact not_mem_of_all (p := isWordChar) (by simp [all, isWordChar, letter]) (by decide)

theorem line_of_graphic (mark : Char) {cs : List Char} (all : cs.all standard.graphic = true) :
    '\n' ∉ Text.doubled mark cs :=
  mt mem_doubled (not_mem_of_all all (by decide))

theorem line_of_fits {l : Lexeme} (fits : l.Fits standard before) (black : l.isBlank = false) :
    '\n' ∉ l.text.toList := by
  cases l with
  | white => cases black
  | comment | stray => cases fits
  | ident i =>
    cases i with
    | basic text => exact line_of_basic fits.1
    | extended text => simpa [Lexeme.text, Ident.render] using line_of_graphic '\\' fits.2
  | keyword text => exact line_of_basic fits.1
  | delimiter d =>
    have all : ∀ cs ∈ compounds ++ singles.map (fun c => [c]), '\n' ∉ cs := by decide
    have listed := fits.1
    simp only [isDelimiter, Bool.or_eq_true, decide_eq_true_eq] at listed
    exact all d.toList (List.mem_append.mpr listed)
  | number text =>
    obtain ⟨whole, -, numeral, same | ⟨fraction, -, decimal, same⟩⟩ := fits
    · simpa [Lexeme.text, same] using not_mem_of_all numeral (by decide)
    · simpa [Lexeme.text, same] using
        ⟨not_mem_of_all numeral (by decide), not_mem_of_all decimal (by decide)⟩
  | character c =>
    have other : '\n' ≠ c := by
      rintro rfl
      exact absurd fits.1 (by decide)
    simpa [Lexeme.text, Token.text] using other
  | string text => simpa [Lexeme.text, Token.text] using line_of_graphic '"' fits
  | bitString base text =>
    have letters : '\n' ∉ text.toList := not_mem_of_all fits (by decide)
    cases base <;> simpa [Lexeme.text, Token.text, Base.text] using letters

theorem Legible.fits_of_mem {ls : List Lexeme} {l : Lexeme} (legible : Legible rules before ls)
    (member : l ∈ ls) : ∃ b, l.Fits rules b := by
  induction ls generalizing before with
  | nil => cases member
  | cons m ls ih =>
    rcases List.mem_cons.mp member with rfl | later
    · exact ⟨before, legible.1⟩
    · exact ih legible.2.2 later

theorem isToken_lexeme (t : Token) : t.lexeme.isToken = true := by
  cases t with
  | ident i =>
    simp only [Token.lexeme]
    split <;> rfl
  | keyword | symbol | integer | real | character | string | bitString => rfl

theorem line_of_legible {ps : Pieces} (legible : Legible standard before ps.lexemes) :
    '\n' ∉ spell ps.lexemes := by
  intro member
  obtain ⟨l, inside, char⟩ := List.mem_flatMap.mp member
  obtain ⟨b, fits⟩ := legible.fits_of_mem inside
  obtain ⟨p, -, rfl⟩ := List.mem_map.mp inside
  cases p with
  | blank => exact absurd char (by decide)
  | token t => exact line_of_fits fits t.isBlank_lexeme char

theorem filter_isToken (ps : Pieces) :
    ps.lexemes.filter Lexeme.isToken = ps.tokens.map Token.lexeme := by
  induction ps with
  | nil => rfl
  | cons p ps ih =>
    cases p with
    | blank => exact ih
    | token t => simpa [Pieces.tokens, Piece.token?, isToken_lexeme t] using ih

section Separators

variable {t : Token} (separates : t.separates = true)
include separates

theorem separator_fits : t.lexeme.Fits standard before := by
  cases t with
  | keyword word =>
    simp only [Token.separates, Bool.and_eq_true, decide_eq_true_eq] at separates
    exact keyword_fits separates.1
  | symbol s =>
    simp only [Token.separates, List.mem_cons, List.not_mem_nil, or_false, not_or,
      decide_eq_true_eq] at separates
    exact symbol_fits separates.1
  | ident | integer | real | character | string | bitString => cases separates

theorem after_separator : t.lexeme.after standard before = .start := by
  cases t with
  | keyword word =>
    simp only [Token.separates, Bool.and_eq_true, decide_eq_true_eq] at separates
    simp [Token.lexeme, Lexeme.after, toLower_of_mem separates.1, separates.2, standard]
  | symbol s =>
    cases s <;> simp [Token.separates, Token.lexeme, Lexeme.after, Symbol.text] at separates ⊢
  | ident | integer | real | character | string | bitString => cases separates

end Separators

end Lexer

namespace Pieces

variable {ps : Pieces}

theorem Opens.after_start (opens : ps.Opens) : afterAll standard .start ps.lexemes = .start := by
  cases opens with
  | nil => rfl
  | paren front => simp [Lexeme.after, Symbol.text]
  | sign front sign => rcases sign with rfl | rfl <;> simp [Lexeme.after, Symbol.text]
  | spaced front separates =>
    have white (b : Before) : (Lexeme.white " ").after standard b = b := rfl
    simp [after_separator separates, white]

theorem Opens.meets {l m : Lexeme} {b : Before} (opens : ps.Opens) (last : l ∈ ps.lexemes.getLast?)
    (fits : m.Fits standard b) (leads : m.leads = true)
    (apart : l = .delimiter "-" → m ≠ .delimiter "-") : l.Meets m := by
  have black := Lexeme.not_blank_of_leads leads
  cases opens with
  | nil => cases last
  | paren front =>
    obtain rfl : Lexeme.delimiter "(" = l := by simpa [Symbol.text] using last
    exact Lexeme.paren_meets black
  | sign front sign =>
    rcases sign with rfl | rfl
    · obtain rfl : Lexeme.delimiter "+" = l := by simpa [Symbol.text] using last
      exact solid_meets (by simp) black
    · obtain rfl : Lexeme.delimiter "-" = l := by simpa [Symbol.text] using last
      exact Lexeme.minus_meets fits leads (apart rfl)
  | spaced front separates =>
    obtain rfl : Lexeme.white " " = l := by simpa using last
    exact Lexeme.white_meets " " fits leads

theorem Closes.legible {b : Before} (closes : ps.Closes)
    (legible : Legible standard .value ps.lexemes) : Legible standard b ps.lexemes := by
  -- The first token behind an operand sets the state anew.
  cases closes with
  | nil => trivial
  | paren back | comma back => exact ⟨symbol_fits (by decide), legible.2.1, legible.2.2⟩
  | spaced back separates =>
    obtain ⟨-, space, -, meets, rest⟩ := legible
    refine ⟨white_fits, space, separator_fits separates, meets, ?_⟩
    simp only [Piece.lexeme, after_separator separates] at rest ⊢
    exact rest

theorem Closes.meets {l m : Lexeme} (closes : ps.Closes) (ends : l.endsOperand = true)
    (head : m ∈ ps.lexemes.head?) : l.Meets m := by
  cases closes with
  | nil => cases head
  | paren back =>
    obtain rfl : Lexeme.delimiter ")" = m := by simpa [Symbol.text] using head
    exact Lexeme.operand_meets ends rfl (by decide) (by decide) (by simp [Lexeme.isBlank])
  | comma back =>
    obtain rfl : Lexeme.delimiter "," = m := by simpa [Symbol.text] using head
    exact Lexeme.operand_meets ends rfl (by decide) (by decide) (by simp [Lexeme.isBlank])
  | spaced back separates =>
    obtain rfl : Lexeme.white " " = m := by simpa using head
    exact operand_meets_white ends

end Pieces

namespace Grammar

theorem rise_eq (t : Token) : rise t =
    if t.lexeme = .delimiter "(" then 1 else if t.lexeme = .delimiter ")" then -1 else 0 := by
  cases t with
  | symbol s => cases s <;> simp [rise, Token.lexeme, Symbol.text]
  | ident i =>
    simp only [rise, Token.lexeme]
    split <;> simp
  | keyword | integer | real | character | string | bitString => simp [rise, Token.lexeme]

theorem paren_of_rise {t : Token} (steep : rise t ≠ 0) :
    t = .symbol .leftParen ∨ t = .symbol .rightParen := by
  cases t with
  | symbol s => cases s <;> simp [rise] at steep ⊢
  | ident | keyword | integer | real | character | string | bitString => simp [rise] at steep

theorem rise_of_lexemes {ts us : List Token}
    (lexemes : ts.map Token.lexeme = us.map Token.lexeme) : ts.map rise = us.map rise := by
  have through (vs : List Token) : vs.map rise = (vs.map Token.lexeme).map fun l =>
      if l = .delimiter "(" then 1 else if l = .delimiter ")" then -1 else 0 := by
    simp [rise_eq, Function.comp_def]
  rw [through ts, through us, lexemes]

theorem length_content_of_lexemes {ts us : List Token}
    (lexemes : ts.map Token.lexeme = us.map Token.lexeme) :
    (content ts).length = (content us).length := by
  have count (vs : List Token) : (content vs).length = (vs.map rise).countP (· = 0) := by
    rw [content, List.countP_map, List.countP_eq_length_filter]
    rfl
  rw [count ts, count us, rise_of_lexemes lexemes]

theorem tokens_of_lexemes {ts us : List Token}
    (lexemes : ts.map Token.lexeme = us.map Token.lexeme) (contents : content ts = content us) :
    ts = us := by
  -- The lexemes show where the parentheses are, and the content what stands between them.
  have rises := rise_of_lexemes lexemes
  clear lexemes
  induction ts generalizing us with
  | nil => simpa [eq_comm] using rises
  | cons t ts ih =>
    cases us with
    | nil => simp at rises
    | cons u us =>
      simp only [List.map_cons, List.cons.injEq] at rises
      by_cases flat : rise t = 0
      · rw [content_cons flat, content_cons (rises.1 ▸ flat), List.cons.injEq] at contents
        rw [contents.1, ih contents.2 rises.2]
      · have same : t = u := by
          have steep : rise u ≠ 0 := rises.1 ▸ flat
          rcases paren_of_rise flat with rfl | rfl <;> rcases paren_of_rise steep with rfl | rfl
          · rfl
          · simp [rise] at rises
          · simp [rise] at rises
          · rfl
        subst same
        rw [content, content, List.filter_cons_of_neg (by simpa using flat),
          List.filter_cons_of_neg (by simpa using flat)] at contents
        rw [ih contents rises.2]

end Grammar

namespace Wrapped

variable {w : Wrapped} {size : Nat → Bool}

theorem legible_parts (whole : Legible standard .start w.whole.lexemes) :
    Legible standard .start w.before.lexemes ∧ Legible standard .value w.after.lexemes := by
  rw [Wrapped.whole, lexemes_append, lexemes_append, lexemes_parenthesized] at whole
  obtain ⟨front, -, after⟩ := legible_append.mp whole
  refine ⟨(legible_append.mp front).1, ?_⟩
  simpa [Lexeme.after] using after

/-- Without the parentheses the text still has its own lexemes, unless two signs meet. -/
theorem Fenced.legible (fenced : w.Fenced (standard.checks size))
    (whole : Legible standard .start w.whole.lexemes)
    (apart : .delimiter "-" ∈ w.before.lexemes.getLast? →
      .delimiter "-" ∉ w.operand.pieces.lexemes.head?) :
    Legible standard .start w.bare.lexemes := by
  have phrase := w.operand.phrase fenced.passes
  obtain ⟨first, head, leads⟩ := phrase.starts
  obtain ⟨last, final, ends⟩ := phrase.ends
  obtain ⟨before, after⟩ := legible_parts whole
  rw [bare, lexemes_append, lexemes_append]
  refine legible_append.mpr ⟨legible_append.mpr ⟨before, ?_, ?_⟩, ?_, fenced.closes.legible after⟩
  · intro l lastBefore m next
    obtain rfl : first = m := Option.some.inj (head.symm.trans next)
    refine fenced.opens.meets lastBefore (phrase.legible.head_fits head) leads ?_
    rintro rfl rfl
    exact apart lastBefore head
  · rw [fenced.opens.after_start]
    exact phrase.legible
  · intro l lastOperand m next
    rw [Option.mem_def] at final lastOperand
    rw [List.getLast?_append, final] at lastOperand
    obtain rfl : last = l := by simpa using lastOperand
    exact fenced.closes.meets ends next

/-- Where two signs meet, all that is behind the first of them is lost. -/
theorem Fenced.comment (fenced : w.Fenced (standard.checks size))
    (whole : Legible standard .start w.whole.lexemes)
    (last : .delimiter "-" ∈ w.before.lexemes.getLast?)
    (head : .delimiter "-" ∈ w.operand.pieces.lexemes.head?) :
    ∃ front : Pieces, w.before = front ++ [.symbol .minus] ∧
      (lex standard .start w.bare.text.toList).filter Lexeme.isToken =
        front.tokens.map Token.lexeme := by
  have phrase := w.operand.phrase fenced.passes
  obtain ⟨before, after⟩ := legible_parts whole
  rw [Pieces.lexemes, List.getLast?_map, Option.mem_def, Option.map_eq_some_iff] at last
  rw [Pieces.lexemes, List.head?_map, Option.mem_def, Option.map_eq_some_iff] at head
  obtain ⟨p, last, minus⟩ := last
  obtain rfl := piece_of_minus minus
  obtain ⟨q, head, minus'⟩ := head
  obtain rfl := piece_of_minus minus'
  obtain ⟨front, text⟩ := List.getLast?_eq_some_iff.mp last
  obtain ⟨tail, operand⟩ := List.head?_eq_some_iff.mp head
  refine ⟨front, text, ?_⟩
  rw [text, lexemes_append] at before
  obtain ⟨legible, meets, -⟩ := legible_append.mp before
  have line : '\n' ∉ spell (Pieces.lexemes (tail ++ w.after)) := by
    have first := line_of_legible phrase.legible
    have second := line_of_legible after
    rw [operand] at first
    simp only [lexemes_symbol, spell_cons, List.mem_append, not_or] at first
    simpa using ⟨first.2, second⟩
  have characters : w.bare.text.toList =
      spell (Pieces.lexemes front) ++ '-' :: '-' :: spell (Pieces.lexemes (tail ++ w.after)) := by
    rw [← Pieces.spell_lexemes, bare, text, operand]
    simp [Lexeme.text, Symbol.text]
  have stops (l : Lexeme) (last : l ∈ (Pieces.lexemes front).getLast?) (c : Char)
      (first : c ∈ ('-' :: '-' :: spell (Pieces.lexemes (tail ++ w.after))).head?) :
      l.stopsAt c = true :=
    (meets l last _ rfl).stops c first
  rw [characters, lex_append legible stops, lex_comment line, List.filter_append, filter_isToken]
  simp [Lexeme.isToken]

theorem Spoils.unscanned {ps : Pieces} {t : Tree} (spoils : w.Spoils ps t)
    (fenced : w.Fenced (standard.checks size)) (legible : Legible standard .start ps.lexemes)
    {ts : List Token} (scans : Scans w.bare.text ts) (place : Grammar.Level) :
    ¬ Reads place ts t := by
  intro reads
  have contents : content ts = content w.bare.tokens :=
    reads.yields.content.trans spoils.yields.content.symm
  rw [← spoils.whole] at legible
  -- Where a comment swallows tokens, too few are left for the tree.
  by_cases signs : .delimiter "-" ∈ w.before.lexemes.getLast? ∧
      .delimiter "-" ∈ w.operand.pieces.lexemes.head?
  · obtain ⟨front, text, lexemes⟩ := fenced.comment legible signs.1 signs.2
    have lengths := length_content_of_lexemes (scans.symm.trans lexemes)
    have minus : (content (Pieces.tokens [.symbol .minus])).length = 1 := rfl
    rw [contents, bare, text] at lengths
    simp only [Pieces.tokens_append, content_append, List.length_append, minus] at lengths
    omega
  · have read : lex standard .start w.bare.text.toList = w.bare.lexemes := by
      rw [← Pieces.spell_lexemes, lex_spell (fenced.legible legible (not_and.mp signs))]
    have same : ts.map Token.lexeme = w.bare.tokens.map Token.lexeme := by
      rw [← filter_isToken, ← read]
      exact scans.symm
    rw [tokens_of_lexemes same contents] at reads
    exact spoils.unread place reads

end Wrapped

end Vhdl93
