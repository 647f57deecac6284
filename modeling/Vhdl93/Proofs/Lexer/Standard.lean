import Vhdl93.Proofs.Inline.Tokens

set_option autoImplicit false

namespace Vhdl93

open Lexer

/-- The graphic characters of Latin-1; a tick behind a reserved word starts a character literal. -/
def Lexer.standard : Rules where
  graphic c := Ident.isGraphic c || '\xa0' ≤ c && c ≤ '\xff'
  bit := isWordChar
  chained := false
  graphic_ascii c ascii := by simp [ascii]
  bit_mark := by decide

inductive Inline where
  | suffix (suffix : Suffix)
  | name (name : Name)
  | range (range : Range)
  | expr (expr : Expr)
  | choice (choice : Choice)
  | element (element : Element)
  | actual (actual : Actual)
  | association (association : Association)
  | constraint (constraint : Constraint)
  | subtype (subtype : SubtypeIndication)
  | waveformElement (element : WaveformElement)
  | waveform (waveform : Waveform)

namespace Inline

def pieces : Inline → Pieces
  | .suffix x => x.pieces
  | .name x => x.pieces
  | .range x => x.pieces
  | .expr x => x.pieces
  | .choice x => x.pieces
  | .element x => x.pieces
  | .actual x => x.pieces
  | .association x => x.pieces
  | .constraint x => x.pieces
  | .subtype x => x.pieces
  | .waveformElement x => x.pieces
  | .waveform x => x.pieces

def text (x : Inline) : String := x.pieces.text

def tokens : Inline → List Lexeme
  | .suffix x => x.tokens
  | .name x => x.tokens
  | .range x => x.tokens
  | .expr x => x.tokens
  | .choice x => x.tokens
  | .element x => x.tokens
  | .actual x => x.tokens
  | .association x => x.tokens
  | .constraint x => x.tokens
  | .subtype x => x.tokens
  | .waveformElement x => x.tokens
  | .waveform x => x.tokens

def passes (c : Checks) : Inline → Bool
  | .suffix x => x.passes c
  | .name x => x.passes c
  | .range x => x.passes c
  | .expr x => x.passes c
  | .choice x => x.passes c
  | .element x => x.passes c
  | .actual x => x.passes c
  | .association x => x.passes c
  | .constraint x => x.passes c
  | .subtype x => x.passes c
  | .waveformElement x => x.passes c
  | .waveform x => x.passes c

variable {rules : Rules} {size : Nat → Bool}

theorem suffix_legible {s : Suffix} (ok : s.passes (rules.checks size) = true) :
    Legible rules .start s.pieces.lexemes := by
  cases s with
  | simple i =>
    have accepted : i.isAccepted = true := ok
    simpa [Suffix.pieces, Token.lexeme, accepted] using (NamePhrase.simple accepted).phrase.legible
  | all => exact ⟨keyword_fits (by decide), by simp, trivial⟩

theorem constraint_legible {c : Constraint} (ok : c.passes (rules.checks size) = true) :
    Legible rules .start c.pieces.lexemes := by
  cases c with
  | range r =>
    have joint : Joint rules [.white " ", .keyword "range", .white " "] :=
      .keyword (by decide) (by decide)
    exact Phrase.behind_joint joint (r.phrase ok) (by decide)
  | index rs =>
    have list := Range.index_phrase ok
    simpa [Constraint.pieces, Range.indexPieces] using Phrase.enclosed_legible list

theorem legible (x : Inline) (ok : x.passes (rules.checks size) = true) :
    Legible rules .start x.pieces.lexemes := by
  cases x with
  | suffix s => exact suffix_legible ok
  | name n => exact (n.phrase ok).phrase.legible
  | range r => exact (r.phrase ok).legible
  | expr e => exact (e.phrase ok).legible
  | choice c => exact (c.phrase ok).legible
  | element e => exact (e.phrase ok).legible
  | actual a => exact (a.phrase ok).legible
  | association a => exact (a.phrase ok).legible
  | constraint c => exact constraint_legible ok
  | subtype s => exact (SubtypeIndication.phrase ok).legible
  | waveformElement w => exact (WaveformElement.phrase ok).legible
  | waveform w =>
    rcases Waveform.phrase ok with none | phrase
    · show Legible rules .start w.pieces.lexemes
      rw [none]
      trivial
    · exact phrase.legible

theorem solid_pieces (x : Inline) (ok : x.passes (rules.checks size) = true) :
    x.pieces.solid = x.tokens := by
  cases x with
  | suffix s => exact Suffix.solid_pieces ok
  | name n => exact n.solid_pieces ok
  | range r => exact r.solid_pieces ok
  | expr e => exact e.solid_pieces ok
  | choice c => exact c.solid_pieces ok
  | element e => exact e.solid_pieces ok
  | actual a => exact a.solid_pieces ok
  | association a => exact a.solid_pieces ok
  | constraint c => exact Constraint.solid_pieces ok
  | subtype s => exact SubtypeIndication.solid_pieces ok
  | waveformElement w => exact WaveformElement.solid_pieces ok
  | waveform w => exact Waveform.solid_pieces ok

end Inline

theorem Token.lexeme_ne_comment (t : Token) (text : String) : t.lexeme ≠ .comment text := by
  cases t with
  | ident i =>
    simp only [lexeme]
    split <;> simp
  | keyword | symbol | integer | real | character | string | bitString => simp [lexeme]

/-- The lexemes of inline text are the tokens of its node, and none of them is a comment. -/
theorem Inline.tokens_of_text (x : Inline) (ok : x.passes (standard.checks fun _ => true) = true) :
    (lex standard .start x.text.toList).filter (fun l => !l.isBlank) = x.tokens ∧
      ∀ text, .comment text ∉ lex standard .start x.text.toList := by
  have read : lex standard .start x.text.toList = x.pieces.lexemes := by
    rw [Inline.text, ← Pieces.spell_lexemes, lex_spell (x.legible ok)]
  rw [read]
  refine ⟨x.solid_pieces ok, ?_⟩
  intro text member
  obtain ⟨p, -, same⟩ := List.mem_map.mp member
  cases p with
  | blank => cases same
  | token t => exact t.lexeme_ne_comment text same

/-- `-(-1.0) & v'range & "--"`: neither the signs nor the string open a comment. -/
theorem Inline.tokens_of_signs :
    let minusOne := Expr.literal (.real ⟨0xBFF0000000000000⟩)
    let bounds := Expr.name (.attribute (.simple (.basic "v")) (.basic "range") none)
    let x := Inline.expr (.binary .concat (.binary .concat (.unary .minus minusOne) bounds)
      (.literal (.string "--")))
    x.passes (standard.checks fun _ => true) = true ∧
      (lex standard .start x.text.toList).filter (fun l => !l.isBlank) =
        [.delimiter "-", .delimiter "(", .delimiter "-", .number "1.0", .delimiter ")",
          .delimiter "&",
          .ident (.basic "v"), .delimiter "'", .keyword "range", .delimiter "&", .string "--"] := by
  intro minusOne bounds x
  have ok : x.passes (standard.checks fun _ => true) = true := by decide +kernel
  have tokens : x.tokens = [.delimiter "-", .delimiter "(", .delimiter "-", .number "1.0",
      .delimiter ")", .delimiter "&", .ident (.basic "v"), .delimiter "'", .keyword "range",
      .delimiter "&", .string "--"] := by
    decide +kernel
  exact ⟨ok, tokens ▸ (Inline.tokens_of_text x ok).1⟩

end Vhdl93
