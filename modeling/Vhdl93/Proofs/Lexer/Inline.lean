import Vhdl93.Proofs.Binary64.Grid
import Vhdl93.Proofs.Grammar.Operand
import Vhdl93.Proofs.Inline.Checks
import Vhdl93.Proofs.Lexer.Phrase

set_option autoImplicit false

namespace Vhdl93

open Lexer

/-- A designator may also be the reserved word of the range attribute. -/
def Ident.isDesignator (i : Ident) : Bool := i.isAccepted || i.isBasic && i.text.toLower = "range"

def Name.endsReserved : Name → Bool
  | .attribute _ i none => !i.isAccepted
  | _ => false

def Lexer.Rules.accepts (rules : Rules) : Literal → Bool
  | .real x => x.isFinite
  | .character c => rules.graphic c
  | .string s => s.toList.all rules.graphic
  | .bitString _ digits => digits.toList.all rules.bit
  | .integer _ | .null => true

/-- What a lexer asks of a tree, beside the sizes of its lists. -/
def Lexer.Rules.checks (rules : Rules) (size : Nat → Bool) : Checks where
  ident := Ident.isAccepted
  designator := Ident.isDesignator
  stem base := rules.chained || !base.endsReserved
  literal := rules.accepts
  size := size

namespace Lexer

variable {rules : Rules} {before : Before}

@[simp] theorem lexemes_nil : Pieces.lexemes [] = [] := rfl

@[simp] theorem lexemes_append (ps qs : Pieces) :
    Pieces.lexemes (ps ++ qs) = Pieces.lexemes ps ++ Pieces.lexemes qs := by
  simp [Pieces.lexemes]

@[simp] theorem lexemes_token (t : Token) (ps : Pieces) :
    Pieces.lexemes (.token t :: ps) = t.lexeme :: Pieces.lexemes ps := rfl

@[simp] theorem lexemes_ident (i : Ident) (ps : Pieces) :
    Pieces.lexemes (.ident i :: ps) = (Token.ident i).lexeme :: Pieces.lexemes ps := rfl

@[simp] theorem lexemes_keyword (word : String) (ps : Pieces) :
    Pieces.lexemes (.keyword word :: ps) = .keyword word :: Pieces.lexemes ps := rfl

@[simp] theorem lexemes_symbol (s : Symbol) (ps : Pieces) :
    Pieces.lexemes (.symbol s :: ps) = .delimiter s.text :: Pieces.lexemes ps := rfl

@[simp] theorem lexemes_blank (ps : Pieces) :
    Pieces.lexemes (.blank :: ps) = .white " " :: Pieces.lexemes ps := rfl

@[simp] theorem lexemes_parenthesized (ps : Pieces) :
    ps.parenthesized.lexemes = .delimiter "(" :: ps.lexemes ++ [.delimiter ")"] := by
  simp [Pieces.parenthesized, Symbol.text]

theorem toLower_alpha {c : Char} (alpha : c.toLower.isAlpha = true) : c.isAlpha = true := by
  unfold Char.toLower at alpha
  split at alpha
  · next upper =>
    have isUpper : c.isUpper = true := (isUpper_iff c).mpr upper
    rw [isAlpha_eq, isUpper, Bool.true_or]
  · exact alpha

theorem basicTail_of_alpha {cs : List Char} (alpha : cs.all Char.isAlpha = true) :
    Ident.isBasicTail true cs = true := by
  induction cs with
  | nil => rfl
  | cons c cs ih =>
    simp only [List.all_cons, Bool.and_eq_true] at alpha
    have letter : c ≠ '_' := by
      rintro rfl
      exact absurd alpha.1 (by decide)
    simp [Ident.isBasicTail, letter, Char.isAlphanum, alpha.1, ih alpha.2]

theorem designator_fits {i : Ident} (designator : i.isDesignator = true)
    (unaccepted : i.isAccepted = false) :
    (Lexeme.keyword i.render).Fits rules before ∧ i.render.toLower = "range" := by
  -- A designator that is not accepted spells a reserved word other than `all`.
  simp only [Ident.isDesignator, unaccepted, Bool.false_or, Bool.and_eq_true,
    decide_eq_true_eq] at designator
  cases i with
  | extended text => simp [Ident.isBasic] at designator
  | basic text =>
    have range : text.toLower = "range" := designator.2
    have letters : text.toList.map Char.toLower = ['r', 'a', 'n', 'g', 'e'] := by
      have lower : text.map Char.toLower = "range" := range
      simpa using congrArg String.toList lower
    refine ⟨⟨?_, ?_⟩, range⟩
    · have alpha : text.toList.all Char.isAlpha = true := by
        rw [List.all_eq_true]
        intro c member
        apply toLower_alpha
        have image : c.toLower ∈ ['r', 'a', 'n', 'g', 'e'] := letters ▸ List.mem_map_of_mem member
        simp only [List.mem_cons, List.not_mem_nil, or_false] at image
        rcases image with same | same | same | same | same <;> rw [same] <;> decide
      cases same : text.toList with
      | nil => simp [same] at letters
      | cons c cs =>
        simp only [same, List.all_cons, Bool.and_eq_true] at alpha
        simp [Ident.isBasicText, Ident.render, same, alpha.1, basicTail_of_alpha alpha.2]
    · rw [isReserved_iff]
      show text.toLower ∈ reservedWords
      rw [range]
      decide

theorem solid_meets {d : String} {l : Lexeme} (solid : d ∈ [".", "'", "+"])
    (black : l.isBlank = false) : (Lexeme.delimiter d).Meets l := by
  -- Delimiters that no other character goes on with.
  simp only [List.mem_cons, List.not_mem_nil, or_false] at solid
  rcases solid with rfl | rfl | rfl <;>
    exact ⟨fun c _ => by simp [Lexeme.stopsAt, compounds], by simp [black], by simp, by simp [Lexeme.isBlank]⟩

/-- A name as the lexer reads it; behind it a tick is an attribute's, unless its last word is
reserved. -/
structure NamePhrase (rules : Rules) (reserved : Bool) (ls : List Lexeme) : Prop where
  phrase : Phrase rules Lexeme.endsName ls
  value : (rules.chained || !reserved) = true → afterAll rules .start ls = .value

namespace NamePhrase

variable {reserved : Bool} {xs ys : List Lexeme} {i : Ident}

theorem simple (accepted : i.isAccepted = true) : NamePhrase rules false [.ident i] where
  phrase := ⟨⟨ident_fits accepted, by simp, trivial⟩, ⟨_, rfl, rfl⟩, _, rfl, rfl⟩
  value _ := rfl

theorem suffix {d : String} {l : Lexeme} (name : NamePhrase rules reserved xs)
    (solid : d ∈ [".", "'"]) (tick : d = "'" → (rules.chained || !reserved) = true)
    (fits : ∀ b, l.Fits rules b) (ends : l.endsName = true) :
    Phrase rules Lexeme.endsName (xs ++ [.delimiter d, l]) := by
  have delimiter : isDelimiter d.toList = true ∧ ∃ c, d.toList.head? = some c ∧
      isBreak c = true := by
    simp only [List.mem_cons, List.not_mem_nil, or_false] at solid
    rcases solid with rfl | rfl
    · exact ⟨by decide, '.', by decide, by decide⟩
    · exact ⟨by decide, '\x27', by decide, by decide⟩
  obtain ⟨delimits, c, head, breaks⟩ := delimiter
  refine name.phrase.append ?_ ⟨⟨delimits, fun same => name.value (tick same)⟩, ?_,
    fits _, by simp, trivial⟩
    ⟨l, rfl, ends⟩
  · intro k endsName m member
    obtain rfl : Lexeme.delimiter d = m := by simpa using member
    exact Lexeme.name_meets endsName head breaks (by simp [Lexeme.isBlank])
  · have member : d ∈ [".", "'", "+"] := List.mem_append_left ["+"] solid
    intro m next
    obtain rfl : l = m := by simpa using next
    exact solid_meets member (Lexeme.not_blank_of_endsName ends)

theorem selected (name : NamePhrase rules reserved xs) (accepted : i.isAccepted = true) :
    NamePhrase rules false (xs ++ [.delimiter ".", .ident i]) where
  phrase := name.suffix (by simp) (by simp) (fun b => ident_fits accepted) rfl
  value _ := by simp [Lexeme.after]

theorem selectedAll (name : NamePhrase rules reserved xs) :
    NamePhrase rules false (xs ++ [.delimiter ".", .keyword "all"]) where
  phrase := name.suffix (by simp) (by simp) (fun b => keyword_fits (by decide)) rfl
  value _ := by
    have lower : "all".toLower = "all" := toLower_of_mem (by decide)
    simp [Lexeme.after, lower]

theorem attributed (name : NamePhrase rules reserved xs)
    (stem : (rules.chained || !reserved) = true) (designator : i.isDesignator = true) :
    NamePhrase rules (!i.isAccepted) (xs ++ [.delimiter "'", (Token.ident i).lexeme]) := by
  cases accepted : i.isAccepted with
  | true =>
    simp only [Token.lexeme, accepted, if_true]
    exact ⟨name.suffix (by simp) (fun _ => stem) (fun b => ident_fits accepted)
      rfl, by simp [Lexeme.after]⟩
  | false =>
    simp only [Token.lexeme, accepted, Bool.false_eq_true, if_false]
    refine ⟨name.suffix (by simp) (fun _ => stem) (fun b => (designator_fits designator accepted).1)
      rfl, ?_⟩
    intro chained
    simp only [Bool.not_false, Bool.not_true, Bool.or_false] at chained
    simp [Lexeme.after, chained]

theorem applied (name : NamePhrase rules reserved ys)
    (inner : xs = [] ∨ Phrase rules Lexeme.endsOperand xs) :
    NamePhrase rules false (ys ++ (.delimiter "(" :: xs ++ [.delimiter ")"])) where
  phrase := name.phrase.applied inner
  value _ := by simp [Lexeme.after]

end NamePhrase

theorem lexemes_commaSeparated (items : List Pieces) :
    (Pieces.commaSeparated items).lexemes =
      separated [.delimiter ",", .white " "] (items.map Pieces.lexemes) := by
  fun_induction Pieces.commaSeparated items with
  | case1 => rfl
  | case2 item => rfl
  | case3 item rest more ih =>
    cases rest with
    | nil => exact absurd rfl more
    | cons next rest => simp [separated, ih, Symbol.text]

theorem list_phrase {items : List Pieces}
    (each : ∀ ps ∈ items, Phrase rules Lexeme.endsOperand ps.lexemes) :
    (Pieces.commaSeparated items).lexemes = [] ∨
      Phrase rules Lexeme.endsOperand (Pieces.commaSeparated items).lexemes := by
  cases items with
  | nil => exact .inl rfl
  | cons item items =>
    rw [lexemes_commaSeparated]
    exact .inr (.separated .comma (List.forall_mem_map.mpr each))

theorem operand_phrase {e : Expr} (parens : Bool)
    (phrase : Phrase rules Lexeme.endsOperand e.pieces.lexemes) :
    Phrase rules Lexeme.endsOperand (e.pieces.operand parens).lexemes := by
  cases parens with
  | false => exact phrase
  | true => simpa [Pieces.operand] using (Phrase.enclosed (.inr phrase)).operand

theorem operator_joint (op : BinaryOp) : Joint rules [.white " ", op.token.lexeme, .white " "] := by
  cases op with
  | and | or | nand | nor | xor | xnor | sll | srl | sla | sra | rol | ror | mod | rem =>
    exact .keyword (by decide) (by decide)
  | equal | notEqual | less | lessEqual | greater | greaterEqual | plus | minus | concat
  | times | divide | power => exact .symbol (by decide)

theorem sign_phrase {ys : List Lexeme} {s : Symbol} (sign : s = .plus ∨ s = .minus)
    (phrase : Phrase rules Lexeme.endsOperand ys) (apart : s = .minus → .delimiter "-" ∉ ys.head?) :
    Phrase rules Lexeme.endsOperand (.delimiter s.text :: ys) := by
  refine phrase.cons (symbol_fits ?_) ?_ ?_ ?_
  · rcases sign with rfl | rfl <;> decide
  · rcases sign with rfl | rfl <;> decide
  · rcases sign with rfl | rfl <;> simp [Lexeme.after, Symbol.text]
  · rcases sign with rfl | rfl
    · exact phrase.head_meets fun m _ leads =>
        solid_meets (by simp [Symbol.text]) (Lexeme.not_blank_of_leads leads)
    · obtain ⟨first, head, leads⟩ := phrase.starts
      intro m member
      obtain rfl : first = m := Option.some.inj (head.symm.trans member)
      refine Lexeme.minus_meets (phrase.legible.head_fits head) leads ?_
      rintro rfl
      exact apart rfl head

theorem word_phrase {ends : Lexeme → Bool} {ys : List Lexeme} {word : String}
    (member : word ∈ reservedWords) (other : word ≠ "all") (phrase : Phrase rules ends ys) :
    Phrase rules ends (.keyword word :: .white " " :: ys) := by
  have after (b : Before) (free : b ≠ .tick) : (Lexeme.keyword word).after rules b = .start := by
    simp [Lexeme.after, toLower_of_mem member, other, free]
  obtain ⟨l, last, ends⟩ := phrase.ends
  refine ⟨⟨keyword_fits member, ?_, white_fits, ?_, ?_⟩, ⟨_, rfl, rfl⟩, l, ?_, ends⟩
  · intro m head
    obtain rfl : Lexeme.white " " = m := by simpa using head
    exact operand_meets_white rfl
  · exact phrase.head_meets fun m fits leads => Lexeme.white_meets " " fits leads
  · rw [after .start (by decide)]
    exact phrase.legible
  · rw [Option.mem_def] at last ⊢
    simp [List.getLast?_cons, last]

end Lexer

theorem Name.head_ident : ∀ n : Name, ∃ i tail, n.pieces = .ident i :: tail
  | .simple i => ⟨i, [], rfl⟩
  | .selected base suffix => by
      obtain ⟨i, tail, same⟩ := base.head_ident
      exact ⟨i, _, by rw [Name.pieces, same, List.cons_append]⟩
  | .indexed base es => by
      obtain ⟨i, tail, same⟩ := base.head_ident
      exact ⟨i, _, by rw [Name.pieces, same, List.cons_append]⟩
  | .slice base range => by
      obtain ⟨i, tail, same⟩ := base.head_ident
      exact ⟨i, _, by rw [Name.pieces, same, List.cons_append]⟩
  | .attribute base i e => by
      obtain ⟨j, tail, same⟩ := base.head_ident
      exact ⟨j, _, by rw [Name.pieces, same, List.cons_append]⟩

theorem Expr.head_ne_minus : ∀ e : Expr, Grammar.Level.simple.rank < e.category.rank →
    .symbol .minus ∉ e.pieces.head?
  | .binary op l r, tight => by
      cases bare : op.parenthesizesLeft l with
      | true => simp [Expr.pieces, bare, Pieces.operand, Pieces.parenthesized, Piece.symbol]
      | false =>
        have inner : Grammar.Level.simple.rank < l.category.rank := by
          rcases Grammar.left_bare bare with narrower | ⟨-, same⟩ | ⟨repeats, -⟩
          · exact Nat.lt_trans tight narrower
          · rw [same]
            exact tight
          · simp [Expr.category, Grammar.Category.rank, Grammar.level_of_repeats repeats,
              Grammar.Level.rank] at tight
        have head := l.head_ne_minus inner
        cases same : l.pieces with
        | nil => simp [Expr.pieces, bare, Pieces.operand, same, Piece.symbol]
        | cons p ps => simpa [Expr.pieces, bare, Pieces.operand, same] using head
  | .unary op e, tight => by
      cases op with
      | plus | minus => exact absurd tight (Nat.lt_irrefl _)
      | abs | not => simp [Expr.pieces, UnaryOp.pieces, Piece.symbol, Piece.keyword]
  | .literal x, tight => by
      cases x with
      | real x =>
        cases sign : x.negative with
        | true => simp [Expr.category, sign, Grammar.Category.rank] at tight
        | false => simp [Expr.pieces, Literal.pieces, sign, Piece.symbol]
      | integer | character | string | bitString => simp [Expr.pieces, Literal.pieces, Piece.symbol]
      | null => simp [Expr.pieces, Literal.pieces, Piece.symbol, Piece.keyword]
  | .name n, _ => by
      obtain ⟨i, tail, same⟩ := n.head_ident
      simp [Expr.pieces, same, Piece.ident, Piece.symbol]
  | .call n as, _ => by
      obtain ⟨i, tail, same⟩ := n.head_ident
      simp [Expr.pieces, same, Piece.ident, Piece.symbol]
  | .aggregate es, _ => by simp [Expr.pieces, Pieces.parenthesized, Piece.symbol]

namespace Lexer

variable {rules : Rules}

theorem piece_of_minus {p : Piece} (same : p.lexeme = .delimiter "-") : p = .symbol .minus := by
  cases p with
  | blank => cases same
  | token t =>
    cases t with
    | symbol s =>
      have text : s.text = "-" := Lexeme.delimiter.inj same
      cases s <;> simp [Symbol.text] at text ⊢
      rfl
    | ident i =>
      simp only [Piece.lexeme, Token.lexeme] at same
      split at same <;> cases same
    | keyword | integer | real | character | string | bitString => cases same

theorem unary_phrase {op : UnaryOp} {e : Expr}
    (phrase : Phrase rules Lexeme.endsOperand e.pieces.lexemes) :
    Phrase rules Lexeme.endsOperand (Expr.unary op e).pieces.lexemes := by
  have operand := operand_phrase (op.parenthesizes e) phrase
  have apart (minus : op = .minus) :
      Lexeme.delimiter "-" ∉ (e.pieces.operand (op.parenthesizes e)).lexemes.head? := by
    cases bare : op.parenthesizes e with
    | true => simp [Pieces.operand]
    | false =>
      have tight := Grammar.sign_bare (by rw [minus]; rfl) bare
      intro head
      rw [Pieces.operand, if_neg (by simp), Pieces.lexemes, Option.mem_def, List.head?_map,
        Option.map_eq_some_iff] at head
      obtain ⟨p, first, same⟩ := head
      exact e.head_ne_minus tight (piece_of_minus same ▸ first)
  cases op with
  | plus => simpa [Expr.pieces, UnaryOp.pieces] using sign_phrase (.inl rfl) operand (by simp)
  | minus =>
    simpa [Expr.pieces, UnaryOp.pieces] using sign_phrase (.inr rfl) operand
      (by simpa using apart)
  | abs => simpa [Expr.pieces, UnaryOp.pieces] using word_phrase (by decide) (by decide) operand
  | not => simpa [Expr.pieces, UnaryOp.pieces] using word_phrase (by decide) (by decide) operand

theorem literal_phrase {x : Literal} (accepted : rules.accepts x = true) :
    Phrase rules Lexeme.endsOperand x.pieces.lexemes := by
  cases x with
  | integer n => exact Phrase.single (isNumber_repr n) rfl rfl
  | real x =>
    have finite : x.isFinite = true := accepted
    simp only [Literal.pieces]
    split
    · have magnitude : Phrase rules Lexeme.endsOperand [.number x.magnitude.magnitudeText] :=
        Phrase.single (isNumber_magnitudeText (by rw [Binary64.isFinite_magnitude, finite])) rfl rfl
      exact sign_phrase (.inr rfl) magnitude (by simp [Piece.lexeme, Token.lexeme])
    · exact Phrase.single (isNumber_magnitudeText finite) rfl rfl
  | character c => exact Phrase.single ⟨accepted, by decide⟩ rfl rfl
  | string s => exact Phrase.single accepted rfl rfl
  | bitString base digits => exact Phrase.single accepted rfl rfl
  | null => exact Phrase.single (keyword_fits (by decide)) rfl rfl

end Lexer

section Phrases

variable {rules : Rules} {size : Nat → Bool}

mutual

theorem Name.phrase : ∀ n : Name, n.passes (rules.checks size) = true →
    NamePhrase rules n.endsReserved n.pieces.lexemes
  | .simple i, ok => by
      have accepted : i.isAccepted = true := ok
      simpa [Name.pieces, Name.endsReserved, Symbol.text, Token.lexeme, accepted] using
        NamePhrase.simple accepted
  | .selected base (.simple i), ok => by
      simp only [Name.passes, Suffix.passes, Bool.and_eq_true] at ok
      have accepted : i.isAccepted = true := ok.2
      simpa [Name.pieces, Name.endsReserved, Symbol.text, Suffix.pieces, Token.lexeme, accepted]
        using (base.phrase ok.1).selected accepted
  | .selected base .all, ok => by
      simp only [Name.passes, Bool.and_eq_true] at ok
      simpa [Name.pieces, Name.endsReserved, Symbol.text, Suffix.pieces] using
        (base.phrase ok.1).selectedAll
  | .indexed base es, ok => by
      simp only [Name.passes, Bool.and_eq_true] at ok
      have name := base.phrase ok.1.1
      have list := list_phrase (Expr.phraseAll es ok.2)
      simpa [Name.pieces, Name.endsReserved, Symbol.text] using name.applied list
  | .slice base range, ok => by
      simp only [Name.passes, Bool.and_eq_true] at ok
      have name := base.phrase ok.1
      simpa [Name.pieces, Name.endsReserved, Symbol.text] using name.applied
        (.inr (range.phrase ok.2))
  | .attribute base i e, ok => by
      simp only [Name.passes, Bool.and_eq_true] at ok
      have name := (base.phrase ok.1.1.1).attributed ok.1.1.2 ok.1.2
      cases e with
      | none => simpa [Name.pieces, Name.endsReserved, Symbol.text, Expr.argumentPieces] using name
      | some e =>
        simpa [Name.pieces, Name.endsReserved, Symbol.text, Expr.argumentPieces] using
          name.applied (.inr (e.phrase ok.2))

theorem Range.phrase : ∀ r : Range, r.passes (rules.checks size) = true →
    Phrase rules Lexeme.endsOperand r.pieces.lexemes
  | .bounds d l r, ok => by
      simp only [Range.passes, Bool.and_eq_true] at ok
      have left := l.phrase ok.1
      have right := r.phrase ok.2
      have joint : Joint rules [.white " ", .keyword d.text, .white " "] := by
        cases d <;> exact .keyword (by decide) (by decide)
      simpa [Range.pieces] using left.join joint right
  | .attribute base i e, ok => by
      simp only [Range.passes, Bool.and_eq_true] at ok
      have name := (base.phrase ok.1.1.1).attributed ok.1.1.2 ok.1.2
      cases e with
      | none => simpa [Range.pieces, Expr.argumentPieces, Symbol.text] using name.phrase.operand
      | some e =>
        simpa [Range.pieces, Expr.argumentPieces, Symbol.text] using
          (name.applied (.inr (e.phrase ok.2))).phrase.operand

theorem Expr.phrase : ∀ e : Expr, e.passes (rules.checks size) = true →
    Phrase rules Lexeme.endsOperand e.pieces.lexemes
  | .binary op l r, ok => by
      simp only [Expr.passes, Bool.and_eq_true] at ok
      have left := operand_phrase (op.parenthesizesLeft l) (l.phrase ok.1)
      have right := operand_phrase (op.parenthesizesRight r) (r.phrase ok.2)
      simpa [Expr.pieces] using left.join (operator_joint op) right
  | .unary op e, ok => unary_phrase (e.phrase ok)
  | .literal x, ok => literal_phrase ok
  | .name n, ok => (n.phrase ok).phrase.operand
  | .call n as, ok => by
      simp only [Expr.passes, Bool.and_eq_true] at ok
      have name := (n.phrase ok.1).phrase
      have list := list_phrase (Association.phraseAll as ok.2)
      cases as with
      | nil => simpa [Expr.pieces, Pieces.arguments] using name.operand
      | cons a as => simpa [Expr.pieces, Pieces.arguments] using (name.applied list).operand
  | .aggregate es, ok => by
      simp only [Expr.passes, Bool.and_eq_true] at ok
      have list := list_phrase (Element.phraseAll es ok.2)
      simpa [Expr.pieces] using (Phrase.enclosed list).operand

theorem Choice.phrase : ∀ c : Choice, c.passes (rules.checks size) = true →
    Phrase rules Lexeme.endsOperand c.pieces.lexemes
  | .expr e, ok => e.phrase ok
  | .others, _ => Phrase.single (keyword_fits (by decide)) rfl rfl

theorem Element.phrase : ∀ e : Element, e.passes (rules.checks size) = true →
    Phrase rules Lexeme.endsOperand e.pieces.lexemes
  | .positional e, ok => e.phrase ok
  | .named c e, ok => by
      simp only [Element.passes, Bool.and_eq_true] at ok
      have joint : Joint rules [.white " ", .delimiter "=>", .white " "] :=
        .symbol (s := .arrow) (by decide)
      simpa [Element.pieces, Symbol.text] using (c.phrase ok.1).join joint (e.phrase ok.2)

theorem Actual.phrase : ∀ a : Actual, a.passes (rules.checks size) = true →
    Phrase rules Lexeme.endsOperand a.pieces.lexemes
  | .name n, ok => (n.phrase ok).phrase.operand
  | .expr e, ok => e.phrase ok
  | .unconnected, _ => Phrase.single (keyword_fits (by decide)) rfl rfl

theorem Association.phrase : ∀ a : Association, a.passes (rules.checks size) = true →
    Phrase rules Lexeme.endsOperand a.pieces.lexemes
  | .positional a, ok => a.phrase ok
  | .named i a, ok => by
      simp only [Association.passes, Bool.and_eq_true] at ok
      have accepted : i.isAccepted = true := ok.1
      have formal : Phrase rules Lexeme.endsOperand [.ident i] :=
        Phrase.single (ident_fits accepted) rfl rfl
      have joint : Joint rules [.white " ", .delimiter "=>", .white " "] :=
        .symbol (s := .arrow) (by decide)
      simpa [Association.pieces, Symbol.text, Token.lexeme, accepted] using formal.join joint
        (a.phrase ok.2)

theorem Expr.phraseAll : ∀ es : List Expr, Expr.passesAll (rules.checks size) es = true →
    ∀ ps ∈ Expr.piecesAll es, Phrase rules Lexeme.endsOperand ps.lexemes
  | [], _ => by simp [Expr.piecesAll]
  | e :: es, ok => by
      simp only [Expr.passesAll, Bool.and_eq_true] at ok
      have first := e.phrase ok.1
      have later := Expr.phraseAll es ok.2
      simpa [Expr.piecesAll, first] using later

theorem Element.phraseAll : ∀ es : List Element, Element.passesAll (rules.checks size) es = true →
    ∀ ps ∈ Element.piecesAll es, Phrase rules Lexeme.endsOperand ps.lexemes
  | [], _ => by simp [Element.piecesAll]
  | e :: es, ok => by
      simp only [Element.passesAll, Bool.and_eq_true] at ok
      have first := e.phrase ok.1
      have later := Element.phraseAll es ok.2
      simpa [Element.piecesAll, first] using later

theorem Association.phraseAll : ∀ as : List Association,
    Association.passesAll (rules.checks size) as = true →
    ∀ ps ∈ Association.piecesAll as, Phrase rules Lexeme.endsOperand ps.lexemes
  | [], _ => by simp [Association.piecesAll]
  | a :: as, ok => by
      simp only [Association.passesAll, Bool.and_eq_true] at ok
      have first := a.phrase ok.1
      have later := Association.phraseAll as ok.2
      simpa [Association.piecesAll, first] using later

end

theorem Range.index_phrase {rs : List Range}
    (ok : (Constraint.index rs).passes (rules.checks size) = true) :
    (Pieces.commaSeparated (rs.map Range.pieces)).lexemes = [] ∨
      Phrase rules Lexeme.endsOperand (Pieces.commaSeparated (rs.map Range.pieces)).lexemes := by
  simp only [Constraint.passes, Bool.and_eq_true, List.all_eq_true] at ok
  exact list_phrase (by simpa using fun r member => r.phrase (ok.2 r member))

theorem Constraint.phrase {c : Constraint} {mark : Ident} (ok : c.passes (rules.checks size) = true)
    (accepted : mark.isAccepted = true) :
    Phrase rules Lexeme.endsOperand (.ident mark :: c.pieces.lexemes) := by
  have name : NamePhrase rules false [.ident mark] := .simple accepted
  cases c with
  | range r =>
    have joint : Joint rules [.white " ", .keyword "range", .white " "] :=
      .keyword (by decide) (by decide)
    simpa [Constraint.pieces] using name.phrase.operand.join joint (r.phrase ok)
  | index rs =>
    have list := name.applied (Range.index_phrase ok)
    simpa [Constraint.pieces, Range.indexPieces] using list.phrase.operand

theorem SubtypeIndication.phrase {s : SubtypeIndication}
    (ok : s.passes (rules.checks size) = true) :
    Phrase rules Lexeme.endsOperand s.pieces.lexemes := by
  obtain ⟨mark, constraint⟩ := s
  simp only [SubtypeIndication.passes, Bool.and_eq_true] at ok
  have accepted : mark.isAccepted = true := ok.1
  cases constraint with
  | none =>
    simpa [SubtypeIndication.pieces, Token.lexeme, accepted] using
      (NamePhrase.simple accepted).phrase.operand
  | some c =>
    simpa [SubtypeIndication.pieces, Token.lexeme, accepted] using
      Constraint.phrase ok.2 accepted

theorem WaveformElement.phrase {w : WaveformElement} (ok : w.passes (rules.checks size) = true) :
    Phrase rules Lexeme.endsOperand w.pieces.lexemes := by
  obtain ⟨value, delay⟩ := w
  simp only [WaveformElement.passes, Bool.and_eq_true] at ok
  cases delay with
  | none => exact value.phrase ok.1
  | some delay =>
    have joint : Joint rules [.white " ", .keyword "after", .white " "] :=
      .keyword (by decide) (by decide)
    simpa [WaveformElement.pieces] using (value.phrase ok.1).join joint (delay.phrase ok.2)

theorem Waveform.phrase {w : Waveform} (ok : w.passes (rules.checks size) = true) :
    w.pieces.lexemes = [] ∨ Phrase rules Lexeme.endsOperand w.pieces.lexemes := by
  cases w with
  | elements ws =>
    simp only [Waveform.passes, Bool.and_eq_true, List.all_eq_true] at ok
    exact list_phrase (by simpa using fun w member => WaveformElement.phrase (ok.2 w member))
  | unaffected => exact .inr (Phrase.single (keyword_fits (by decide)) rfl rfl)

end Phrases

end Vhdl93
