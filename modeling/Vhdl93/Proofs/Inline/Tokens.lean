import Vhdl93.Proofs.Lexer.Inline

set_option autoImplicit false

namespace Vhdl93

open Lexer

def BinaryOp.lexeme : BinaryOp → Lexeme
  | .and => .keyword "and"
  | .or => .keyword "or"
  | .nand => .keyword "nand"
  | .nor => .keyword "nor"
  | .xor => .keyword "xor"
  | .xnor => .keyword "xnor"
  | .equal => .delimiter "="
  | .notEqual => .delimiter "/="
  | .less => .delimiter "<"
  | .lessEqual => .delimiter "<="
  | .greater => .delimiter ">"
  | .greaterEqual => .delimiter ">="
  | .sll => .keyword "sll"
  | .srl => .keyword "srl"
  | .sla => .keyword "sla"
  | .sra => .keyword "sra"
  | .rol => .keyword "rol"
  | .ror => .keyword "ror"
  | .plus => .delimiter "+"
  | .minus => .delimiter "-"
  | .concat => .delimiter "&"
  | .times => .delimiter "*"
  | .divide => .delimiter "/"
  | .mod => .keyword "mod"
  | .rem => .keyword "rem"
  | .power => .delimiter "**"

def UnaryOp.lexeme : UnaryOp → Lexeme
  | .plus => .delimiter "+"
  | .minus => .delimiter "-"
  | .abs => .keyword "abs"
  | .not => .keyword "not"

def Direction.lexeme : Direction → Lexeme
  | .ascending => .keyword "to"
  | .descending => .keyword "downto"

-- The range attribute has no identifier of its own.
def Ident.designator : Ident → Lexeme
  | .basic text => if text.toLower = "range" then .keyword text else .ident (.basic text)
  | .extended text => .ident (.extended text)

def bracketed (ls : List Lexeme) : List Lexeme := .delimiter "(" :: ls ++ [.delimiter ")"]

def bracketedIf (needed : Bool) (ls : List Lexeme) : List Lexeme :=
  if needed then bracketed ls else ls

def listed (items : List (List Lexeme)) : List Lexeme := [.delimiter ","].intercalate items

def Suffix.tokens : Suffix → List Lexeme
  | .simple i => [.ident i]
  | .all => [.keyword "all"]

-- A minus belongs to the real behind it, and is a token of its own.
def Literal.tokens : Literal → List Lexeme
  | .integer n => [.number n.repr]
  | .real x =>
      if x.negative then [.delimiter "-", .number x.magnitude.magnitudeText]
      else [.number x.magnitudeText]
  | .character c => [.character c]
  | .string s => [.string s]
  | .bitString base digits => [.bitString base digits]
  | .null => [.keyword "null"]

mutual

def Name.tokens : Name → List Lexeme
  | .simple i => [.ident i]
  | .selected base suffix => base.tokens ++ .delimiter "." :: suffix.tokens
  | .indexed base es => base.tokens ++ bracketed (listed (Expr.tokensAll es))
  | .slice base range => base.tokens ++ bracketed range.tokens
  | .attribute base i e => base.tokens ++ .delimiter "'" :: i.designator :: Expr.argumentTokens e

def Range.tokens : Range → List Lexeme
  | .bounds d l r => l.tokens ++ d.lexeme :: r.tokens
  | .attribute base i e => base.tokens ++ .delimiter "'" :: i.designator :: Expr.argumentTokens e

def Expr.tokens : Expr → List Lexeme
  | .binary op l r =>
      bracketedIf (op.parenthesizesLeft l) l.tokens ++
        op.lexeme :: bracketedIf (op.parenthesizesRight r) r.tokens
  | .unary op e => op.lexeme :: bracketedIf (op.parenthesizes e) e.tokens
  | .literal x => x.tokens
  | .name n => n.tokens
  | .call n [] => n.tokens
  | .call n (a :: as) => n.tokens ++ bracketed (listed (a.tokens :: Association.tokensAll as))
  | .aggregate es => bracketed (listed (Element.tokensAll es))

def Choice.tokens : Choice → List Lexeme
  | .expr e => e.tokens
  | .others => [.keyword "others"]

def Element.tokens : Element → List Lexeme
  | .positional e => e.tokens
  | .named c e => c.tokens ++ .delimiter "=>" :: e.tokens

def Actual.tokens : Actual → List Lexeme
  | .name n => n.tokens
  | .expr e => e.tokens
  | .unconnected => [.keyword "open"]

def Association.tokens : Association → List Lexeme
  | .positional a => a.tokens
  | .named i a => .ident i :: .delimiter "=>" :: a.tokens

def Expr.argumentTokens : Option Expr → List Lexeme
  | none => []
  | some e => bracketed e.tokens

def Expr.tokensAll : List Expr → List (List Lexeme)
  | [] => []
  | e :: es => e.tokens :: Expr.tokensAll es

def Element.tokensAll : List Element → List (List Lexeme)
  | [] => []
  | e :: es => e.tokens :: Element.tokensAll es

def Association.tokensAll : List Association → List (List Lexeme)
  | [] => []
  | a :: as => a.tokens :: Association.tokensAll as

end

def Constraint.tokens : Constraint → List Lexeme
  | .range r => .keyword "range" :: r.tokens
  | .index rs => bracketed (listed (rs.map Range.tokens))

def SubtypeIndication.tokens (s : SubtypeIndication) : List Lexeme :=
  match s.constraint with
  | none => [.ident s.mark]
  | some c => .ident s.mark :: c.tokens

def WaveformElement.tokens (w : WaveformElement) : List Lexeme :=
  match w.delay with
  | none => w.value.tokens
  | some delay => w.value.tokens ++ .keyword "after" :: delay.tokens

def Waveform.tokens : Waveform → List Lexeme
  | .elements ws => listed (ws.map WaveformElement.tokens)
  | .unaffected => [.keyword "unaffected"]

theorem Token.isBlank_lexeme (t : Token) : t.lexeme.isBlank = false := by
  cases t with
  | ident i =>
    simp only [lexeme]
    split <;> rfl
  | keyword | symbol | integer | real | character | string | bitString => rfl

namespace Pieces

def solid (ps : Pieces) : List Lexeme := ps.lexemes.filter fun l => !l.isBlank

@[simp] theorem solid_nil : solid [] = [] := rfl

@[simp] theorem solid_append (ps qs : Pieces) : solid (ps ++ qs) = solid ps ++ solid qs := by
  simp [solid]

@[simp] theorem solid_token (t : Token) (ps : Pieces) :
    solid (.token t :: ps) = t.lexeme :: solid ps := by
  simp [solid, t.isBlank_lexeme]

@[simp] theorem solid_ident (i : Ident) (ps : Pieces) :
    solid (.ident i :: ps) = (Token.ident i).lexeme :: solid ps :=
  solid_token (.ident i) ps

@[simp] theorem solid_keyword (word : String) (ps : Pieces) :
    solid (.keyword word :: ps) = .keyword word :: solid ps := rfl

@[simp] theorem solid_symbol (s : Symbol) (ps : Pieces) :
    solid (.symbol s :: ps) = .delimiter s.text :: solid ps := rfl

@[simp] theorem solid_blank (ps : Pieces) : solid (.blank :: ps) = solid ps := rfl

@[simp] theorem solid_parenthesized (ps : Pieces) :
    ps.parenthesized.solid = bracketed ps.solid := by
  simp [parenthesized, bracketed, Symbol.text]

@[simp] theorem solid_operand (parens : Bool) (ps : Pieces) :
    (ps.operand parens).solid = bracketedIf parens ps.solid := by
  cases parens <;> simp [operand, bracketedIf]

@[simp] theorem solid_commaSeparated (items : List Pieces) :
    (commaSeparated items).solid = listed (items.map solid) := by
  induction items with
  | nil => rfl
  | cons item items ih =>
    cases items with
    | nil => simp [commaSeparated, listed, List.intercalate]
    | cons next items =>
      simp [commaSeparated, ih, listed, Symbol.text, List.intercalate]

end Pieces

section Nodes

variable {rules : Rules} {size : Nat → Bool}

theorem lexeme_of_accepted {i : Ident} (accepted : i.isAccepted = true) :
    (Token.ident i).lexeme = .ident i := by
  rw [Token.lexeme, if_pos accepted]

theorem ne_range_of_accepted {text : String} (accepted : (Ident.basic text).isAccepted = true) :
    text.toLower ≠ "range" := by
  intro range
  have reserved : isReserved text = true := by
    rw [isReserved_iff, range]
    decide
  by_cases empty : text.isEmpty = true <;>
    simp [Ident.isAccepted, Ident.ofBasic, empty, reserved, Except.isOk, Except.toBool] at accepted

theorem lexeme_of_designator {i : Ident} (designator : i.isDesignator = true) :
    (Token.ident i).lexeme = i.designator := by
  cases accepted : i.isAccepted with
  | false =>
    simp only [Ident.isDesignator, accepted, Bool.false_or, Bool.and_eq_true,
      decide_eq_true_eq] at designator
    cases i with
    | basic text =>
      have range : text.toLower = "range" := designator.2
      simp [Token.lexeme, accepted, Ident.designator, range, Ident.render]
    | extended text => cases designator.1
  | true =>
    rw [lexeme_of_accepted accepted]
    cases i with
    | basic text => rw [Ident.designator, if_neg (ne_range_of_accepted accepted)]
    | extended text => rfl

theorem BinaryOp.lexeme_token (op : BinaryOp) : op.token.lexeme = op.lexeme := by
  cases op <;> rfl

theorem UnaryOp.solid_pieces (op : UnaryOp) : op.pieces.solid = [op.lexeme] := by
  cases op <;> rfl

theorem Direction.lexeme_text (d : Direction) : Lexeme.keyword d.text = d.lexeme := by
  cases d <;> rfl

theorem Suffix.solid_pieces {s : Suffix} (ok : s.passes (rules.checks size) = true) :
    s.pieces.solid = s.tokens := by
  cases s with
  | simple i => simp [Suffix.pieces, Suffix.tokens, lexeme_of_accepted ok]
  | all => rfl

theorem Literal.solid_pieces {x : Literal} (ok : rules.accepts x = true) :
    x.pieces.solid = x.tokens := by
  cases x with
  | real x =>
    have number : x.isNaN = false := x.isNaN_of_isFinite ok
    cases sign : x.negative <;>
      simp [Literal.pieces, Literal.tokens, sign, number, Token.lexeme, Symbol.text]
  | integer | character | string | bitString | null => rfl

mutual

theorem Name.solid_pieces : ∀ n : Name, n.passes (rules.checks size) = true →
    n.pieces.solid = n.tokens
  | .simple i, ok => by simp [Name.pieces, Name.tokens, lexeme_of_accepted ok]
  | .selected base suffix, ok => by
      simp only [Name.passes, Bool.and_eq_true] at ok
      simp [Name.pieces, Name.tokens, base.solid_pieces ok.1, suffix.solid_pieces ok.2, Symbol.text]
  | .indexed base es, ok => by
      simp only [Name.passes, Bool.and_eq_true] at ok
      simp only [Name.pieces, Name.tokens, Pieces.solid_append, Pieces.solid_parenthesized,
        Pieces.solid_commaSeparated, base.solid_pieces ok.1.1, Expr.solid_piecesAll es ok.2]
  | .slice base range, ok => by
      simp only [Name.passes, Bool.and_eq_true] at ok
      simp [Name.pieces, Name.tokens, base.solid_pieces ok.1, range.solid_pieces ok.2]
  | .attribute base i e, ok => by
      simp only [Name.passes, Bool.and_eq_true] at ok
      simp [Name.pieces, Name.tokens, base.solid_pieces ok.1.1.1, Symbol.text,
        lexeme_of_designator ok.1.2, Expr.solid_argumentPieces e ok.2]

theorem Range.solid_pieces : ∀ r : Range, r.passes (rules.checks size) = true →
    r.pieces.solid = r.tokens
  | .bounds d l r, ok => by
      simp only [Range.passes, Bool.and_eq_true] at ok
      simp [Range.pieces, Range.tokens, l.solid_pieces ok.1, r.solid_pieces ok.2, d.lexeme_text]
  | .attribute base i e, ok => by
      simp only [Range.passes, Bool.and_eq_true] at ok
      simp [Range.pieces, Range.tokens, base.solid_pieces ok.1.1.1, Symbol.text,
        lexeme_of_designator ok.1.2, Expr.solid_argumentPieces e ok.2]

theorem Expr.solid_pieces : ∀ e : Expr, e.passes (rules.checks size) = true →
    e.pieces.solid = e.tokens
  | .binary op l r, ok => by
      simp only [Expr.passes, Bool.and_eq_true] at ok
      simp [Expr.pieces, Expr.tokens, l.solid_pieces ok.1, r.solid_pieces ok.2, op.lexeme_token]
  | .unary op e, ok => by
      simp [Expr.pieces, Expr.tokens, e.solid_pieces ok, op.solid_pieces]
  | .literal x, ok => by simpa [Expr.pieces, Expr.tokens] using Literal.solid_pieces ok
  | .name n, ok => by simpa [Expr.pieces, Expr.tokens] using n.solid_pieces ok
  | .call n [], ok => by
      simp only [Expr.passes, Bool.and_eq_true] at ok
      simpa [Expr.pieces, Expr.tokens, Pieces.arguments] using n.solid_pieces ok.1
  | .call n (a :: as), ok => by
      simp only [Expr.passes, Association.passesAll, Bool.and_eq_true] at ok
      simp only [Expr.pieces, Expr.tokens, Pieces.arguments, Association.piecesAll,
        List.isEmpty_cons, Bool.false_eq_true, if_false, Pieces.solid_append,
        Pieces.solid_parenthesized, Pieces.solid_commaSeparated, List.map_cons, n.solid_pieces ok.1,
        a.solid_pieces ok.2.1, Association.solid_piecesAll as ok.2.2]
  | .aggregate es, ok => by
      simp only [Expr.passes, Bool.and_eq_true] at ok
      simp only [Expr.pieces, Expr.tokens, Pieces.solid_parenthesized, Pieces.solid_commaSeparated,
        Element.solid_piecesAll es ok.2]

theorem Choice.solid_pieces : ∀ c : Choice, c.passes (rules.checks size) = true →
    c.pieces.solid = c.tokens
  | .expr e, ok => by simpa [Choice.pieces, Choice.tokens] using e.solid_pieces ok
  | .others, _ => rfl

theorem Element.solid_pieces : ∀ e : Element, e.passes (rules.checks size) = true →
    e.pieces.solid = e.tokens
  | .positional e, ok => by simpa [Element.pieces, Element.tokens] using e.solid_pieces ok
  | .named c e, ok => by
      simp only [Element.passes, Bool.and_eq_true] at ok
      simp [Element.pieces, Element.tokens, c.solid_pieces ok.1, e.solid_pieces ok.2, Symbol.text]

theorem Actual.solid_pieces : ∀ a : Actual, a.passes (rules.checks size) = true →
    a.pieces.solid = a.tokens
  | .name n, ok => by simpa [Actual.pieces, Actual.tokens] using n.solid_pieces ok
  | .expr e, ok => by simpa [Actual.pieces, Actual.tokens] using e.solid_pieces ok
  | .unconnected, _ => rfl

theorem Association.solid_pieces : ∀ a : Association, a.passes (rules.checks size) = true →
    a.pieces.solid = a.tokens
  | .positional a, ok => by
      simpa [Association.pieces, Association.tokens] using a.solid_pieces ok
  | .named i a, ok => by
      simp only [Association.passes, Bool.and_eq_true] at ok
      simp [Association.pieces, Association.tokens, lexeme_of_accepted ok.1, a.solid_pieces ok.2,
        Symbol.text]

theorem Expr.solid_argumentPieces : ∀ e : Option Expr,
    Expr.passesOption (rules.checks size) e = true →
    (Expr.argumentPieces e).solid = Expr.argumentTokens e
  | none, _ => rfl
  | some e, ok => by simp [Expr.argumentPieces, Expr.argumentTokens, e.solid_pieces ok]

theorem Expr.solid_piecesAll : ∀ es : List Expr, Expr.passesAll (rules.checks size) es = true →
    (Expr.piecesAll es).map Pieces.solid = Expr.tokensAll es
  | [], _ => rfl
  | e :: es, ok => by
      simp only [Expr.passesAll, Bool.and_eq_true] at ok
      simp only [Expr.piecesAll, Expr.tokensAll, List.map_cons, e.solid_pieces ok.1,
        Expr.solid_piecesAll es ok.2]

theorem Element.solid_piecesAll : ∀ es : List Element,
    Element.passesAll (rules.checks size) es = true →
    (Element.piecesAll es).map Pieces.solid = Element.tokensAll es
  | [], _ => rfl
  | e :: es, ok => by
      simp only [Element.passesAll, Bool.and_eq_true] at ok
      simp only [Element.piecesAll, Element.tokensAll, List.map_cons, e.solid_pieces ok.1,
        Element.solid_piecesAll es ok.2]

theorem Association.solid_piecesAll : ∀ as : List Association,
    Association.passesAll (rules.checks size) as = true →
    (Association.piecesAll as).map Pieces.solid = Association.tokensAll as
  | [], _ => rfl
  | a :: as, ok => by
      simp only [Association.passesAll, Bool.and_eq_true] at ok
      simp only [Association.piecesAll, Association.tokensAll, List.map_cons, a.solid_pieces ok.1,
        Association.solid_piecesAll as ok.2]

end

theorem Constraint.solid_pieces {c : Constraint} (ok : c.passes (rules.checks size) = true) :
    c.pieces.solid = c.tokens := by
  cases c with
  | range r => simpa [Constraint.pieces, Constraint.tokens] using r.solid_pieces ok
  | index rs =>
    simp only [Constraint.passes, Bool.and_eq_true, List.all_eq_true] at ok
    have each : rs.map (Pieces.solid ∘ Range.pieces) = rs.map Range.tokens :=
      List.map_congr_left fun r member => r.solid_pieces (ok.2 r member)
    simp [Constraint.pieces, Constraint.tokens, Range.indexPieces, each]

theorem SubtypeIndication.solid_pieces {s : SubtypeIndication}
    (ok : s.passes (rules.checks size) = true) : s.pieces.solid = s.tokens := by
  obtain ⟨mark, constraint⟩ := s
  simp only [SubtypeIndication.passes, Bool.and_eq_true] at ok
  cases constraint with
  | none =>
    simp [SubtypeIndication.pieces, SubtypeIndication.tokens, lexeme_of_accepted ok.1]
  | some c =>
    simp [SubtypeIndication.pieces, SubtypeIndication.tokens, lexeme_of_accepted ok.1,
      Constraint.solid_pieces ok.2]

theorem WaveformElement.solid_pieces {w : WaveformElement}
    (ok : w.passes (rules.checks size) = true) : w.pieces.solid = w.tokens := by
  obtain ⟨value, delay⟩ := w
  simp only [WaveformElement.passes, Bool.and_eq_true] at ok
  cases delay with
  | none => exact value.solid_pieces ok.1
  | some delay =>
    simp [WaveformElement.pieces, WaveformElement.tokens, value.solid_pieces ok.1,
      delay.solid_pieces ok.2]

theorem Waveform.solid_pieces {w : Waveform} (ok : w.passes (rules.checks size) = true) :
    w.pieces.solid = w.tokens := by
  cases w with
  | elements ws =>
    simp only [Waveform.passes, Bool.and_eq_true, List.all_eq_true] at ok
    have each : ws.map (Pieces.solid ∘ WaveformElement.pieces) = ws.map WaveformElement.tokens :=
      List.map_congr_left fun w member => WaveformElement.solid_pieces (ok.2 w member)
    simp [Waveform.pieces, Waveform.tokens, each]
  | unaffected => rfl

end Nodes

end Vhdl93
