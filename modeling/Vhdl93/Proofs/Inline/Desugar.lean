import Vhdl93.Proofs.Grammar.Operand
import Vhdl93.Proofs.Lexer.Standard

set_option autoImplicit false

namespace Vhdl93

def Literal.desugar : Literal → Expr
  | .real x =>
      if x.negative then .unary .minus (.literal (.real x.magnitude)) else .literal (.real x)
  | x => .literal x

mutual

def Name.desugar : Name → Name
  | .simple i => .simple i
  | .selected base suffix => .selected base.desugar suffix
  | .indexed base es => .indexed base.desugar (Expr.desugarAll es)
  | .slice base range => .slice base.desugar range.desugar
  | .attribute base i e => .attribute base.desugar i (Expr.desugarOption e)

def Range.desugar : Range → Range
  | .bounds d l r => .bounds d l.desugar r.desugar
  | .attribute base i e => .attribute base.desugar i (Expr.desugarOption e)

def Expr.desugar : Expr → Expr
  | .binary op l r => .binary op l.desugar r.desugar
  | .unary op e => .unary op e.desugar
  | .literal x => x.desugar
  | .name n => .name n.desugar
  | .call n as => .call n.desugar (Association.desugarAll as)
  | .aggregate es => .aggregate (Element.desugarAll es)

def Choice.desugar : Choice → Choice
  | .expr e => .expr e.desugar
  | .others => .others

def Element.desugar : Element → Element
  | .positional e => .positional e.desugar
  | .named c e => .named c.desugar e.desugar

def Actual.desugar : Actual → Actual
  | .name n => .name n.desugar
  | .expr e => .expr e.desugar
  | .unconnected => .unconnected

def Association.desugar : Association → Association
  | .positional a => .positional a.desugar
  | .named i a => .named i a.desugar

def Expr.desugarOption : Option Expr → Option Expr
  | none => none
  | some e => some e.desugar

def Expr.desugarAll : List Expr → List Expr
  | [] => []
  | e :: es => e.desugar :: Expr.desugarAll es

def Element.desugarAll : List Element → List Element
  | [] => []
  | e :: es => e.desugar :: Element.desugarAll es

def Association.desugarAll : List Association → List Association
  | [] => []
  | a :: as => a.desugar :: Association.desugarAll as

end

def Constraint.desugar : Constraint → Constraint
  | .range r => .range r.desugar
  | .index rs => .index (rs.map Range.desugar)

def SubtypeIndication.desugar (s : SubtypeIndication) : SubtypeIndication :=
  ⟨s.mark, s.constraint.map Constraint.desugar⟩

def WaveformElement.desugar (w : WaveformElement) : WaveformElement :=
  ⟨w.value.desugar, w.delay.map Expr.desugar⟩

def Waveform.desugar : Waveform → Waveform
  | .elements ws => .elements (ws.map WaveformElement.desugar)
  | .unaffected => .unaffected

def Inline.desugar : Inline → Inline
  | .suffix x => .suffix x
  | .name x => .name x.desugar
  | .range x => .range x.desugar
  | .expr x => .expr x.desugar
  | .choice x => .choice x.desugar
  | .element x => .element x.desugar
  | .actual x => .actual x.desugar
  | .association x => .association x.desugar
  | .constraint x => .constraint x.desugar
  | .subtype x => .subtype x.desugar
  | .waveformElement x => .waveformElement x.desugar
  | .waveform x => .waveform x.desugar

def Literal.isUnsigned : Literal → Bool
  | .real x => !x.negative
  | _ => true

theorem Binary64.negative_magnitude (x : Binary64) : x.magnitude.negative = false := by
  simp only [negative, magnitude, UInt64.toNat_ofNat', Nat.reduceShiftLeft, decide_eq_false_iff_not]
  omega

abbrev Checks.unsigned : Checks := .ofLiterals Literal.isUnsigned

theorem Literal.desugared {x : Literal} (number : x.isNumeric = true) :
    x.desugar.passes .unsigned = true ∧ x.desugar.pieces = x.pieces := by
  cases x with
  | real x =>
    simp only [isNumeric, Bool.not_eq_true'] at number
    cases sign : x.negative with
    | false => simp [desugar, sign, Expr.pieces, Expr.passes, isUnsigned]
    | true =>
      have positive := x.negative_magnitude
      have bare : UnaryOp.minus.parenthesizes (.literal (.real x.magnitude)) = false := by
        simp [UnaryOp.parenthesizes, Expr.leadingOp?, positive]
      refine ⟨?_, ?_⟩
      · simp [desugar, sign, Expr.passes, isUnsigned, positive]
      · simp [desugar, sign, Expr.pieces, bare, Pieces.operand, UnaryOp.pieces, Literal.pieces,
          positive, number]
  | integer | character | string | bitString | null => exact ⟨rfl, rfl⟩

section Operands

open Grammar

variable {e : Expr}

theorem Expr.leadingOp?_desugar (e : Expr) : e.desugar.leadingOp? = e.leadingOp? := by
  cases e with
  | literal x =>
    cases x with
    | real x => cases sign : x.negative <;> simp [desugar, Literal.desugar, leadingOp?, sign]
    | integer | character | string | bitString | null => rfl
  | binary | unary | name | call | aggregate => rfl

theorem Grammar.IsOperand.desugar (operand : IsOperand e) : IsOperand e.desugar := by
  cases e with
  | binary op l r => exact absurd rfl (operand op l r)
  | literal x =>
    intro op l r
    cases x with
    | real x => cases sign : x.negative <;> simp [Expr.desugar, Literal.desugar, sign]
    | integer | character | string | bitString | null => simp [Expr.desugar, Literal.desugar]
  | unary | name | call | aggregate => simp [IsOperand, Expr.desugar]

-- The three rules look at an operand only through its operator or its leading sign, and a literal
-- counts as a leading minus already.
theorem parenthesizesLeft_desugar (op : BinaryOp) (e : Expr) :
    op.parenthesizesLeft e.desugar = op.parenthesizesLeft e := by
  rcases operand_forms e with ⟨inner, l, r, rfl⟩ | ⟨operand, -⟩
  · rfl
  · rw [parenthesizesLeft_operand op operand, parenthesizesLeft_operand op operand.desugar,
      Expr.leadingOp?_desugar]

theorem parenthesizesRight_desugar (op : BinaryOp) (e : Expr) :
    op.parenthesizesRight e.desugar = op.parenthesizesRight e := by
  rcases operand_forms e with ⟨inner, l, r, rfl⟩ | ⟨operand, -⟩
  · rfl
  · rw [parenthesizesRight_operand op operand, parenthesizesRight_operand op operand.desugar,
      Expr.leadingOp?_desugar]

theorem parenthesizes_desugar (op : UnaryOp) (e : Expr) :
    op.parenthesizes e.desugar = op.parenthesizes e := by
  rcases operand_forms e with ⟨inner, l, r, rfl⟩ | ⟨operand, -⟩
  · rfl
  · rw [parenthesizes_operand op operand, parenthesizes_operand op operand.desugar,
      Expr.leadingOp?_desugar]

end Operands

mutual

theorem Name.desugared : ∀ n : Name, n.passes .numeric = true →
    n.desugar.passes .unsigned = true ∧ n.desugar.pieces = n.pieces
  | .simple _, _ => ⟨rfl, rfl⟩
  | .selected base suffix, ok => by
      simp only [Name.passes, Bool.and_eq_true] at ok
      obtain ⟨signs, same⟩ := base.desugared ok.1
      have plain : suffix.passes .unsigned = true := by cases suffix <;> rfl
      exact ⟨by simp [Name.desugar, Name.passes, signs, plain],
        by simp only [Name.desugar, Name.pieces, same]⟩
  | .indexed base es, ok => by
      simp only [Name.passes, Bool.and_eq_true] at ok
      obtain ⟨signs, same⟩ := base.desugared ok.1.1
      obtain ⟨each, items⟩ := Expr.desugaredAll es ok.2
      exact ⟨by simp [Name.desugar, Name.passes, signs, each],
        by simp only [Name.desugar, Name.pieces, same, items]⟩
  | .slice base range, ok => by
      simp only [Name.passes, Bool.and_eq_true] at ok
      obtain ⟨signs, same⟩ := base.desugared ok.1
      obtain ⟨inner, bounds⟩ := range.desugared ok.2
      exact ⟨by simp [Name.desugar, Name.passes, signs, inner],
        by simp only [Name.desugar, Name.pieces, same, bounds]⟩
  | .attribute base i e, ok => by
      simp only [Name.passes, Bool.and_eq_true] at ok
      obtain ⟨signs, same⟩ := base.desugared ok.1.1.1
      obtain ⟨inner, argument⟩ := Expr.desugaredOption e ok.2
      exact ⟨by simp [Name.desugar, Name.passes, signs, inner],
        by simp only [Name.desugar, Name.pieces, same, argument]⟩

theorem Range.desugared : ∀ r : Range, r.passes .numeric = true →
    r.desugar.passes .unsigned = true ∧ r.desugar.pieces = r.pieces
  | .bounds d l r, ok => by
      simp only [Range.passes, Bool.and_eq_true] at ok
      obtain ⟨signs, left⟩ := l.desugared ok.1
      obtain ⟨others, right⟩ := r.desugared ok.2
      exact ⟨by simp [Range.desugar, Range.passes, signs, others],
        by simp only [Range.desugar, Range.pieces, left, right]⟩
  | .attribute base i e, ok => by
      simp only [Range.passes, Bool.and_eq_true] at ok
      obtain ⟨signs, same⟩ := base.desugared ok.1.1.1
      obtain ⟨inner, argument⟩ := Expr.desugaredOption e ok.2
      exact ⟨by simp [Range.desugar, Range.passes, signs, inner],
        by simp only [Range.desugar, Range.pieces, same, argument]⟩

theorem Expr.desugared : ∀ e : Expr, e.passes .numeric = true →
    e.desugar.passes .unsigned = true ∧ e.desugar.pieces = e.pieces
  | .binary op l r, ok => by
      simp only [Expr.passes, Bool.and_eq_true] at ok
      obtain ⟨signs, left⟩ := l.desugared ok.1
      obtain ⟨others, right⟩ := r.desugared ok.2
      exact ⟨by simp [Expr.desugar, Expr.passes, signs, others],
        by simp only [Expr.desugar, Expr.pieces, left, right, parenthesizesLeft_desugar,
          parenthesizesRight_desugar]⟩
  | .unary op e, ok => by
      obtain ⟨signs, same⟩ := e.desugared ok
      exact ⟨signs, by simp only [Expr.desugar, Expr.pieces, same, parenthesizes_desugar]⟩
  | .literal x, ok => Literal.desugared ok
  | .name n, ok => n.desugared ok
  | .call n as, ok => by
      simp only [Expr.passes, Bool.and_eq_true] at ok
      obtain ⟨signs, same⟩ := n.desugared ok.1
      obtain ⟨each, items⟩ := Association.desugaredAll as ok.2
      exact ⟨by simp [Expr.desugar, Expr.passes, signs, each],
        by simp only [Expr.desugar, Expr.pieces, same, items]⟩
  | .aggregate es, ok => by
      simp only [Expr.passes, Bool.and_eq_true] at ok
      obtain ⟨each, items⟩ := Element.desugaredAll es ok.2
      exact ⟨by simp [Expr.desugar, Expr.passes, each],
        by simp only [Expr.desugar, Expr.pieces, items]⟩

theorem Choice.desugared : ∀ c : Choice, c.passes .numeric = true →
    c.desugar.passes .unsigned = true ∧ c.desugar.pieces = c.pieces
  | .expr e, ok => e.desugared ok
  | .others, _ => ⟨rfl, rfl⟩

theorem Element.desugared : ∀ e : Element, e.passes .numeric = true →
    e.desugar.passes .unsigned = true ∧ e.desugar.pieces = e.pieces
  | .positional e, ok => e.desugared ok
  | .named c e, ok => by
      simp only [Element.passes, Bool.and_eq_true] at ok
      obtain ⟨signs, choice⟩ := c.desugared ok.1
      obtain ⟨others, value⟩ := e.desugared ok.2
      exact ⟨by simp [Element.desugar, Element.passes, signs, others],
        by simp only [Element.desugar, Element.pieces, choice, value]⟩

theorem Actual.desugared : ∀ a : Actual, a.passes .numeric = true →
    a.desugar.passes .unsigned = true ∧ a.desugar.pieces = a.pieces
  | .name n, ok => n.desugared ok
  | .expr e, ok => e.desugared ok
  | .unconnected, _ => ⟨rfl, rfl⟩

theorem Association.desugared : ∀ a : Association, a.passes .numeric = true →
    a.desugar.passes .unsigned = true ∧ a.desugar.pieces = a.pieces
  | .positional a, ok => a.desugared ok
  | .named i a, ok => by
      simp only [Association.passes, Bool.and_eq_true] at ok
      obtain ⟨signs, same⟩ := a.desugared ok.2
      exact ⟨by simp [Association.desugar, Association.passes, signs],
        by simp only [Association.desugar, Association.pieces, same]⟩

theorem Expr.desugaredOption : ∀ e : Option Expr, Expr.passesOption .numeric e = true →
    Expr.passesOption .unsigned (Expr.desugarOption e) = true ∧
      Expr.argumentPieces (Expr.desugarOption e) = Expr.argumentPieces e
  | none, _ => ⟨rfl, rfl⟩
  | some e, ok => by
      obtain ⟨signs, same⟩ := e.desugared ok
      exact ⟨signs, by simp only [Expr.desugarOption, Expr.argumentPieces, same]⟩

theorem Expr.desugaredAll : ∀ es : List Expr, Expr.passesAll .numeric es = true →
    Expr.passesAll .unsigned (Expr.desugarAll es) = true ∧
      Expr.piecesAll (Expr.desugarAll es) = Expr.piecesAll es
  | [], _ => ⟨rfl, rfl⟩
  | e :: es, ok => by
      simp only [Expr.passesAll, Bool.and_eq_true] at ok
      obtain ⟨signs, same⟩ := e.desugared ok.1
      obtain ⟨each, items⟩ := Expr.desugaredAll es ok.2
      exact ⟨by simp [Expr.desugarAll, Expr.passesAll, signs, each],
        by simp only [Expr.desugarAll, Expr.piecesAll, same, items]⟩

theorem Element.desugaredAll : ∀ es : List Element, Element.passesAll .numeric es = true →
    Element.passesAll .unsigned (Element.desugarAll es) = true ∧
      Element.piecesAll (Element.desugarAll es) = Element.piecesAll es
  | [], _ => ⟨rfl, rfl⟩
  | e :: es, ok => by
      simp only [Element.passesAll, Bool.and_eq_true] at ok
      obtain ⟨signs, same⟩ := e.desugared ok.1
      obtain ⟨each, items⟩ := Element.desugaredAll es ok.2
      exact ⟨by simp [Element.desugarAll, Element.passesAll, signs, each],
        by simp only [Element.desugarAll, Element.piecesAll, same, items]⟩

theorem Association.desugaredAll :
    ∀ as : List Association, Association.passesAll .numeric as = true →
      Association.passesAll .unsigned (Association.desugarAll as) = true ∧
        Association.piecesAll (Association.desugarAll as) = Association.piecesAll as
  | [], _ => ⟨rfl, rfl⟩
  | a :: as, ok => by
      simp only [Association.passesAll, Bool.and_eq_true] at ok
      obtain ⟨signs, same⟩ := a.desugared ok.1
      obtain ⟨each, items⟩ := Association.desugaredAll as ok.2
      exact ⟨by simp [Association.desugarAll, Association.passesAll, signs, each],
        by simp only [Association.desugarAll, Association.piecesAll, same, items]⟩

end

section Constructs

theorem all_desugared {α : Type} {desugar : α → α} {passes : Checks → α → Bool}
    {pieces : α → Pieces} {xs : List α} (ok : xs.all (passes .numeric) = true)
    (desugared : ∀ x, passes .numeric x = true →
      passes .unsigned (desugar x) = true ∧ pieces (desugar x) = pieces x) :
    (xs.map desugar).all (passes .unsigned) = true ∧
      (xs.map desugar).map pieces = xs.map pieces := by
  rw [List.all_eq_true] at ok
  refine ⟨?_, ?_⟩
  · rw [List.all_map, List.all_eq_true]
    exact fun x member => (desugared x (ok x member)).1
  · rw [List.map_map]
    exact List.map_congr_left fun x member => (desugared x (ok x member)).2

theorem Constraint.desugared {c : Constraint} (ok : c.passes .numeric = true) :
    c.desugar.passes .unsigned = true ∧ c.desugar.pieces = c.pieces := by
  cases c with
  | range r =>
    obtain ⟨signs, same⟩ := r.desugared ok
    exact ⟨signs, by simp only [desugar, pieces, same]⟩
  | index rs =>
    simp only [passes, Bool.and_eq_true] at ok
    obtain ⟨signs, same⟩ := all_desugared ok.2 Range.desugared
    exact ⟨by simp [desugar, passes, signs],
      by simp only [desugar, pieces, Range.indexPieces, same]⟩

theorem SubtypeIndication.desugared {s : SubtypeIndication} (ok : s.passes .numeric = true) :
    s.desugar.passes .unsigned = true ∧ s.desugar.pieces = s.pieces := by
  obtain ⟨mark, constraint⟩ := s
  cases constraint with
  | none => exact ⟨rfl, rfl⟩
  | some c =>
    simp only [passes, Bool.and_eq_true] at ok
    obtain ⟨signs, same⟩ := Constraint.desugared ok.2
    exact ⟨by simp [desugar, passes, signs],
      by simp only [desugar, pieces, Option.map_some, same]⟩

theorem WaveformElement.desugared {w : WaveformElement} (ok : w.passes .numeric = true) :
    w.desugar.passes .unsigned = true ∧ w.desugar.pieces = w.pieces := by
  obtain ⟨value, delay⟩ := w
  simp only [passes, Bool.and_eq_true] at ok
  obtain ⟨signs, same⟩ := value.desugared ok.1
  cases delay with
  | none => exact ⟨by simp [desugar, passes, signs], same⟩
  | some delay =>
    obtain ⟨others, later⟩ := delay.desugared ok.2
    exact ⟨by simp [desugar, passes, signs, others],
      by simp only [desugar, pieces, Option.map_some, same, later]⟩

theorem Waveform.desugared {w : Waveform} (ok : w.passes .numeric = true) :
    w.desugar.passes .unsigned = true ∧ w.desugar.pieces = w.pieces := by
  cases w with
  | unaffected => exact ⟨rfl, rfl⟩
  | elements ws =>
    simp only [passes, Bool.and_eq_true] at ok
    obtain ⟨signs, same⟩ := all_desugared ok.2 fun w => WaveformElement.desugared
    exact ⟨by simp [desugar, passes, signs], by simp only [desugar, pieces, same]⟩

end Constructs

namespace Inline

theorem desugared (x : Inline) (ok : x.passes .numeric = true) :
    x.desugar.passes .unsigned = true ∧ x.desugar.pieces = x.pieces := by
  cases x with
  | suffix s => exact ⟨by cases s <;> rfl, rfl⟩
  | name n => exact n.desugared ok
  | range r => exact r.desugared ok
  | expr e => exact e.desugared ok
  | choice c => exact c.desugared ok
  | element e => exact e.desugared ok
  | actual a => exact a.desugared ok
  | association a => exact a.desugared ok
  | constraint c => exact Constraint.desugared ok
  | subtype s => exact SubtypeIndication.desugared ok
  | waveformElement w => exact WaveformElement.desugared ok
  | waveform w => exact Waveform.desugared ok

/-- Writing every negative real as a minus before its magnitude leaves no sign bit in the tree and
the text as it was. -/
theorem text_desugar (x : Inline) (ok : x.passes .numeric = true) :
    x.desugar.passes .unsigned = true ∧ x.desugar.text = x.text := by
  obtain ⟨signs, same⟩ := x.desugared ok
  exact ⟨signs, by rw [text, text, same]⟩

theorem text_desugar_of_power :
    let zero := Literal.real ⟨0x8000000000000000⟩
    let one := Literal.real ⟨0xBFF0000000000000⟩
    let x := Inline.expr (.binary .power (.literal zero) (.unary .abs (.literal one)))
    x.passes .numeric = true ∧ x.desugar.text = x.text ∧ x.text = "(-0.0) ** (abs (-1.0))" := by
  intro zero one x
  have ok : x.passes .numeric = true := by decide
  exact ⟨ok, (text_desugar x ok).2, by decide +kernel⟩

end Inline

end Vhdl93
