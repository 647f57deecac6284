import Vhdl93.Expr.Parens
import Vhdl93.Token

set_option autoImplicit false

namespace Vhdl93

def Suffix.pieces : Suffix → Pieces
  | .simple i => [.ident i]
  | .all => [.keyword "all"]

def Direction.text : Direction → String
  | .ascending => "to"
  | .descending => "downto"

def Pieces.operand (parens : Bool) (ps : Pieces) : Pieces :=
  if parens then ps.parenthesized else ps

def Pieces.arguments (items : List Pieces) : Pieces :=
  if items.isEmpty then [] else (Pieces.commaSeparated items).parenthesized

mutual

def Name.pieces : Name → Pieces
  | .simple i => [.ident i]
  | .selected base suffix => base.pieces ++ .symbol .dot :: suffix.pieces
  | .indexed base es => base.pieces ++ (Pieces.commaSeparated (Expr.piecesAll es)).parenthesized
  | .slice base range => base.pieces ++ range.pieces.parenthesized
  | .attribute base i e => base.pieces ++ .symbol .tick :: .ident i :: Expr.argumentPieces e

def Range.pieces : Range → Pieces
  | .bounds d l r => l.pieces ++ .blank :: .keyword d.text :: .blank :: r.pieces
  | .attribute base i e => base.pieces ++ .symbol .tick :: .ident i :: Expr.argumentPieces e

def Expr.pieces : Expr → Pieces
  | .binary op l r =>
      l.pieces.operand (op.parenthesizesLeft l) ++
        .blank :: .token op.token :: .blank :: r.pieces.operand (op.parenthesizesRight r)
  | .unary op e => op.pieces ++ e.pieces.operand (op.parenthesizes e)
  | .literal x => x.pieces
  | .name n => n.pieces
  | .call n as => n.pieces ++ Pieces.arguments (Association.piecesAll as)
  | .aggregate es => (Pieces.commaSeparated (Element.piecesAll es)).parenthesized

def Choice.pieces : Choice → Pieces
  | .expr e => e.pieces
  | .others => [.keyword "others"]

def Element.pieces : Element → Pieces
  | .positional e => e.pieces
  | .named c e => c.pieces ++ .blank :: .symbol .arrow :: .blank :: e.pieces

def Actual.pieces : Actual → Pieces
  | .name n => n.pieces
  | .expr e => e.pieces
  | .unconnected => [.keyword "open"]

def Association.pieces : Association → Pieces
  | .positional a => a.pieces
  | .named i a => .ident i :: .blank :: .symbol .arrow :: .blank :: a.pieces

def Expr.argumentPieces : Option Expr → Pieces
  | none => []
  | some e => e.pieces.parenthesized

def Expr.piecesAll : List Expr → List Pieces
  | [] => []
  | e :: es => e.pieces :: Expr.piecesAll es

def Element.piecesAll : List Element → List Pieces
  | [] => []
  | e :: es => e.pieces :: Element.piecesAll es

def Association.piecesAll : List Association → List Pieces
  | [] => []
  | a :: as => a.pieces :: Association.piecesAll as

end

@[simp] theorem Expr.piecesAll_eq_map (es : List Expr) :
    Expr.piecesAll es = es.map Expr.pieces := by
  induction es with
  | nil => rfl
  | cons e es ih => simp [Expr.piecesAll, ih]

@[simp] theorem Element.piecesAll_eq_map (es : List Element) :
    Element.piecesAll es = es.map Element.pieces := by
  induction es with
  | nil => rfl
  | cons e es ih => simp [Element.piecesAll, ih]

@[simp] theorem Association.piecesAll_eq_map (as : List Association) :
    Association.piecesAll as = as.map Association.pieces := by
  induction as with
  | nil => rfl
  | cons a as ih => simp [Association.piecesAll, ih]

def Suffix.text (s : Suffix) : String := s.pieces.text
def Literal.text (x : Literal) : String := x.pieces.text
def Name.text (n : Name) : String := n.pieces.text
def Range.text (r : Range) : String := r.pieces.text
def Expr.text (e : Expr) : String := e.pieces.text
def Choice.text (c : Choice) : String := c.pieces.text
def Element.text (e : Element) : String := e.pieces.text
def Actual.text (a : Actual) : String := a.pieces.text
def Association.text (a : Association) : String := a.pieces.text

end Vhdl93
