import Vhdl93.Expr.Equality
import Vhdl93.Expr.Pieces

set_option autoImplicit false

namespace Vhdl93

inductive Constraint where
  | range (range : Range)
  | index (ranges : List Range)

structure SubtypeIndication where
  mark : Ident
  constraint : Option Constraint

def Constraint.eqv : Constraint → Constraint → Bool
  | .range r, .range s => r == s
  | .index rs, .index ss => rs == ss
  | _, _ => false

instance : BEq Constraint := ⟨Constraint.eqv⟩

def SubtypeIndication.eqv (s t : SubtypeIndication) : Bool :=
  s.mark = t.mark && s.constraint == t.constraint

instance : BEq SubtypeIndication := ⟨SubtypeIndication.eqv⟩

def Range.indexPieces (rs : List Range) : Pieces :=
  (Pieces.commaSeparated (rs.map Range.pieces)).parenthesized

def Constraint.pieces : Constraint → Pieces
  | .range r => .blank :: .keyword "range" :: .blank :: r.pieces
  | .index rs => Range.indexPieces rs

def SubtypeIndication.pieces (s : SubtypeIndication) : Pieces :=
  .ident s.mark :: (s.constraint.map Constraint.pieces).getD []

def Constraint.text (c : Constraint) : String := c.pieces.text
def SubtypeIndication.text (s : SubtypeIndication) : String := s.pieces.text

end Vhdl93
