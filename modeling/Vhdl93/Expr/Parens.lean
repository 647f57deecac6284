import Vhdl93.Expr.Basic

set_option autoImplicit false

namespace Vhdl93

/-- The operator that an operand starts with: its own unary operator, or the minus of a real with
the sign bit set. -/
def Expr.leadingOp? : Expr → Option UnaryOp
  | .unary op _ => some op
  | .literal (.real x) => if x.negative then some .minus else none
  | _ => none

def BinaryOp.parenthesizesLeft (op : BinaryOp) : Expr → Bool
  | .binary inner _ _ =>
      inner.precedence < op.precedence ||
        (inner.precedence = op.precedence && !op.chainsWith inner)
  | e => e.leadingOp?.any fun inner => inner.precedence ≤ op.precedence

def BinaryOp.parenthesizesRight (op : BinaryOp) : Expr → Bool
  | .binary inner _ _ => inner.precedence ≤ op.precedence
  | e => e.leadingOp?.any fun inner =>
      match inner.tier with
      -- A sign may only start a simple expression, so it follows no adding operator.
      | .sign => Tier.adding.precedence ≤ op.precedence
      | tier => tier.precedence ≤ op.precedence

def UnaryOp.parenthesizes (op : UnaryOp) : Expr → Bool
  | .binary inner _ _ => op.tier ≠ .sign || inner.precedence ≤ op.precedence
  | e => e.leadingOp?.any fun inner => op.tier ≠ .sign || inner.precedence ≤ op.precedence

end Vhdl93
