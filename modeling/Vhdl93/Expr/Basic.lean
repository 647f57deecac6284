import Vhdl93.Ident
import Vhdl93.Literal
import Vhdl93.Operator

set_option autoImplicit false

namespace Vhdl93

inductive Suffix where
  | simple (ident : Ident)
  | all
  deriving DecidableEq

inductive Direction where
  | ascending | descending
  deriving DecidableEq

mutual

inductive Name where
  | simple (ident : Ident)
  | selected (base : Name) (suffix : Suffix)
  | indexed (base : Name) (indices : List Expr)
  | slice (base : Name) (range : Range)
  | attribute (base : Name) (designator : Ident) (argument : Option Expr)

inductive Range where
  | bounds (direction : Direction) (left right : Expr)
  | attribute (base : Name) (designator : Ident) (argument : Option Expr)

inductive Expr where
  | binary (op : BinaryOp) (left right : Expr)
  | unary (op : UnaryOp) (operand : Expr)
  | literal (value : Literal)
  | name (name : Name)
  | call (function : Name) (arguments : List Association)
  | aggregate (elements : List Element)

inductive Choice where
  | expr (value : Expr)
  | others

inductive Element where
  | positional (value : Expr)
  | named (choice : Choice) (value : Expr)

inductive Actual where
  | name (name : Name)
  | expr (value : Expr)
  | unconnected

inductive Association where
  | positional (actual : Actual)
  | named (formal : Ident) (actual : Actual)

end

def Expr.allOthers (value : Expr) : Expr := .aggregate [.named .others value]

end Vhdl93
