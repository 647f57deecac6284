set_option autoImplicit false

namespace Vhdl93

inductive Tier where
  | logical | relational | shift | adding | sign | multiplying | miscellaneous
  deriving DecidableEq

inductive Associativity where
  | left
  deriving DecidableEq

namespace Tier

def all : List Tier := [logical, relational, shift, adding, sign, multiplying, miscellaneous]

def name : Tier → String
  | logical => "logical"
  | relational => "relational"
  | shift => "shift"
  | adding => "adding"
  | sign => "sign"
  | multiplying => "multiplying"
  | miscellaneous => "miscellaneous"

def precedence : Tier → Nat
  | logical => 2
  | relational => 3
  | shift => 4
  | adding => 5
  | sign => 6
  | multiplying => 7
  | miscellaneous => 8

def associativity (_ : Tier) : Associativity := .left

theorem mem_all (t : Tier) : t ∈ all := by cases t <;> decide

theorem precedence_inj {s t : Tier} (h : s.precedence = t.precedence) : s = t := by
  revert h
  cases s <;> cases t <;> decide

end Tier

def Associativity.name : Associativity → String
  | .left => "left"

inductive BinaryOp where
  | and | or | nand | nor | xor | xnor
  | equal | notEqual | less | lessEqual | greater | greaterEqual
  | sll | srl | sla | sra | rol | ror
  | plus | minus | concat
  | times | divide | mod | rem
  | power
  deriving DecidableEq

inductive UnaryOp where
  | plus | minus | abs | not
  deriving DecidableEq

namespace BinaryOp

def tier : BinaryOp → Tier
  | and | or | nand | nor | xor | xnor => .logical
  | equal | notEqual | less | lessEqual | greater | greaterEqual => .relational
  | sll | srl | sla | sra | rol | ror => .shift
  | plus | minus | concat => .adding
  | times | divide | mod | rem => .multiplying
  | power => .miscellaneous

def precedence (op : BinaryOp) : Nat := op.tier.precedence

def repeatable : BinaryOp → Bool
  | and | or | xor | xnor => true
  | _ => false

/-- Whether `x before y op z` may stand for `(x before y) op z`. -/
def chainsWith (op before : BinaryOp) : Bool :=
  op.tier = before.tier &&
    match op.tier with
    | .logical => op = before && op.repeatable
    | .adding | .multiplying => true
    | _ => false

end BinaryOp

namespace UnaryOp

def tier : UnaryOp → Tier
  | plus | minus => .sign
  | abs | not => .miscellaneous

def precedence (op : UnaryOp) : Nat := op.tier.precedence

end UnaryOp

end Vhdl93
