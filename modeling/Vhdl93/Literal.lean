import Vhdl93.Binary64

set_option autoImplicit false

namespace Vhdl93

inductive Base where
  | binary | octal | hexadecimal
  deriving DecidableEq

def Base.text : Base → String
  | .binary => "B"
  | .octal => "O"
  | .hexadecimal => "X"

inductive Literal where
  | integer (value : Nat)
  | real (value : Binary64)
  | character (value : Char)
  | string (text : String)
  | bitString (base : Base) (digits : String)
  | null

def Literal.eqv : Literal → Literal → Bool
  | .integer m, .integer n => m = n
  | .real x, .real y => x == y
  | .character c, .character d => c = d
  | .string s, .string t => s = t
  | .bitString b s, .bitString c t => b = c && s = t
  | .null, .null => true
  | _, _ => false

instance : BEq Literal := ⟨Literal.eqv⟩

end Vhdl93
