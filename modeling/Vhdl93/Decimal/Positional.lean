set_option autoImplicit false

namespace Vhdl93.Decimal

def positional (digits : Nat) (exponent : Int) : String :=
  let cs := Nat.toDigits 10 digits
  match exponent with
  | .ofNat n => String.ofList (cs ++ List.replicate n '0' ++ ['.', '0'])
  | .negSucc n =>
      let padded := List.replicate (n + 2 - cs.length) '0' ++ cs
      let whole := padded.length - (n + 1)
      String.ofList (padded.take whole ++ '.' :: padded.drop whole)

end Vhdl93.Decimal
