import Vhdl93.Toml.Document

set_option autoImplicit false

namespace Vhdl93.Toml

def isInt64 (n : Int) : Bool := Int64.minValue.toInt ≤ n && n ≤ Int64.maxValue.toInt

def isFiniteFloat (digits : Nat) (exponent : Int) : Bool :=
  -- The bounds are generous; only numbers between them need the exact comparison.
  let length : Int := (Nat.toDigits 10 digits).length
  if digits = 0 || length + exponent < 300 then true
  else if 310 < length + exponent then false
  else digits * Nat.pow 10 exponent.toNat <
    (Nat.pow 2 1024 - Nat.pow 2 970) * Nat.pow 10 (-exponent).toNat

def Scalar.isLoadable : Scalar → Bool
  | .integer n => isInt64 n
  | .float digits exponent => isFiniteFloat digits.natAbs exponent
  | _ => true

/-- A table with this key in front of all others stands for the moment that the key holds. -/
def momentKey : String := "$__toml_private_datetime"

def Value.isMomentText : Value → Bool
  | .scalar (.string text) => isMoment text.toList
  | _ => false

def Entries.standsForMoment (es : Entries) : Bool := es.leastKey? (fun _ => true) = some momentKey

def Entries.isLoadableIf (es : Entries) (all : Bool) : Bool :=
  if es.standsForMoment then (es.get? momentKey).any Value.isMomentText else all

mutual

def Value.isLoadable : Value → Bool
  | .scalar s => s.isLoadable
  | .array values => Value.areLoadable values
  | .table _ es => Entries.isLoadableIf es (entriesLoadable es)
  | .tables earlier last =>
      tablesLoadable earlier && Entries.isLoadableIf last (entriesLoadable last)

def Value.areLoadable : List Value → Bool
  | [] => true
  | v :: vs => v.isLoadable && Value.areLoadable vs

def entriesLoadable : List (String × Value) → Bool
  | [] => true
  | (_, v) :: es => v.isLoadable && entriesLoadable es

def tablesLoadable : List (List (String × Value)) → Bool
  | [] => true
  | es :: rest => Entries.isLoadableIf es (entriesLoadable es) && tablesLoadable rest

end

-- The reader that runs. Statements about settings take any reader of documents in its place.
def load? (text : String) : Option Entries := do
  let table ← parse? text
  if entriesLoadable table then some table else none

end Vhdl93.Toml
