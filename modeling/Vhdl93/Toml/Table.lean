import Vhdl93.Toml.Scalar

set_option autoImplicit false

/-!
Tables of a TOML document and the ways in which they grow. How a table came to be decides what may
still be added to it: a header may open a table only once, and a dotted key may not add to a table
that a header has opened.
-/

namespace Vhdl93.Toml

inductive Origin where
  | header
  | implied
  | dotted
  | braces
  deriving DecidableEq

inductive Value where
  | scalar (value : Scalar)
  | array (items : List Value)
  | table (origin : Origin) (entries : List (String × Value))
  | tables (earlier : List (List (String × Value))) (last : List (String × Value))

abbrev Entries := List (String × Value)

namespace Entries

def get? (key : String) : Entries → Option Value
  | [] => none
  | (k, v) :: es => if k = key then some v else get? key es

def set (key : String) (value : Value) : Entries → Entries
  | [] => [(key, value)]
  | (k, v) :: es => if k = key then (k, value) :: es else (k, v) :: set key value es

def keys (es : Entries) : List String := es.map Prod.fst

/-- The first key in the order of characters that `p` holds of. -/
def leastKey? (p : String → Bool) : Entries → Option String
  | [] => none
  | (key, _) :: es =>
      match leastKey? p es with
      | none => if p key then some key else none
      | some other => some (if p key && key < other then key else other)

def assign (value : Value) : List String → Entries → Option Entries
  | [], _ => none
  | [key], es =>
      match es.get? key with
      | none => some (es.set key value)
      | some _ => none
  | key :: path, es =>
      match es.get? key with
      | none => do
          let inner ← assign value path []
          return es.set key (.table .dotted inner)
      | some (.table origin inner) =>
          -- The table that takes the value must itself stem from a dotted key.
          if origin = .dotted ∨ (origin = .implied ∧ 1 < path.length) then do
            let inner ← assign value path inner
            return es.set key (.table origin inner)
          else none
      | some (.tables earlier last) =>
          if 1 < path.length then do
            let last ← assign value path last
            return es.set key (.tables earlier last)
          else none
      | some _ => none

def alter (change : Option Value → Option Value) : List String → Entries → Option Entries
  | [], _ => none
  | [key], es => do
      let value ← change (es.get? key)
      return es.set key value
  | key :: path, es =>
      match es.get? key with
      | none => do
          let inner ← alter change path []
          return es.set key (.table .implied inner)
      | some (.table origin inner) =>
          if origin = .braces then none
          else do
            let inner ← alter change path inner
            return es.set key (.table origin inner)
      | some (.tables earlier last) => do
          let last ← alter change path last
          return es.set key (.tables earlier last)
      | some _ => none

def openTable : Option Value → Option Value
  | none => some (.table .header [])
  | some (.table .implied es) => some (.table .header es)
  | some _ => none

def openNext : Option Value → Option Value
  | none => some (.tables [] [])
  | some (.tables earlier last) => some (.tables (earlier ++ [last]) [])
  | some _ => none

def assignIn (path : List String) (value : Value) : Option Value → Option Value
  | some (.table origin es) => (assign value path es).map (.table origin)
  | some (.tables earlier last) => (assign value path last).map (.tables earlier)
  | _ => none

end Entries

end Vhdl93.Toml
