set_option autoImplicit false

/-!
The fewest decimal digits that identify a number. A number is given with the interval of the numbers
that count as equal to it, all in units of one power of ten. The grid of exponent `i` holds the
multiples of `10 ^ i`. The coarsest grid with a point in the interval wins, and on it the nearer of
the two points around the number; half way goes to the upper one.
-/

namespace Vhdl93.Decimal

/-- A number with the interval around it. The ends belong to the interval if `closed` holds. -/
structure Span where
  low : Nat
  value : Nat
  high : Nat
  closed : Bool

namespace Span

def contains (s : Span) (n : Nat) : Bool :=
  if s.closed then s.low ≤ n && n ≤ s.high else s.low < n && n < s.high

def onGrid (s : Span) (i : Nat) : Option Nat :=
  let unit := Nat.pow 10 i
  let below := s.value / unit
  let lower := s.contains (below * unit)
  let upper := s.contains ((below + 1) * unit)
  if lower && (!upper || 2 * (s.value % unit) < unit) then some below
  else if upper then some (below + 1)
  else none

theorem contains_of_onGrid {s : Span} {i digits : Nat} (chosen : s.onGrid i = some digits) :
    s.contains (digits * Nat.pow 10 i) = true := by
  simp only [onGrid] at chosen
  split at chosen
  · next lower =>
    cases chosen
    simp_all
  · split at chosen
    · next upper =>
      cases chosen
      exact upper
    · cases chosen

/-- The coarsest grid of exponent at most `i` with a point in the interval, and the digits chosen on
it. The grid of exponent zero holds the number itself. -/
def search (s : Span) : Nat → Nat × Nat
  | 0 => (s.value, 0)
  | i + 1 =>
      match s.onGrid (i + 1) with
      | some digits => (digits, i + 1)
      | none => s.search i

theorem contains_search (s : Span) (own : s.contains s.value = true) (i : Nat) :
    s.contains ((s.search i).1 * Nat.pow 10 (s.search i).2) = true := by
  induction i with
  | zero => simpa [search] using own
  | succ i ih =>
    rw [search]
    cases chosen : s.onGrid (i + 1) with
    | some digits => exact contains_of_onGrid chosen
    | none => exact ih

def shortest (s : Span) : Nat × Nat :=
  -- A power of ten with one more digit than the upper end lies outside the interval.
  s.search (Nat.toDigits 10 s.high).length

end Span

end Vhdl93.Decimal
