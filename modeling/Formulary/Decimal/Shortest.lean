import Formulary.Decimal

/-!
# The shortest decimal of a double

The reals that round to a double form an interval around it. The shortest decimal is taken from the
coarsest grid of decimals with a point inside that interval, and is the point nearest to the
double; of two equally near points the upper one is taken. All comparisons are between natural
numbers.
-/

namespace Formulary.Decimal

/--
A positive double and the interval that rounds to it, in units of a quarter of its last place:
`value` quarters, reached from `below` to `above`. The ends belong to the interval if `closed`.
-/
structure Rounding where
  value : Nat
  below : Nat
  above : Nat
  closed : Bool

namespace Rounding

/-- The rounding interval of a significand. The neighbour below a power of two is only half as far
away as the one above. -/
def ofSignificand (m : Nat) : Rounding where
  value := 4 * m
  below := if m = Double.implicitBit then 4 * m - 1 else 4 * m - 2
  above := 4 * m + 2
  closed := m % 2 = 0

/-- A multiple of the grid lies in the interval. The units `double`, a quarter of the last place,
and `grid`, one step of the decimal grid, are given on a common scale. -/
def admits (r : Rounding) (double grid : Nat) (c : Nat) : Bool :=
  if r.closed then r.below * double ≤ c * grid && c * grid ≤ r.above * double
  else r.below * double < c * grid && c * grid < r.above * double

/-- The multiple of the grid in the interval that is nearest to the value, if one of the two
multiples around the value is inside. -/
def nearest? (r : Rounding) (double grid : Nat) : Option Nat :=
  let c := r.value * double / grid
  match r.admits double grid c, r.admits double grid (c + 1) with
  | true, true => some (if 2 * (r.value * double - c * grid) < grid then c else c + 1)
  | true, false => some c
  | false, true => some (c + 1)
  | false, false => none

end Rounding

/-- The power `base ^ exponent` as a fraction. -/
def powerFraction (base : Nat) (exponent : Int) : Nat × Nat :=
  if 0 ≤ exponent then (Nat.pow base exponent.toNat, 1) else (1, Nat.pow base (-exponent).toNat)

/-- The decimal with `count` digits or fewer nearest to a double, if it reads back. -/
def withDigits? (m : Nat) (exponent : Int) (decade : Int) (count : Nat) : Option Decimal :=
  let scale := decade + 1 - count
  let (two, twoth) := powerFraction 2 (exponent - 2)
  let (ten, tenth) := powerFraction 10 scale
  ((Rounding.ofSignificand m).nearest? (two * tenth) (ten * twoth)).map (⟨·, scale⟩)

/-- Tries `count` digits, then one more, as long as `more` allows. -/
def searchDigits (m : Nat) (exponent decade : Int) : (more count : Nat) → Decimal
  | 0, _ => ⟨m, 0⟩
  | more + 1, count =>
    (withDigits? m exponent decade count).getD (searchDigits m exponent decade more (count + 1))

/-- The shortest decimal that reads back as the positive double `m * 2 ^ exponent`. Seventeen
digits always suffice. -/
def shortest (m : Nat) (exponent : Int) : Decimal :=
  let (two, twoth) := powerFraction 2 exponent
  searchDigits m exponent (decade (m * two) twoth) 17 1

end Formulary.Decimal
