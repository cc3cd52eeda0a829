import Formulary.Word

/-!
# Doubles, integers and rounding

Conversions between 64-bit floating-point numbers and integers, and rounding to whole numbers.
Everything is built from the operations that have a model in the logic (arithmetic, comparison and
the conversions of unsigned words), so the results can be computed inside proofs as well as run.

From `2 ^ 52` on every double is whole, which is why the functions below leave large values alone.
-/

namespace Formulary.Double

/-- The double that is not a number. -/
def nan : Float := 0 / 0

/-- Positive infinity. -/
def infinity : Float := 1 / 0

/-- The double nearest to a signed 64-bit integer, ties to even. -/
def ofInt (n : Int) : Float :=
  if n < 0 then -n.natAbs.toUInt64.toFloat else n.natAbs.toUInt64.toFloat

/-- The whole part of a double as a signed 64-bit integer. Values out of range saturate, and what
is not a number counts as zero. -/
def toInt (v : Float) : Int :=
  if v < 0 then max Word.least (-((-v).toUInt64.toNat : Int))
  else min Word.greatest (v.toUInt64.toNat : Int)

/-- Every whole double of at least this magnitude, `2 ^ 52`, is its own rounding. -/
def wholeFrom : Float := 4503599627370496

/-- The whole part of a double. -/
def truncate (v : Float) : Float :=
  if v.abs < wholeFrom then ofInt (toInt v) else v

/-- The double is finite and has no fractional part. -/
def isWhole (v : Float) : Bool := v - truncate v == 0

/-- The greatest whole double that is not above a double. -/
def floor (v : Float) : Float :=
  let t := truncate v
  if v < t then t - 1 else t

/-- The nearest whole double; a half goes away from zero, and zero keeps the sign of the value. -/
def round (v : Float) : Float :=
  if v == 0 then v
  else if v.abs < wholeFrom then
    let t := truncate v.abs
    let r := if v.abs - t < 0.5 then t else t + 1
    if v < 0 then -r else r
  else v

/--
A double raised to an integer power by repeated squaring. The exponent counts down by halves, so
`bits` is any bound on its length in binary.
-/
def squaring (bits : Nat) (base result : Float) (exponent : Nat) : Float :=
  match bits with
  | 0 => result
  | bits + 1 =>
    let result := if exponent % 2 = 1 then result * base else result
    if exponent / 2 = 0 then result else squaring bits (base * base) result (exponent / 2)

/-- A double raised to an integer power. -/
def powInt (base : Float) (exponent : Int) : Float :=
  let power := squaring 64 base 1 exponent.natAbs
  if exponent < 0 then 1 / power else power

/-- The leading bit of the significand of a normal double, `2 ^ 52`. It is not stored. -/
def implicitBit : Nat := 4503599627370496

/-- How many exponents the bits of a double can tell apart. -/
def exponents : Nat := 2048

/-- The significand and exponent of the magnitude of a finite double: it is
`significand * 2 ^ exponent`. -/
def parts (v : Float) : Nat × Int :=
  let bits := v.toBits.toNat
  let exponent : Nat := bits / implicitBit % exponents
  let fraction : Nat := bits % implicitBit
  if exponent = 0 then (fraction, -1074) else (fraction + implicitBit, (exponent : Int) - 1075)

/-- The sign bit of a double is set; negative zero counts. -/
def signed (v : Float) : Bool := UInt64.size / 2 ≤ v.toBits.toNat

theorem fits_toInt (v : Float) : Word.Fits (toInt v) := by
  unfold toInt Word.Fits Word.least Word.greatest
  split <;> omega

end Formulary.Double
