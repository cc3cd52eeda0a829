import Formulary.Double

/-!
# Decimals

A decimal is a whole number of units `10 ^ scale`. This module holds the type, its two layouts
(positional, and with an exponent after one leading digit), and the decade of a positive fraction,
which is what fixes the grid of decimals with a given number of digits around it.
-/

namespace Formulary

/-- The number `digits * 10 ^ scale`. -/
structure Decimal where
  digits : Nat
  scale : Int
deriving DecidableEq, Repr

namespace Decimal

/-- The decimal digits of a natural number, most significant first. -/
def digitChars (n : Nat) : List Char := Nat.toDigits 10 n

/-- The number of decimal digits of a natural number; zero has one. -/
def length (n : Nat) : Nat := (digitChars n).length

/--
The greatest `e` with `10 ^ e ≤ num / den`, for a positive fraction. Above one it counts the digits
of the whole part; below one it counts the digits of the inverse, rounded up and less one.
-/
def decade (num den : Nat) : Int :=
  if den ≤ num then (length (num / den) : Int) - 1
  else -(length ((den + num - 1) / num - 1) : Int)

/-- Drops the zeros at the end of a list of digits. -/
def dropTrailingZeros (cs : List Char) : List Char :=
  (cs.reverse.dropWhile (· == '0')).reverse

/-- The whole part and the fractional part of a decimal, as digits. -/
def split (d : Decimal) : List Char × List Char :=
  let cs := digitChars d.digits
  let places := (-d.scale).toNat
  if 0 ≤ d.scale then (cs ++ List.replicate d.scale.toNat '0', [])
  else if places < cs.length then (cs.take (cs.length - places), cs.drop (cs.length - places))
  else (['0'], List.replicate (places - cs.length) '0' ++ cs)

/-- The decimal written without an exponent: a fraction follows a point and has no zeros at its
end, and a whole number has no point. -/
def positional (d : Decimal) : String :=
  let (whole, fraction) := d.split
  match dropTrailingZeros fraction with
  | [] => String.ofList whole
  | fraction => String.ofList (whole ++ '.' :: fraction)

/-- The decimal written with its first digit before the point, all other digits after it, and the
exponent. -/
def scientific (d : Decimal) : String :=
  let cs := digitChars d.digits
  let exponent := d.scale + (cs.length : Int) - 1
  String.ofList (cs.take 1 ++ '.' :: cs.drop 1) ++ "e" ++ toString exponent

end Decimal

end Formulary
