import Formulary.Decimal.Shortest
import Formulary.Decimal.Significant

/-!
# Writing doubles

Two texts of a double: the shortest one that reads back, written without an exponent, and one with
a fixed number of significant digits and an exponent. What is not a number, the infinities and the
two zeros are written in words of their own.
-/

namespace Formulary.Double

/-- Writes a double, given the text of a positive finite one from its significand and exponent. -/
def writeWith (positive : Nat → Int → String) (v : Float) : String :=
  if v.isNaN then "NaN"
  else
    let magnitude :=
      if v.isInf then "inf"
      else if v == 0 then "0"
      else positive (parts v).1 (parts v).2
    if signed v then "-" ++ magnitude else magnitude

/-- The shortest text that reads back as the double, without an exponent. -/
def write (v : Float) : String :=
  writeWith (fun m e => (Decimal.shortest m e).positional) v

/-- The double to a number of significant digits, one of them before the point, with an exponent.
Zero is written as a single digit. -/
def writeSignificant (count : Nat) (v : Float) : String :=
  writeWith (fun m e =>
    let (two, twoth) := Decimal.powerFraction 2 e
    (Decimal.significant (m * two) twoth count).scientific) v

end Formulary.Double
