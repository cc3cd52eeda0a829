import Formulary.Number
import Formulary.Decimal.Writing
import Formulary.Writing.Markup

/-!
# Writing numbers

Fractions are written exactly. A double is written to ten decimal places while its magnitude is
below `10 ^ 15`, and in full from there on; both zeros are written alike.
-/

namespace Formulary.Number

/-- The double that is written for a value: rounded to ten places where that is possible. -/
def tenPlaces (v : Float) : Float :=
  if v.abs < 1000000000000000 then Double.round (v * 10000000000) / 10000000000 else v

/-- The text of a double in a formula. -/
def writeDouble (v : Float) : String :=
  if v.isNaN then "NaN"
  else if v.isInf then if v < 0 then "-inf" else "inf"
  else if tenPlaces v == 0 then "0"
  else Double.write (tenPlaces v)

/-- The text of a number in a formula. -/
def write : Number → String
  | exact r => if r.den = 1 then toString r.num else toString r.num ++ "/" ++ toString r.den
  | real v => writeDouble v

/-- The number in TeX. -/
def tex : Number → String
  | exact r =>
    if r.den = 1 then toString r.num
    else
      let fraction := Tex.fraction (toString r.num.natAbs) (toString r.den)
      if r.num < 0 then "-" ++ fraction else fraction
  | real v =>
    if v.isNaN then Tex.upright "NaN"
    else if v.isInf then if v < 0 then "-\\infty" else "\\infty"
    else writeDouble v

/-- The number in content MathML. -/
def mathML (n : Number) : String := MathML.element "cn" n.write

end Formulary.Number
