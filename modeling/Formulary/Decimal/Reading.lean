import Formulary.Decimal

/-!
# Reading decimals

A decimal is digits with an optional point among them, at least one digit in all, and an optional
exponent. The double nearest to it is infinite beyond the range of doubles and zero below it.
-/

namespace Formulary.Decimal

/-- The natural number written by a list of digits. -/
def natOfDigits (cs : List Char) : Nat :=
  cs.foldl (fun n c => 10 * n + (c.toNat - '0'.toNat)) 0

/-- Reads an exponent, a non-empty list of digits after an optional sign. -/
def exponent? (cs : List Char) : Option Int :=
  let magnitude (cs : List Char) : Option Int :=
    if cs.isEmpty || !cs.all Char.isDigit then none else some (natOfDigits cs)
  match cs with
  | '-' :: cs => (magnitude cs).map (-·)
  | '+' :: cs => magnitude cs
  | cs => magnitude cs

/-- Reads an unsigned decimal. -/
def read? (cs : List Char) : Option Decimal :=
  let whole := cs.takeWhile Char.isDigit
  let rest := cs.dropWhile Char.isDigit
  let (fraction, rest) :=
    match rest with
    | '.' :: rest => (rest.takeWhile Char.isDigit, rest.dropWhile Char.isDigit)
    | rest => ([], rest)
  let digits := whole ++ fraction
  if digits.isEmpty then none
  else
    match rest with
    | [] => some ⟨natOfDigits digits, -(fraction.length : Int)⟩
    | 'e' :: rest | 'E' :: rest =>
      (exponent? rest).map fun e => ⟨natOfDigits digits, e - (fraction.length : Int)⟩
    | _ => none

/-- The double nearest to a decimal. Far outside the range of doubles the answer is known without
forming a power of ten. -/
def toDouble (d : Decimal) : Float :=
  let order := (length d.digits : Int) + d.scale
  if d.digits = 0 || order < -330 then 0
  else if 310 < order then Double.infinity
  else if 0 ≤ d.scale then Float.ofScientific (d.digits * Nat.pow 10 d.scale.toNat) false 0
  else Float.ofScientific d.digits true (-d.scale).toNat

end Formulary.Decimal

namespace Formulary.Double

/-- Reads an unsigned double: a decimal, `NaN` or `inf`. -/
def readUnsigned? (cs : List Char) : Option Float :=
  match String.ofList cs with
  | "NaN" => some nan
  | "inf" => some infinity
  | _ => (Decimal.read? cs).map Decimal.toDouble

/-- Reads a double with an optional sign. -/
def read? (text : String) : Option Float :=
  match text.toList with
  | '-' :: cs => (readUnsigned? cs).map (-·)
  | '+' :: cs => readUnsigned? cs
  | cs => readUnsigned? cs

end Formulary.Double
