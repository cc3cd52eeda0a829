import Formulary.Double

/-!
# Numbers

A number is an exact fraction or a double. Arithmetic on two fractions stays exact as long as the
integers it forms fit into signed 64-bit words; otherwise, and as soon as a double takes part, it
is done on doubles. Division by zero gives the double that is not a number.

The fractions are kept in lowest terms by `Rat`; `Number.Fits` adds that both parts are 64-bit
words. `Number.value` is the double a number stands for, and the tests `isZero`, `isOne` and
`isNegative` look at that double.
-/

namespace Formulary

/-- An exact fraction or a double. -/
inductive Number where
  | exact (fraction : Rat)
  | real (double : Float)
deriving DecidableEq

namespace Number

/-- An exact number has a 64-bit numerator and denominator. -/
def Fits : Number → Prop
  | exact r => Word.Fits r.num ∧ Word.Fits r.den
  | real _ => True

/-- The number that stands for an undefined result. -/
def undefined : Number := real Double.nan

/-- The exact integer. -/
def ofInt (n : Int) : Number := exact (n : Rat)

instance (n : Nat) : OfNat Number n := ⟨ofInt n⟩

instance : Inhabited Number := ⟨0⟩

/--
The fraction of two 64-bit integers. A zero denominator gives an undefined number. A negative
denominator passes its sign to the numerator; where a sign cannot be flipped within 64 bits the
quotient is taken on doubles.
-/
def ofRatio (p q : Int) : Number :=
  if q = 0 then undefined
  else if p = 0 then 0
  else if q < 0 ∧ (p = Word.least ∨ q = Word.least) then
    real (Double.ofInt p / Double.ofInt q)
  else exact (Rat.divInt p q)

/-- The number as a double, made exact again if it is a whole number below `9 * 10 ^ 15`. -/
def ofDouble (v : Float) : Number :=
  if Double.isWhole v && v.abs < 9000000000000000 then ofInt (Double.toInt v) else real v

/-- The double a number stands for. -/
def value : Number → Float
  | exact r => Double.ofInt r.num / Double.ofInt r.den
  | real v => v

/-- The number is an exact fraction. -/
def isExact : Number → Bool
  | exact _ => true
  | real _ => false

/-- The number is an exact integer. -/
def isInteger : Number → Bool
  | exact r => r.den == 1
  | real _ => false

/-- The value of the number is zero. -/
def isZero (n : Number) : Bool := n.value == 0

/-- The value of the number is one. -/
def isOne (n : Number) : Bool := n.value == 1

/-- The value of the number is below zero. -/
def isNegative (n : Number) : Bool := n.value < 0

/-- The value of the number is not a number. -/
def isNaN (n : Number) : Bool := n.value.isNaN

/-- Two numbers are the same: fractions are compared exactly, anything else by value. -/
def same : Number → Number → Bool
  | exact r, exact s => r == s
  | m, n => m.value == n.value

/-- The number with the opposite sign. -/
def neg : Number → Number
  | exact r =>
    match Word.checked (-r.num) with
    | some _ => exact (-r)
    | none => real (-Double.ofInt r.num / Double.ofInt r.den)
  | real v => real (-v)

/-- One divided by the number; undefined for zero. -/
def inverse : Number → Number
  | exact r => if r.num = 0 then undefined else ofRatio r.den r.num
  | real v => if v == 0 then undefined else real (1 / v)

/-- The fraction of two integers that were formed within 64 bits, or a double if they were not. -/
def ofParts (numerator denominator : Option Int) (double : Float) : Number :=
  match numerator, denominator with
  | some p, some q => ofRatio p q
  | _, _ => real double

/-- The sum of two numbers. -/
def add : Number → Number → Number
  | exact r, exact s =>
    ofParts
      (do Word.checked ((← Word.checked (r.num * s.den)) + (← Word.checked (s.num * r.den))))
      (Word.checked (r.den * s.den))
      ((exact r).value + (exact s).value)
  | m, n => real (m.value + n.value)

/-- The difference of two numbers. -/
def sub : Number → Number → Number
  | exact r, exact s =>
    ofParts
      (do Word.checked ((← Word.checked (r.num * s.den)) - (← Word.checked (s.num * r.den))))
      (Word.checked (r.den * s.den))
      ((exact r).value - (exact s).value)
  | m, n => real (m.value - n.value)

/-- The product of two numbers. -/
def mul : Number → Number → Number
  | exact r, exact s =>
    ofParts (Word.checked (r.num * s.num)) (Word.checked (r.den * s.den))
      ((exact r).value * (exact s).value)
  | m, n => real (m.value * n.value)

/-- The quotient of two numbers; undefined for a zero divisor. -/
def div (m n : Number) : Number :=
  if n.isZero then undefined
  else
    match m, n with
    | exact r, exact s =>
      ofParts (Word.checked (r.num * s.den)) (Word.checked (r.den * s.num))
        ((exact r).value / (exact s).value)
    | m, n => real (m.value / n.value)

instance : Neg Number := ⟨neg⟩
instance : Add Number := ⟨add⟩
instance : Sub Number := ⟨sub⟩
instance : Mul Number := ⟨mul⟩
instance : Div Number := ⟨div⟩

/-- A natural power of a number, exact if the exponent is a 32-bit word and both parts of the power
fit. -/
def powNat (n : Number) (exponent : Nat) : Number :=
  let double := real (n.value.pow (Double.ofInt exponent))
  match n with
  | exact r =>
    if exponent < UInt32.size then
      match Word.power? r.num exponent, Word.power? r.den exponent with
      | some p, some q => ofRatio p q
      | _, _ => double
    else double
  | real _ => double

/-- An integer power of a number. A negative power of zero does not exist, nor does one whose
exponent cannot be negated within 64 bits. -/
def pow? (n : Number) (exponent : Int) : Option Number :=
  if 0 ≤ exponent then some (n.powNat exponent.toNat)
  else if n.isZero then none
  else (Word.checked (-exponent)).map fun e => n.inverse.powNat e.toNat

end Number

end Formulary
