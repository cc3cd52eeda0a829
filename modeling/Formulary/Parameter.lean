import Formulary.Random

/-!
# Parameters

A parameter is a number with a name. How its value is chosen is a `Parameter`: at random from evenly
spaced values, by a formula, or as a fixed number.

The evenly spaced values are counted on words, and nobody checks that the count is one. A draw from
more values than that traps.
-/

namespace Formulary

open Word (Trap)

/-- How the value of a parameter is chosen. -/
inductive Parameter.Choice where
  /-- One of `least`, `least + step`, `least + 2 step` and so on up to `greatest`. If zero is not
  allowed, values within the tolerance of zero are drawn again. -/
  | random (least greatest step : Float) (nonzero : Bool)
  /-- The value of a constant formula. -/
  | formula (source : String)
  /-- An exact fraction. -/
  | fraction (numerator denominator : Int)
  /-- A fixed value. -/
  | fixed (value : Float)
deriving DecidableEq

/-- The definition of a parameter. -/
structure Parameter where
  /-- How the value is chosen. -/
  choice : Parameter.Choice
  /-- The precision the value is rounded to. -/
  precision : Option Float := none
deriving DecidableEq

namespace Parameter

/-- A value rounded to a multiple of a precision. -/
def roundTo (precision value : Float) : Float :=
  Double.round (value / precision) / Double.round (1 / precision)

/-- A number rounded to a precision, if there is one. -/
def round (precision : Option Float) (n : Number) : Number :=
  match precision with
  | some p => .ofDouble (roundTo p n.value)
  | none => n

/-- How many evenly spaced values there are from one value to another. The number of steps is cut to
a word, which saturates, and the sum is not checked. -/
def count (least greatest step : Float) : Except Trap Int :=
  Word.sum (Double.toInt (Double.floor ((greatest - least) / step))) 1

/-- Draws one of some evenly spaced values. -/
def drawOnce (count : Int) (least step : Float) (r : Random) : Except Trap (Float × Random) := do
  let last ← Word.difference count 1
  let (n, r) := r.between 0 last
  return (least + step * Double.ofInt n, r)

/-- Draws one of some evenly spaced values, and again while the value is not wanted, at most so many
times again. -/
def drawWanted (count : Int) (least step : Float) (wanted : Float → Bool) :
    (again : Nat) → Random → Except Trap (Float × Random)
  | 0, r => drawOnce count least step r
  | again + 1, r => do
    let (v, r) ← drawOnce count least step r
    if wanted v then return (v, r) else drawWanted count least step wanted again r

/-- How many values are drawn at most. -/
def drawLimit : Nat := 1000

/-- The value may be drawn. Without zero, values within a tolerance of zero are not wanted. -/
def wanted (tolerance : Float) (nonzero : Bool) (v : Float) : Bool :=
  !(nonzero && v.abs < tolerance)

/-- Draws the value of a random parameter. -/
def draw (tolerance least greatest step : Float) (nonzero : Bool) (r : Random) :
    Except Trap (Float × Random) := do
  let count ← count least greatest step
  drawWanted count least step (wanted tolerance nonzero) (drawLimit - 1) r

end Parameter

end Formulary
