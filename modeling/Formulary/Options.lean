/-!
# Options

The tolerances and switches shared by the operations of an environment.
-/

namespace Formulary

/-- Tolerances and switches. -/
structure Options where
  /-- Literals may be negative. Otherwise a negative literal is written as a negation. -/
  negativeNumbers : Bool := true
  /-- The absolute tolerance, for equations and for values near zero. -/
  absoluteTolerance : Float := 1e-8
  /-- The relative tolerance for comparing two values. -/
  relativeTolerance : Float := 1e-4
  /-- Values that are not near zero are compared by relative error. -/
  relativeError : Bool := true
  /-- Formulas are flattened as soon as they are read. -/
  flattenOnReading : Bool := false
deriving DecidableEq

namespace Options

/-- Two values agree within the tolerances. The first one decides whether relative error counts. -/
def close (o : Options) (a b : Float) : Bool :=
  if !o.relativeError || a.abs < o.absoluteTolerance then (b - a).abs < o.absoluteTolerance
  else (b - a).abs / a.abs < o.relativeTolerance

/-- The order of two values; values that agree within the tolerances are equal. -/
def order (o : Options) (a b : Float) : Ordering :=
  if o.close a b then .eq
  else if a < b then .lt
  else .gt

end Options

end Formulary
