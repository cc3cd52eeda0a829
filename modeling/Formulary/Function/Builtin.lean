import Formulary.Double

/-!
# Values of the builtin functions

The value of a builtin function at a double, if the double is in its domain.
-/

namespace Formulary.Builtin

/-- The circle constant. -/
def pi : Float := 3.141592653589793

/-- Half of the circle constant. -/
def halfPi : Float := 1.5707963267948966

/-- Euler's number. -/
def e : Float := 2.718281828459045

/-- The decimal logarithm of Euler's number. -/
def log10e : Float := 0.4342944819032518

/-- The value of a builtin function, if the argument is in its domain. The arccotangent is
continuous on the whole line, with values between zero and the circle constant. -/
def value? (function : String) (x : Float) : Option Float :=
  match function with
  | "sin" => some x.sin
  | "cos" => some x.cos
  | "tan" => some x.tan
  | "csc" => some (1 / x.sin)
  | "sec" => some (1 / x.cos)
  | "cot" => some (1 / x.tan)
  | "arcsin" => if x.abs > 1 then none else some x.asin
  | "arccos" => if x.abs > 1 then none else some x.acos
  | "arctan" => some x.atan
  | "arccsc" => if x.abs < 1 then none else some (1 / x).asin
  | "arcsec" => if x.abs < 1 then none else some (1 / x).acos
  | "arccot" => some (halfPi - x.atan)
  | "sqrt" => if x < 0 then none else some x.sqrt
  | "abs" => some x.abs
  | "exp" | "expb" => some x.exp
  | "ln" => if x ≤ 0 then none else some x.log
  | "log10" => if x ≤ 0 then none else some (log10e * x.log)
  | _ => none

end Formulary.Builtin
