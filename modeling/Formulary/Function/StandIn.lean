import Formulary.Expr.Equality
import Formulary.Expr.Names
import Formulary.Function.Builtin
import Formulary.Random

/-!
# Stand-ins for functions without a definition

A stand-in is a random trigonometric polynomial `c + c1 sin(x) + c2 sin(2x) + ...`. It can be
differentiated as often as needed, and two functions with different stand-ins are told apart by
their values.
-/

namespace Formulary

/-- The polynomial with a constant term and the coefficients of `sin(x)`, `sin(2x)`, and so on. -/
structure StandIn where
  constant : Number
  coefficients : List Number
deriving DecidableEq

namespace StandIn

/-- How many sine terms a stand-in has. -/
def terms : Nat := 6

/-- Draws some coefficients. -/
def drawCoefficients : (count : Nat) → Random → List Number × Random
  | 0, r => ([], r)
  | count + 1, r =>
    let (c, r) := r.fraction (-20, 20) (1, 10)
    let (cs, r) := drawCoefficients count r
    (c :: cs, r)

/-- Draws a stand-in. -/
def draw (r : Random) : StandIn × Random :=
  let (constant, r) := r.fraction (-20, 20) (1, 15)
  let (coefficients, r) := drawCoefficients terms r
  (⟨constant, coefficients⟩, r)

/-- Adds the derivatives of `c sin(k x)` for the coefficients `c` from multiple `k` on. The
derivative of order `n` is `c k^n sin(k x + n pi / 2)`; the exponent is kept in 32 bits. -/
def sumFrom (order : Nat) (x : Float) : (multiple : Nat) → (sum : Float) → List Number → Float
  | _, sum, [] => sum
  | multiple, sum, c :: cs =>
    let k := Double.ofInt multiple
    let power := Double.powInt k (Int.bmod order UInt32.size)
    let shift := Double.ofInt order * Builtin.halfPi
    sumFrom order x (multiple + 1) (sum + c.value * power * (k * x + shift).sin) cs

/-- The value of a derivative of the stand-in. -/
def value (s : StandIn) (order : Nat) (x : Float) : Float :=
  sumFrom order x 1 (if order = 0 then s.constant.value else 0) s.coefficients

/-- Adds the terms `c sin(k * input)` to an expression, for the coefficients `c` from multiple `k`
on. -/
def formulaFrom (input : String) : (multiple : Nat) → (sum : Expr) → List Number → Expr
  | _, sum, [] => sum
  | multiple, sum, c :: cs =>
    let sine := Expr.call "sin" 0 (.binary .mul (.ofInt multiple) (.var input))
    formulaFrom input (multiple + 1) (.binary .add sum (.binary .mul (.number c) sine)) cs

/-- The stand-in as a formula in an input. -/
def formula (s : StandIn) (input : String) : Expr :=
  formulaFrom input 1 (.number s.constant) s.coefficients

end StandIn

end Formulary
