import Formulary.Expr.Equality
import Formulary.Expr.Names
import Formulary.Scope

/-!
# Rules of differentiation

The derivative of each operation, put together from its operands and their derivatives. Sums leave
out what is clearly zero, products leave out what is clearly one and collapse as soon as a factor is
clearly zero, so that derivatives stay readable without being simplified afterwards.

`vanishes` and `isUnit` look at the shape of an expression only: they answer yes where the value is
clear, not everywhere it is zero or one.
-/

namespace Formulary.Derivative

/-! ## Expressions that are clearly zero or one -/

mutual

/-- The expression is clearly zero. -/
def vanishes : Expr → Bool
  | .number n => n.isZero
  | .unary .recip _ => false
  | .unary _ operand => vanishes operand
  | .nary .sum operands => allVanish operands
  | .nary .product operands => anyVanishes operands
  | .binary .mul lhs rhs => vanishes lhs || vanishes rhs
  | _ => false

/-- All of the expressions are clearly zero. -/
def allVanish : List Expr → Bool
  | [] => true
  | e :: es => vanishes e && allVanish es

/-- One of the expressions is clearly zero. -/
def anyVanishes : List Expr → Bool
  | [] => false
  | e :: es => vanishes e || anyVanishes es

end

mutual

/-- The expression is clearly one. -/
def isUnit : Expr → Bool
  | .number n => n.isOne
  | .nary .product operands => allUnits operands
  | _ => false

/-- All of the expressions are clearly one. -/
def allUnits : List Expr → Bool
  | [] => true
  | e :: es => isUnit e && allUnits es

end

/-! ## Operations that leave out what makes no difference -/

/-- The product of some factors. -/
def product (factors : List Expr) : Expr :=
  if factors.any vanishes then .ofInt 0
  else
    match factors.filter (!isUnit ·) with
    | [] => .ofInt 1
    | [e] => e
    | es => .nary .product es

/-- The sum of some terms. -/
def sum (terms : List Expr) : Expr :=
  match terms.filter (!vanishes ·) with
  | [] => .ofInt 0
  | [e] => e
  | es => .nary .sum es

/-- The negation of an expression. -/
def negate (e : Expr) : Expr :=
  if vanishes e then .ofInt 0
  else
    match e with
    | .number n => .number (-n)
    | .unary .neg operand => operand
    | e => .unary .neg e

/-- The difference of two expressions. -/
def difference (lhs rhs : Expr) : Expr :=
  if vanishes rhs then lhs
  else if vanishes lhs then negate rhs
  else .binary .sub lhs rhs

/-- The quotient of two expressions. -/
def quotient (numerator denominator : Expr) : Expr :=
  if vanishes numerator then .ofInt 0
  else if isUnit denominator then numerator
  else .binary .div numerator denominator

/-- A power with an exponent that may be zero or one. -/
def power (base exponent : Expr) : Expr :=
  match exponent with
  | .number n =>
    if n.isZero then .ofInt 1
    else if n.isOne then base
    else .binary .pow base exponent
  | exponent => .binary .pow base exponent

/-- The square of an expression. -/
def square (e : Expr) : Expr := power e (.ofInt 2)

/-! ## What does not change -/

/-- The expression cannot change with a name: all its free names are known constants other than
that name. -/
def independent (x : String) (known : Scope) (e : Expr) : Bool :=
  !e.isInvalid && e.occurrences.all fun name => name != x && known.contains name

/-! ## Operators -/

/-- An expression together with its derivative. -/
structure Slope where
  value : Expr
  slope : Expr

/-- The derivative of a unary operation. -/
def unary (op : UnaryOp) (u : Slope) : Expr :=
  match op with
  | .plus => u.slope
  | .neg => negate u.slope
  | .recip => negate (quotient u.slope (.binary .mul u.value u.value))

/-- The terms of the derivative of a product: each factor in turn is replaced by its derivative. -/
def productTerms (before : List Expr) : List Slope → List Expr
  | [] => []
  | u :: us =>
    product (before ++ u.slope :: us.map Slope.value) :: productTerms (before ++ [u.value]) us

/-- The derivative of an n-ary operation. -/
def nary (op : Family) (us : List Slope) : Expr :=
  match op with
  | .sum => sum (us.map Slope.slope)
  | .product => sum (productTerms [] us)

/-- The derivative of a product of two expressions, of which either may be constant. -/
def mul (constant : Expr → Bool) (u v : Slope) : Expr :=
  if constant u.value then product [u.value, v.slope]
  else if constant v.value then product [u.slope, v.value]
  else nary .product [u, v]

/-- The derivative of a quotient of two expressions, of which either may be constant. -/
def div (constant : Expr → Bool) (u v : Slope) : Expr :=
  if constant v.value then quotient u.slope v.value
  else if constant u.value then negate (quotient (product [u.value, v.slope]) (square v.value))
  else
    quotient (difference (product [u.slope, v.value]) (product [u.value, v.slope]))
      (square v.value)

/-- The outer derivative of a call times the derivative of its argument, which is left out if the
argument is the name `x` itself. -/
def chain (x : String) (outer : Expr) (u : Slope) : Expr :=
  if u.value = .var x then product [outer] else product [outer, u.slope]

/-- The derivative of the natural logarithm of an expression. -/
def ln (x : String) (constant : Expr → Bool) (u : Slope) : Expr :=
  if constant (.call "ln" 0 u.value) then .ofInt 0
  else chain x (quotient (.ofInt 1) u.value) u

/-- The derivative of `u ^ v`. A changing exponent is differentiated as `exp (v * ln u)`. -/
def pow (x : String) (constant : Expr → Bool) (u v : Slope) : Expr :=
  if constant v.value then
    let reduced :=
      match v.value with
      | .number n => .number (n - 1)
      | e => .binary .sub e (.ofInt 1)
    let outer := [v.value, power u.value reduced]
    product (if u.value = .var x then outer else outer ++ [u.slope])
  else
    let logarithm : Slope := ⟨.call "ln" 0 u.value, ln x constant u⟩
    let exponent := Expr.binary .mul v.value logarithm.value
    let exponential := Expr.call "exp" 0 exponent
    if constant exponential then .ofInt 0
    else chain x exponential ⟨exponent, mul constant v logarithm⟩

/-- The derivative of a binary operation. Truth values are piecewise constant. -/
def binary (x : String) (constant : Expr → Bool) (op : BinaryOp) (u v : Slope) : Expr :=
  match op with
  | .add => nary .sum [u, v]
  | .sub => difference u.slope v.slope
  | .mul => mul constant u v
  | .div => div constant u v
  | .pow => pow x constant u v
  | .eq | .and | .or => .ofInt 0

/-! ## Functions -/

/-- The product of two expressions, as it is. -/
def times (lhs rhs : Expr) : Expr := .binary .mul lhs rhs

/-- One divided by an expression. -/
def reciprocal (e : Expr) : Expr := quotient (.ofInt 1) e

/-- The common part of the derivatives of the arcsine and the arccosine, `1 / sqrt (1 - u ^ 2)`. -/
def arcsine (u : Expr) : Expr := reciprocal (.call "sqrt" 0 (.binary .sub (.ofInt 1) (square u)))

/-- The common part of the derivatives of the arctangent and the arccotangent, `1 / (1 + u ^ 2)`. -/
def arctangent (u : Expr) : Expr := reciprocal (.binary .add (.ofInt 1) (square u))

/-- The common part of the derivatives of the arcsecant and the arccosecant,
`1 / (|u| * sqrt (u ^ 2 - 1))`. -/
def arcsecant (u : Expr) : Expr :=
  reciprocal (times (.call "abs" 0 u) (.call "sqrt" 0 (.binary .sub (square u) (.ofInt 1))))

/-- The derivative of a builtin function by its argument, at an argument. -/
def builtin? (function : String) (u : Expr) : Option Expr :=
  let call (name : String) : Expr := .call name 0 u
  match function with
  | "sin" => some (call "cos")
  | "cos" => some (negate (call "sin"))
  | "tan" => some (square (call "sec"))
  | "csc" => some (negate (times (call "csc") (call "cot")))
  | "sec" => some (times (call "sec") (call "tan"))
  | "cot" => some (negate (square (call "csc")))
  | "arcsin" => some (arcsine u)
  | "arccos" => some (negate (arcsine u))
  | "arctan" => some (arctangent u)
  | "arccot" => some (negate (arctangent u))
  | "arcsec" => some (arcsecant u)
  | "arccsc" => some (negate (arcsecant u))
  | "sqrt" => some (reciprocal (times (.ofInt 2) (call "sqrt")))
  | "abs" => some (quotient (call "abs") u)
  | "exp" | "expb" => some (call function)
  | "ln" => some (reciprocal u)
  | "log10" => some (quotient (.call "log10" 0 (.var "e")) u)
  | _ => none

/-- The derivative of a function by its argument, at an argument. A function without a rule of its
own gets one more prime. -/
def function (name : String) (primes : Nat) (u : Expr) : Expr :=
  (if primes = 0 then builtin? name u else none).getD (.call name (primes + 1) u)

end Formulary.Derivative
