import Formulary.Derivative.Rules
import Formulary.Expr.Traversal
import Formulary.Substitution

/-!
# Differentiation

`Expr.differentiate e x known` is the derivative of `e` with respect to the name `x`. The names in
`known` are constants, and every other name is taken to depend on `x`, so that `y` has the
derivative `y'`.

Two kinds of nodes stand for expressions that are not their parts: a derivative operator inside
`e`, and a builtin function with primes. Both are first written out and then differentiated as a
whole. `differentiate? depth` writes out at most `depth` of them, one inside the result of another,
and gives nothing if that is not enough. Putting points in place may move names into the reach of
other operators, and such an expression can go on forever, which is why no measure replaces
`depth`.
-/

namespace Formulary

namespace Derivative

/-- How an expression that was written out is differentiated. -/
abbrev Continue := (e : Expr) → (x : String) → (known : Scope) → Option Expr

/-- The names that are constant inside a derivative operator by `name`, while differentiating by
`x`: the outer name is held fixed. -/
def inside (x : String) (known : Scope) (name : String) : Scope :=
  if name = x then known else x :: known

end Derivative

namespace Expr

mutual

/-- The derivative of an expression, where `again` differentiates what had to be written out, and
`closed` writes out a builtin function with primes. What could not be read is returned as it is. -/
def differentiateWith (closed : String → Nat → Expr → Option Expr) (again : Derivative.Continue)
    (e : Expr) (x : String) (known : Scope) : Option Expr :=
  if e.isInvalid then some e
  else if Derivative.independent x known e then some (ofInt 0)
  else
    match e with
    | number _ | element _ _ => some (ofInt 0)
    | var name => some (if name = x then ofInt 1 else var (Names.withPrimes name 1))
    | unary op u => do
      let du ← u.differentiateWith closed again x known
      return Derivative.unary op ⟨u, du⟩
    | binary op u v =>
      if op.valueType = .boolean then some (ofInt 0)
      else do
        let du ← u.differentiateWith closed again x known
        let dv ← v.differentiateWith closed again x known
        return Derivative.binary x (Derivative.independent x known) op ⟨u, du⟩ ⟨v, dv⟩
    | nary op us => do
      let slopes ← differentiateList closed again us x known
      return Derivative.nary op slopes
    | call function primes u =>
      if Names.isBuiltin function && primes != 0 then do
        again (← closed function primes u) x known
      else do
        let du ← u.differentiateWith closed again x known
        return Derivative.chain x (Derivative.function function primes u) ⟨u, du⟩
    | derivative body name => do
      let first ← body.differentiateWith closed again name (Derivative.inside x known name)
      again first x known
    | derivativeAt body name point => do
      let first ← body.differentiateWith closed again name (Derivative.inside x known name)
      again (first.substituteName name point) x known
    | e => some e

/-- Several expressions, each with its derivative. -/
def differentiateList (closed : String → Nat → Expr → Option Expr) (again : Derivative.Continue)
    (es : List Expr) (x : String) (known : Scope) : Option (List Derivative.Slope) :=
  match es with
  | [] => some []
  | e :: es => do
    let de ← e.differentiateWith closed again x known
    let rest ← differentiateList closed again es x known
    return ⟨e, de⟩ :: rest

end

end Expr

namespace Derivative

/-- The derivatives of builtin functions at the name `x`, of any order. Their expressions hold
neither derivative operators nor primes, so nothing is ever written out on the way. -/
def closedAtX (function : String) : (order : Nat) → Option Expr
  | 0 => some (.call function 0 (.var "x"))
  | order + 1 => do
    let e ← closedAtX function order
    e.differentiateWith (fun _ _ _ => none) (fun _ _ _ => none) "x" []

/-- A builtin function with primes at an argument, written out. -/
def closedForm (function : String) (primes : Nat) (argument : Expr) : Option Expr := do
  let e ← closedAtX function primes
  return if argument = .var "x" then e else e.substituteName "x" argument

/-- The derivative of an expression, if writing out at most `depth` nodes one inside the result of
another is enough. -/
def differentiate? : (depth : Nat) → Continue
  | 0 => fun e x known => e.differentiateWith closedForm (fun _ _ _ => none) x known
  | depth + 1 => fun e x known => e.differentiateWith closedForm (differentiate? depth) x known

/-- The expression has to be written out before it can be differentiated. -/
def isWrittenOut : Expr → Bool
  | .derivative _ _ | .derivativeAt _ _ _ => true
  | .call function primes _ => Names.isBuiltin function && primes != 0
  | _ => false

/-- A depth for differentiating an expression. As long as no operator captures a name of a point,
each level of the result takes a node of the expression itself, so their number would do; with
captured names more levels can be needed. -/
def depth (e : Expr) : Nat :=
  let count := e.nodes.countP isWrittenOut
  Nat.pow 2 (count * count)

end Derivative

namespace Expr

/-- The derivative of an expression with respect to a name; names that are not known depend on it.
A derivative that cannot be written out within its depth stays an operator. -/
def differentiate (e : Expr) (x : String) (known : Scope) : Expr :=
  (Derivative.differentiate? (Derivative.depth e) e x known).getD (derivative e x)

end Expr

end Formulary
