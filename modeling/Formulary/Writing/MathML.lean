import Formulary.Expr.Names
import Formulary.Number.Writing

/-!
# Expressions in content MathML

Every operation is an application of a head element to its operands.
-/

namespace Formulary

namespace MathML

/-- The element of a builtin function that has one. -/
def function? (name : String) : Option String :=
  let elements := ["sin", "cos", "tan", "csc", "sec", "cot", "arcsin", "arccos", "arctan",
    "arcsec", "arccsc", "arccot", "abs", "exp", "ln"]
  if name == "expb" then some "<exp/>"
  else if elements.contains name then some ("<" ++ name ++ "/>")
  else none

/-- The head element of a binary operator. -/
def operator : BinaryOp → String
  | .add => "<plus/>"
  | .sub => "<minus/>"
  | .mul => "<times/>"
  | .div => "<divide/>"
  | .pow => "<power/>"
  | .eq => "<eq/>"
  | .and => "<and/>"
  | .or => "<or/>"

/-- The application of a function, differentiated `primes` times, to an argument. A function
without an element of its own, or with primes, is applied by its name. -/
def call (function : String) (primes : Nat) (argument : String) : String :=
  if primes = 0 then
    match function with
    | "sqrt" => apply "<root/>" argument
    | "log10" => apply "<log/>" (element "logbase" (element "cn" "10") ++ argument)
    | name => apply ((function? name).getD (identifier name)) argument
  else apply (identifier (Names.withPrimes function primes)) argument

end MathML

namespace Expr

mutual

/-- The expression in content MathML. -/
def mathML : Expr → String
  | number n => n.mathML
  | var name => MathML.identifier name
  | element sequence index =>
    MathML.apply "<selector/>" (MathML.identifier sequence ++ index.mathML)
  | unary .plus operand => operand.mathML
  | unary .neg operand => MathML.apply "<minus/>" operand.mathML
  | unary .recip operand => MathML.apply "<divide/>" (MathML.element "cn" "1" ++ operand.mathML)
  | binary op lhs rhs => MathML.apply (MathML.operator op) (lhs.mathML ++ rhs.mathML)
  | nary op operands => MathML.apply (MathML.operator op.binary) (mathMLList operands)
  | call function primes argument => MathML.call function primes argument.mathML
  | derivative body name =>
    MathML.apply "<diff/>" (MathML.element "bvar" (MathML.identifier name) ++ body.mathML)
  | derivativeAt body name point =>
    MathML.apply (MathML.identifier "eval")
      (MathML.apply "<diff/>" (MathML.element "bvar" (MathML.identifier name) ++ body.mathML) ++
        MathML.apply "<eq/>" (MathML.identifier name ++ point.mathML))
  | invalid _ => "<merror/>"
  | invalidPart _ part => part.mathML

/-- Several expressions in content MathML, one after the other. -/
def mathMLList : List Expr → String
  | [] => ""
  | e :: es => e.mathML ++ mathMLList es

end

end Expr

end Formulary
