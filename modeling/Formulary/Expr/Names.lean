import Formulary.Expr
import Formulary.Names

/-!
# The names an expression depends on

A special constant is not a free name, and a derivative at a point does not depend on its own
variable. `Expr.occurrences` lists the free names as they occur, and `Expr.dependencies` lists each
of them once, in order of first appearance.
-/

namespace Formulary.Expr

/-- A call of the function a text names: primes at the end of the text are derivatives, and other
spellings of a builtin function are resolved. -/
def callNamed (text : String) (argument : Expr) : Expr :=
  call (Names.canonical (Names.base text)) (Names.primes text) argument

mutual

/-- The free names of an expression, as often as they occur. -/
def occurrences : Expr → List String
  | number _ | invalid _ => []
  | var name => if Names.isSpecial name then [] else [name]
  | element _ index => index.occurrences
  | unary _ operand => operand.occurrences
  | binary _ lhs rhs => lhs.occurrences ++ rhs.occurrences
  | nary _ operands => occurrencesList operands
  | call _ _ argument => argument.occurrences
  | derivative body _ => body.occurrences
  | derivativeAt body name point =>
    (body.occurrences ++ point.occurrences).filter (· != name)
  | invalidPart _ part => part.occurrences

/-- The free names of several expressions, as often as they occur. -/
def occurrencesList : List Expr → List String
  | [] => []
  | e :: es => e.occurrences ++ occurrencesList es

end

/-- The free names of an expression, in order of first appearance. -/
def dependencies (e : Expr) : List String := e.occurrences.eraseDups

mutual

/-- The expression has the same value whatever the names stand for. -/
def isConstant : Expr → Bool
  | number _ => true
  | var name => Names.isSpecial name
  | element _ _ | invalid _ | invalidPart _ _ => false
  | unary _ operand => operand.isConstant
  | binary _ lhs rhs => lhs.isConstant && rhs.isConstant
  | nary _ operands => allConstant operands
  | call _ _ argument => argument.isConstant
  | derivative body _ => body.isConstant
  | derivativeAt body _ point => body.isConstant && point.isConstant

/-- All of the expressions are constant. -/
def allConstant : List Expr → Bool
  | [] => true
  | e :: es => e.isConstant && allConstant es

end

theorem mem_dependencies {e : Expr} {name : String} :
    name ∈ e.dependencies ↔ name ∈ e.occurrences := by
  simp [dependencies]

end Formulary.Expr
