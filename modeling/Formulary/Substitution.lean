import Formulary.Reading.Formula

/-!
# Substitution

Putting expressions in the place of free names, all at once. On the way, operations on two literals
become one literal, and sums and products of fewer than two operands become what they stand for.
The name of a derivative operator is not replaced inside the expression it differentiates.
-/

namespace Formulary

/-- What is put in the place of a name. -/
inductive Substitution where
  /-- A formula, read when it is put in place. -/
  | text (source : String)
  /-- An expression. -/
  | expr (e : Expr)

/-- The substitution of each name; the first entry of a name counts. -/
abbrev Substitutions := List (String × Substitution)

namespace Substitution

/-- The expression to put in place, read with the names of a scope bound if it is a text. -/
def toExpr (scope : Scope) : Substitution → Expr
  | text source => Reading.read {} scope source
  | expr e => e

/-- The substitutions without those for a name. -/
def without (σ : Substitutions) (name : String) : Substitutions := σ.filter (·.1 != name)

/-- An arithmetic operation on two literals, as a literal. -/
def literals? : BinaryOp → Expr → Expr → Option Expr
  | .add, .number m, .number n => some (.number (m + n))
  | .sub, .number m, .number n => some (.number (m - n))
  | .mul, .number m, .number n => some (.number (m * n))
  | .div, .number m, .number n => some (.number (m / n))
  | _, _, _ => none

/-- A binary operation, or its result on two literals. -/
def binary (op : BinaryOp) (lhs rhs : Expr) : Expr :=
  (literals? op lhs rhs).getD (.binary op lhs rhs)

/-- A sum or product; over no operands its value, over one operand that operand. -/
def nary (op : Family) : List Expr → Expr
  | [] => .ofInt op.identity
  | [e] => e
  | es => .nary op es

end Substitution

namespace Expr

mutual

/-- Puts substitutions in the place of the free names of an expression. -/
def substitute (scope : Scope) (σ : Substitutions) : Expr → Expr
  | number n => number n
  | var name =>
    match σ.lookup name with
    | some s => s.toExpr scope
    | none => var name
  | element sequence index => element sequence (index.substitute scope σ)
  | unary op operand => unary op (operand.substitute scope σ)
  | binary op lhs rhs =>
    Substitution.binary op (lhs.substitute scope σ) (rhs.substitute scope σ)
  | nary op operands => Substitution.nary op (substituteList scope σ operands)
  | call function primes argument => call function primes (argument.substitute scope σ)
  | derivative body name =>
    derivative (body.substitute scope (Substitution.without σ name)) name
  | derivativeAt body name point =>
    derivativeAt (body.substitute scope (Substitution.without σ name)) name
      (point.substitute scope σ)
  | invalid issue => invalid issue
  | invalidPart issue part => invalidPart issue part

/-- Puts substitutions in the place of the free names of several expressions. -/
def substituteList (scope : Scope) (σ : Substitutions) : List Expr → List Expr
  | [] => []
  | e :: es => e.substitute scope σ :: substituteList scope σ es

end

/-- Puts one expression in the place of a name. -/
def substituteName (e : Expr) (name : String) (value : Expr) : Expr :=
  e.substitute [] [(name, .expr value)]

theorem substituteList_eq_map (scope : Scope) (σ : Substitutions) (es : List Expr) :
    substituteList scope σ es = es.map (substitute scope σ) := by
  induction es with
  | nil => rfl
  | cons e es ih => simp [substituteList, ih]

end Expr

end Formulary
