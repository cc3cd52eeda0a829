import Formulary.Expr

/-!
# Flattening sums and products

Chains of sums and differences become one sum, and chains of products and quotients one product.
The negation of a subtracted sum goes to each of its terms, and the reciprocal of a divided product
to each of its factors; a double inverse cancels. The factors of a product are sorted by kind, and
factors of one kind keep their order.

A flattened expression is kept together with its operands as a sum and as a product, since the
operation around it may take these operands over.
-/

namespace Formulary

/-- A flattened expression, and the operands it brings into a sum and into a product. -/
structure Flattened where
  whole : Expr
  terms : List Expr
  factors : List Expr

namespace Flattened

/-- The operands that a flattened expression brings into an operation of a family. -/
def operands (f : Flattened) : Family → List Expr
  | .sum => f.terms
  | .product => f.factors

/-- The operands of an operation of the family, or the expression alone. -/
def spread (family : Family) : Expr → List Expr
  | .nary op es => if op = family then es else [.nary op es]
  | e => [e]

/-- Applies the inverse of a family to an operand; a double inverse cancels. -/
def invert (family : Family) : Expr → Expr
  | .unary op e => if op = family.inverse then e else .unary family.inverse (.unary op e)
  | e => .unary family.inverse e

/-- The operands of a subtracted or divided expression. -/
def inverted (family : Family) (e : Expr) : List Expr := (spread family e).map (invert family)

/-- All kinds of expressions in order. -/
def kinds : List Kind := [.number, .name, .function, .unary, .binary, .nary, .operator]

/-- Sorts expressions by kind; expressions of one kind keep their order. -/
def sortByKind (es : List Expr) : List Expr :=
  kinds.flatMap fun k => es.filter fun e => e.kind == k

/-- The operation of a family on operands; over no operands its value, over one operand that
operand. -/
def build (family : Family) (operands : List Expr) : Expr :=
  let operands :=
    match family with
    | .sum => operands
    | .product => sortByKind operands
  match operands with
  | [] => .ofInt family.identity
  | [e] => e
  | es => .nary family es

/-- An expression that brings itself, or its operands if it is a sum or product. -/
def ofExpr (e : Expr) : Flattened := ⟨e, spread .sum e, spread .product e⟩

/-- The operation of a family on operands, which it brings into further operations of its family. -/
def ofOperands (family : Family) (operands : List Expr) : Flattened :=
  let whole := build family operands
  match family with
  | .sum => ⟨whole, operands, spread .product whole⟩
  | .product => ⟨whole, spread .sum whole, operands⟩

/-- A binary operation on flattened operands. The operator of the family itself takes the operands
of the right side over; its inverse takes them over inverted. -/
def binary (op : BinaryOp) (lhs rhs : Flattened) : Flattened :=
  match op.family? with
  | some family =>
    ofOperands family (lhs.operands family ++
      if op = family.binary then rhs.operands family else inverted family rhs.whole)
  | none => ofExpr (.binary op lhs.whole rhs.whole)

end Flattened

namespace Expr

mutual

/-- Flattens an expression, keeping its operands at hand. -/
def flattened : Expr → Flattened
  | number n => .ofExpr (number n)
  | var name => .ofExpr (var name)
  | element sequence index => .ofExpr (element sequence index.flattened.whole)
  | unary op operand => .ofExpr (unary op operand.flattened.whole)
  | binary op lhs rhs => .binary op lhs.flattened rhs.flattened
  | nary op operands => .ofOperands op (flattenedOperands op operands)
  | call function primes argument => .ofExpr (call function primes argument.flattened.whole)
  | derivative body name => .ofExpr (derivative body.flattened.whole name)
  | derivativeAt body name point =>
    .ofExpr (derivativeAt body.flattened.whole name point.flattened.whole)
  | invalid issue => .ofExpr (invalid issue)
  | invalidPart issue part => .ofExpr (invalidPart issue part)

/-- The operands that several expressions bring into an operation of a family. -/
def flattenedOperands (family : Family) : List Expr → List Expr
  | [] => []
  | e :: es => e.flattened.operands family ++ flattenedOperands family es

end

/-- The expression with all chains of sums and products flattened. -/
def flatten (e : Expr) : Expr := e.flattened.whole

/-- The operands of the sum or product that an expression flattens to, or the flattened expression
alone. -/
def flatOperands (e : Expr) : List Expr :=
  match e.flatten with
  | nary _ es => es
  | e => [e]

end Expr

end Formulary
