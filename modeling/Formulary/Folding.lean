import Formulary.Expr
import Formulary.Options

/-!
# Folding literals

Operations on literals become one literal, and operations with a neutral or absorbing literal, such
as `x+0`, `0*x` or `x^1`, become what is left of them. Fractions stay exact. The folded literal of
a sum comes last, that of a product first.

A literal is a number or the negation of a number. Where negative literals are switched off, a
negative result is written as a negation.
-/

namespace Formulary

namespace Folding

/-- The number a literal stands for. -/
def literal? : Expr → Option Number
  | .number n => some n
  | .unary .neg (.number n) => some (-n)
  | _ => none

/-- The literal for a number. -/
def literal (o : Options) (n : Number) : Expr :=
  if !o.negativeNumbers && n.isNegative then .unary .neg (.number (-n)) else .number n

/-- The expression is the literal of an integer. -/
def isLiteral (e : Expr) (value : Int) : Bool := (literal? e).any (·.same (.ofInt value))

/-- The expression is a negative literal. -/
def isNegative (e : Expr) : Bool := (literal? e).any Number.isNegative

/-- A binary operation on two numbers. Powers need an integer exponent. -/
def onNumbers? : BinaryOp → Number → Number → Option Number
  | .add, m, n => some (m + n)
  | .sub, m, n => some (m - n)
  | .mul, m, n => some (m * n)
  | .div, m, n => some (m / n)
  | .pow, m, n => if n.isInteger then m.pow? (Double.toInt n.value) else none
  | _, _, _ => none

/-- A binary operation without its neutral operand, or the absorbing operand alone. -/
def collapse (op : BinaryOp) (lhs rhs : Expr) : Expr :=
  match op with
  | .add =>
    if isLiteral lhs 0 then rhs
    else if isLiteral rhs 0 then lhs
    else .binary .add lhs rhs
  | .sub =>
    if isLiteral rhs 0 then lhs
    else if isLiteral lhs 0 then .unary .neg rhs
    else .binary .sub lhs rhs
  | .mul =>
    if isLiteral lhs 0 || isLiteral rhs 0 then .ofInt 0
    else if isLiteral lhs 1 then rhs
    else if isLiteral rhs 1 then lhs
    else .binary .mul lhs rhs
  | .div =>
    if isLiteral rhs 1 then lhs
    else if isLiteral lhs 1 then .unary .recip rhs
    else .binary .div lhs rhs
  | .pow =>
    if isLiteral rhs 0 then .ofInt 1
    else if isLiteral lhs 0 && !isNegative rhs then .ofInt 0
    else if isLiteral lhs 1 then .ofInt 1
    else if isLiteral rhs 1 then lhs
    else .binary .pow lhs rhs
  | op => .binary op lhs rhs

/-- A binary operation on folded operands. -/
def binary (o : Options) (op : BinaryOp) (lhs rhs : Expr) : Expr :=
  match literal? lhs, literal? rhs with
  | some m, some n =>
    match onNumbers? op m n with
    | some r => literal o r
    | none => collapse op lhs rhs
  | _, _ => collapse op lhs rhs

/-- A unary operation on a folded operand. -/
def unary (o : Options) (op : UnaryOp) (operand : Expr) : Expr :=
  match op, literal? operand with
  | .plus, _ => operand
  | .neg, some n => literal o (-n)
  | .recip, some n => literal o n.inverse
  | op, none => .unary op operand

/-- The operation of a family on two numbers. -/
def onNumbers : Family → Number → Number → Number
  | .sum, m, n => m + n
  | .product, m, n => m * n

/-- The numbers of all literals among the operands, put together from left to right. -/
def constant? (op : Family) (operands : List Expr) : Option Number :=
  match operands.filterMap literal? with
  | [] => none
  | n :: ns => some (ns.foldl (onNumbers op) n)

/-- The operands that are not literals, and the literal of the others where it makes a difference;
a product with zero has zero as its only operand. -/
def gather (o : Options) (op : Family) (operands : List Expr) : List Expr :=
  let rest := operands.filter fun e => (literal? e).isNone
  match op, constant? op operands with
  | _, none => rest
  | .sum, some n => if n.isZero && !rest.isEmpty then rest else rest ++ [literal o n]
  | .product, some n =>
    if n.isZero then [.ofInt 0]
    else if n.isOne && !rest.isEmpty then rest
    else literal o n :: rest

/-- A sum or product of folded operands. -/
def nary (o : Options) (op : Family) (operands : List Expr) : Expr :=
  match gather o op operands with
  | [] => .ofInt op.identity
  | [e] => e
  | es => .nary op es

end Folding

namespace Expr

mutual

/-- The expression with its literals folded. -/
def fold (o : Options) : Expr → Expr
  | number n => Folding.literal o n
  | var name => var name
  | element sequence index => element sequence (index.fold o)
  | unary op operand => Folding.unary o op (operand.fold o)
  | binary op lhs rhs => Folding.binary o op (lhs.fold o) (rhs.fold o)
  | nary op operands => Folding.nary o op (foldList o operands)
  | call function primes argument => call function primes (argument.fold o)
  | derivative body name => derivative (body.fold o) name
  | derivativeAt body name point => derivativeAt (body.fold o) name (point.fold o)
  | invalid issue => invalid issue
  | invalidPart issue part => invalidPart issue part

/-- Several expressions with their literals folded. -/
def foldList (o : Options) : List Expr → List Expr
  | [] => []
  | e :: es => e.fold o :: foldList o es

end

theorem foldList_eq_map (o : Options) (es : List Expr) : foldList o es = es.map (fold o) := by
  induction es with
  | nil => rfl
  | cons e es ih => simp [foldList, ih]

end Expr

end Formulary
