import Formulary.Expr.Names
import Formulary.Number.Writing

/-!
# The canonical text of an expression

The text a learner could have typed. Parentheses are written only where the precedences ask for
them; a fraction is put in parentheses as an operand of a product or a power, since its text holds
a division, and a negative base of a power is too, since its sign would be read after the power.
-/

namespace Formulary.Expr

/-- The expression is a proper fraction literal under an operator at least as tight as division. -/
def isFractionUnder (parent : Precedence) : Expr → Bool
  | number n => !n.isInteger && n.isExact && decide (Precedence.factor ≤ parent)
  | _ => false

/-- A left or only operand needs parentheses. -/
def groupedLeft (parent : Precedence) (e : Expr) : Bool :=
  (decide (Kind.unary ≤ e.kind) && decide (e.precedence < parent)) || e.isFractionUnder parent

/-- A right operand needs parentheses. -/
def groupedRight (parent : Precedence) (e : Expr) : Bool :=
  (decide (Kind.unary ≤ e.kind) && decide (e.precedence ≤ parent)) || e.isFractionUnder parent

/-- The expression is a literal with a negative value. -/
def isNegativeLiteral : Expr → Bool
  | number n => n.isNegative
  | _ => false

/-- The left operand of a binary operator needs parentheses. -/
def groupedBase (op : BinaryOp) (e : Expr) : Bool :=
  e.groupedLeft op.precedence || (op == .pow && e.isNegativeLiteral)

/-- A text, in parentheses if `grouped`. -/
def parenthesized (grouped : Bool) (text : String) : String :=
  if grouped then "(" ++ text ++ ")" else text

mutual

/-- The canonical text of an expression. -/
def text : Expr → String
  | number n => n.write
  | var name => name
  | element sequence index => sequence ++ "[" ++ index.text ++ "]"
  | unary op operand =>
    op.symbol.toString ++ parenthesized (operand.groupedLeft op.precedence) operand.text
  | binary op lhs rhs =>
    parenthesized (lhs.groupedBase op) lhs.text ++ op.symbol.toString ++
      parenthesized (rhs.groupedRight op.precedence) rhs.text
  | nary op [] => toString op.identity
  | nary op (operand :: operands) =>
    parenthesized (operand.groupedRight op.precedence) operand.text ++ textRest op operands
  | call function primes argument =>
    Names.withPrimes function primes ++ "(" ++ argument.text ++ ")"
  | derivative body name => "D(" ++ body.text ++ "," ++ name ++ ")"
  | derivativeAt body name point =>
    "D(" ++ body.text ++ "," ++ name ++ "," ++ point.text ++ ")"
  | invalid _ => "?"
  | invalidPart _ part => part.text

/-- The text of the operands after the first, each after its operator. -/
def textRest (op : Family) : List Expr → String
  | [] => ""
  | operand :: operands =>
    op.symbol.toString ++ parenthesized (operand.groupedRight op.precedence) operand.text ++
      textRest op operands

end

end Formulary.Expr
