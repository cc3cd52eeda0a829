import Formulary.Issue
import Formulary.Number
import Formulary.Operator

/-!
# Expressions

The expression tree that every other part of the library works on. What could not be read is part
of the tree: an `invalid` node stands where nothing could be made of the source, and an
`invalidPart` node around what could still be made of it.
-/

namespace Formulary

/-- An expression. -/
inductive Expr where
  /-- A literal. -/
  | number (n : Number)
  /-- A named value, such as `x`, `pi` or `y'`. -/
  | var (name : String)
  /-- An element of a sequence, such as `a[k+1]`. -/
  | element (sequence : String) (index : Expr)
  /-- An operator before an operand. -/
  | unary (op : UnaryOp) (operand : Expr)
  /-- An operator between two operands. -/
  | binary (op : BinaryOp) (lhs rhs : Expr)
  /-- A sum or a product over any number of operands. -/
  | nary (op : Family) (operands : List Expr)
  /-- A call of a function, differentiated `primes` times. -/
  | call (function : String) (primes : Nat) (argument : Expr)
  /-- The derivative of an expression with respect to a name. -/
  | derivative (body : Expr) (name : String)
  /-- The derivative of an expression with respect to a name, at a point. -/
  | derivativeAt (body : Expr) (name : String) (point : Expr)
  /-- Something that could not be read. -/
  | invalid (issue : Issue)
  /-- Something that could not be read, and the part of it that could. -/
  | invalidPart (issue : Issue) (part : Expr)

/-- The kinds of expressions, in the order that decides about parentheses and that sorts the
factors of a product. -/
inductive Kind where
  | number
  | name
  | function
  | unary
  | binary
  | nary
  | operator
deriving DecidableEq, Repr

namespace Kind

/-- The position of a kind in the order. -/
def rank : Kind → Nat
  | number => 0
  | name => 1
  | function => 2
  | unary => 3
  | binary => 4
  | nary => 5
  | operator => 6

instance : LT Kind := ⟨fun a b => a.rank < b.rank⟩
instance : LE Kind := ⟨fun a b => a.rank ≤ b.rank⟩
instance (a b : Kind) : Decidable (a < b) := inferInstanceAs (Decidable (a.rank < b.rank))
instance (a b : Kind) : Decidable (a ≤ b) := inferInstanceAs (Decidable (a.rank ≤ b.rank))

end Kind

namespace Expr

/-- The integer as a literal. -/
def ofInt (n : Int) : Expr := number (.ofInt n)

instance : Inhabited Expr := ⟨ofInt 0⟩

/-- The number, if the expression is a literal. -/
def number? : Expr → Option Number
  | number n => some n
  | _ => none

/-- The name, if the expression is a named value. -/
def var? : Expr → Option String
  | var name => some name
  | _ => none

/-- The expression is a node for something that could not be read. -/
def isInvalid : Expr → Bool
  | invalid _ | invalidPart _ _ => true
  | _ => false

/-- The kind of an expression. What could not be read counts as what could be made of it. -/
def kind : Expr → Kind
  | number _ => .number
  | var _ | element _ _ => .name
  | unary _ _ => .unary
  | binary _ _ _ => .binary
  | nary _ _ => .nary
  | call _ _ _ => .function
  | derivative _ _ | derivativeAt _ _ _ => .operator
  | invalid _ => .number
  | invalidPart _ part => part.kind

/-- How tightly the operation at the root of an expression binds. -/
def precedence : Expr → Precedence
  | unary op _ => op.precedence
  | binary op _ _ => op.precedence
  | nary op _ => op.precedence
  | invalidPart _ part => part.precedence
  | _ => .application

/-- What the expression stands for. -/
def valueType : Expr → ValueType
  | binary op _ _ => op.valueType
  | _ => .numeric

/-- The family of the operator at the root: sums and differences, or products and quotients. -/
def family? : Expr → Option Family
  | binary op _ _ => op.family?
  | nary op _ => some op
  | _ => none

/-- The direct parts of an expression, in order. -/
def children : Expr → List Expr
  | number _ | var _ | invalid _ => []
  | element _ index => [index]
  | unary _ operand => [operand]
  | binary _ lhs rhs => [lhs, rhs]
  | nary _ operands => operands
  | call _ _ argument => [argument]
  | derivative body _ => [body]
  | derivativeAt body _ point => [body, point]
  | invalidPart _ part => [part]

/-- Puts expressions in the places of the first entries of a list; entries beyond them stay. -/
def fill : List Expr → List Expr → List Expr
  | _ :: places, e :: es => e :: fill places es
  | places, [] => places
  | [], _ => []

/-- The expression with its direct parts replaced in order; parts beyond the given ones stay. -/
def withChildren : Expr → List Expr → Expr
  | element sequence _, index :: _ => element sequence index
  | unary op _, operand :: _ => unary op operand
  | binary op _ _, lhs :: rhs :: _ => binary op lhs rhs
  | binary op _ rhs, [lhs] => binary op lhs rhs
  | nary op operands, es => nary op (fill operands es)
  | call function primes _, argument :: _ => call function primes argument
  | derivative _ name, body :: _ => derivative body name
  | derivativeAt _ name _, body :: point :: _ => derivativeAt body name point
  | derivativeAt _ name point, [body] => derivativeAt body name point
  | invalidPart issue _, part :: _ => invalidPart issue part
  | e, _ => e

/-- Both roots are the same kind of node with the same operator or name, so that their parts can be
compared in pairs. -/
def sameHead : Expr → Expr → Bool
  | number m, number n => m.same n
  | var x, var y => x == y
  | element x _, element y _ => x == y
  | unary p _, unary q _ => p == q
  | binary p _ _, binary q _ _ => p == q
  | nary p _, nary q _ => p == q
  | call f m _, call g n _ => f == g && m == n
  | derivative _ x, derivative _ y => x == y
  | derivativeAt _ x _, derivativeAt _ y _ => x == y
  | _, _ => false

end Expr
end Formulary
