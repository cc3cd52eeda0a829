/-!
# Operators

The unary, binary and n-ary operators of a formula, their symbols and their precedences.
-/

namespace Formulary

/-- How tightly an operation binds, from loosest to tightest. -/
inductive Precedence where
  | disjunction
  | conjunction
  | equality
  | term
  | factor
  | power
  | application
deriving DecidableEq, Repr

namespace Precedence

/-- The position of a precedence in the order. -/
def rank : Precedence → Nat
  | disjunction => 0
  | conjunction => 1
  | equality => 2
  | term => 3
  | factor => 4
  | power => 5
  | application => 6

instance : LT Precedence := ⟨fun a b => a.rank < b.rank⟩
instance : LE Precedence := ⟨fun a b => a.rank ≤ b.rank⟩
instance (a b : Precedence) : Decidable (a < b) := inferInstanceAs (Decidable (a.rank < b.rank))
instance (a b : Precedence) : Decidable (a ≤ b) := inferInstanceAs (Decidable (a.rank ≤ b.rank))

end Precedence

/-- What an expression stands for. -/
inductive ValueType where
  | numeric
  | boolean
deriving DecidableEq, Repr

/-- An operator before a single operand. -/
inductive UnaryOp where
  | plus
  | neg
  | recip
deriving DecidableEq, Repr

namespace UnaryOp

/-- Signs bind like products, the reciprocal like a power. -/
def precedence : UnaryOp → Precedence
  | plus | neg => .factor
  | recip => .power

/-- The character that writes the operator. -/
def symbol : UnaryOp → Char
  | plus => '+'
  | neg => '-'
  | recip => '/'

end UnaryOp

/-- The two families of operators that can be flattened: sums with their differences, and products
with their quotients. As an operator, a family takes any number of operands. -/
inductive Family where
  | sum
  | product
deriving DecidableEq, Repr

/-- An operator between two operands. -/
inductive BinaryOp where
  | add
  | sub
  | mul
  | div
  | pow
  | eq
  | and
  | or
deriving DecidableEq, Repr

namespace BinaryOp

/-- How tightly the operator binds. -/
def precedence : BinaryOp → Precedence
  | add | sub => .term
  | mul | div => .factor
  | pow => .power
  | eq => .equality
  | and => .conjunction
  | or => .disjunction

/-- The character that writes the operator. A bar stands for absolute values, so alternatives are
written with a dollar sign. -/
def symbol : BinaryOp → Char
  | add => '+'
  | sub => '-'
  | mul => '*'
  | div => '/'
  | pow => '^'
  | eq => '='
  | and => '&'
  | or => '$'

/-- Comparisons and connectives give truth values. -/
def valueType : BinaryOp → ValueType
  | eq | and | or => .boolean
  | _ => .numeric

/-- The family the operator belongs to. -/
def family? : BinaryOp → Option Family
  | add | sub => some .sum
  | mul | div => some .product
  | _ => none

end BinaryOp

namespace Family

/-- The binary operator with the same meaning. -/
def binary : Family → BinaryOp
  | sum => .add
  | product => .mul

/-- How tightly the operator binds. -/
def precedence (f : Family) : Precedence := f.binary.precedence

/-- The character that writes the operator. -/
def symbol (f : Family) : Char := f.binary.symbol

/-- The value over no operands. -/
def identity : Family → Int
  | sum => 0
  | product => 1

/-- The unary operator that undoes the operation. -/
def inverse : Family → UnaryOp
  | sum => .neg
  | product => .recip

end Family

end Formulary
