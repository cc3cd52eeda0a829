/-!
# Issues found while reading a formula

Reading a formula never fails. What is wrong with it is recorded as an issue, a cause together with
the region of the source it was found in, at the place in the expression where it was found.
-/

namespace Formulary

/-- A region of a source text, as byte offsets; `stop` is excluded. -/
structure Span where
  start : Nat
  stop : Nat
deriving DecidableEq, Repr, Inhabited

/-- What can be wrong with a formula. -/
inductive Cause where
  /-- An operator lacks an operand. -/
  | missingValue (op : Char)
  /-- An operator follows another operator. -/
  | consecutiveOperators
  /-- A subscript has brackets inside. -/
  | nestedSubscript
  /-- A number has a decimal point where only whole numbers may stand. -/
  | wholeNumbersOnly
  /-- A subscript depends on more than one name. -/
  | multipleIndexVariables (names : List String)
  /-- A group is never closed. -/
  | unbalanced (close : Char)
  /-- A symbol has no meaning. -/
  | unrecognizedSymbol (symbol : String)
  /-- The second argument of the derivative operator is not a name. -/
  | derivativeVariable
  /-- There is nothing to read. -/
  | emptyExpression
  /-- A formula that should be a number depends on variables. -/
  | notConstant
deriving DecidableEq, Repr

/-- A cause and where it was found. -/
structure Issue where
  span : Span
  cause : Cause
deriving DecidableEq, Repr

/-- The cause in one line. -/
def Cause.text : Cause → String
  | missingValue op => "Incomplete formula: missing value for " ++ op.toString
  | consecutiveOperators => "Error: consecutive operators"
  | nestedSubscript => "Nested brackets used for subscripts are not supported."
  | wholeNumbersOnly => "Whole numbers only. No decimal values are allowed."
  | multipleIndexVariables _ => "An array reference can only have one index variable."
  | unbalanced close => "Unbalanced grouping: missing " ++ close.toString
  | unrecognizedSymbol symbol => "Unrecognized symbol " ++ symbol
  | derivativeVariable => "The derivative operator needs a variable name"
  | emptyExpression => "Incomplete formula: missing expression"
  | notConstant => "The expression should be a constant but depends on variables."

end Formulary
