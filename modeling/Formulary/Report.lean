import Formulary.Issue

/-!
# Faults and their reports

A fault is what an operation answers with instead of a result: an issue of a formula it had to
read, or a mistake in how a rule, a parameter or a number was set up. `Fault.report` words it, with
a label for the region it points at.
-/

namespace Formulary

/-- What made an operation fail. -/
inductive Fault where
  /-- A formula could not be read. -/
  | unreadable (cause : Cause)
  /-- A rule does not have exactly one `==`; `separators` were found. -/
  | malformedRule (separators : Nat)
  /-- The formula of a parameter does not give a number. -/
  | undefinedParameter (name : String)
  /-- An object registered as a number is not constant. -/
  | notANumber (name : String)
deriving DecidableEq, Repr

/-- A fault and the region of the source it points at. -/
structure Failure where
  span : Span
  fault : Fault
deriving DecidableEq, Repr

/-- The words of a fault: a message, the label of the region, and further advice. -/
structure Report where
  message : String
  label : String
  help : Option String := none
  note : Option String := none
deriving DecidableEq, Repr

/-- The issue as the failure of an operation that had to read the formula. -/
def Issue.toFailure (issue : Issue) : Failure := ⟨issue.span, .unreadable issue.cause⟩

/-- A text between backquotes. -/
def quoted (text : String) : String := "\x60" ++ text ++ "\x60"

/-- The words for an issue of a formula. -/
def Cause.report : Cause → Report
  | .missingValue op => {
      message := "incomplete formula: missing value for " ++ quoted op.toString
      label := "this operator needs another value" }
  | .consecutiveOperators => {
      message := "consecutive operators"
      label := "this operator follows another operator"
      help := some ("only " ++ quoted "-" ++ " and " ++ quoted "/" ++
        " may directly follow another operator") }
  | .nestedSubscript => {
      message := "nested brackets used for subscripts are not supported"
      label := "this subscript" }
  | .wholeNumbersOnly => {
      message := "whole numbers only"
      label := "this number has a decimal point"
      help := some "no decimal values are allowed here" }
  | .multipleIndexVariables names => {
      message := "an array reference can only have one index variable"
      label := "this index depends on " ++ ", ".intercalate names }
  | .unbalanced close => {
      message := "unbalanced grouping: missing " ++ quoted close.toString
      label := "this group is not closed"
      help := some ("add a closing " ++ quoted close.toString ++ " somewhere after this") }
  | .unrecognizedSymbol symbol => {
      message := "unrecognized symbol " ++ quoted symbol
      label := "here" }
  | .derivativeVariable => {
      message := "the derivative operator needs a variable name"
      label := "expected a variable here"
      help := some "write the derivative as D(expression, variable)" }
  | .emptyExpression => {
      message := "incomplete formula: missing expression"
      label := "add an expression here" }
  | .notConstant => {
      message := "the expression should be a constant but depends on variables"
      label := "this expression" }

/-- The words for a fault. -/
def Fault.report : Fault → Report
  | .unreadable cause => cause.report
  | .malformedRule separators => {
      message := "invalid equation in identity list"
      label := "found " ++ toString separators ++ " " ++ quoted "==" ++ " separators"
      help := some "write the rule as pattern == replacement" }
  | .undefinedParameter name => {
      message := "parameter " ++ quoted name ++ " does not evaluate to a number"
      label := "this formula"
      note := some "only previously defined parameters can appear in a calculated parameter" }
  | .notANumber name => {
      message := quoted name ++ " was registered as a number but depends on variables"
      label := "this formula" }

end Formulary
