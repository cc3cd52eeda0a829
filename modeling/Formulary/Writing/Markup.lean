/-!
# Building blocks of TeX and MathML

The few shapes that the writers share.
-/

namespace Formulary

namespace Tex

/-- A group in braces. -/
def group (text : String) : String := "\x7b" ++ text ++ "\x7d"

/-- A command with one argument. -/
def command (name argument : String) : String := "\\" ++ name ++ group argument

/-- A fraction. -/
def fraction (numerator denominator : String) : String :=
  "\\frac" ++ group numerator ++ group denominator

/-- A name in upright letters. -/
def upright (name : String) : String := command "mathrm" name

/-- A group in parentheses that grow with their content. -/
def parentheses (text : String) : String := "\\left(" ++ text ++ "\\right)"

end Tex

namespace MathML

/-- An element with a text or other elements inside. -/
def element (tag content : String) : String := "<" ++ tag ++ ">" ++ content ++ "</" ++ tag ++ ">"

/-- The application of a head to operands. -/
def apply (head : String) (operands : String) : String := element "apply" (head ++ operands)

/-- A name. -/
def identifier (name : String) : String := element "ci" name

end MathML

end Formulary
