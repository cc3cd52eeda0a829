import Formulary.Issue
import Formulary.Operator

/-!
# Tokens

A source text is cut into tokens from left to right, always taking the longest token possible. A
character that starts no other token is a symbol of its own, so the tokens cover the whole text.
Letters, digits and blanks are those of ASCII; positions are byte offsets.
-/

namespace Formulary

/-- The kinds of tokens. -/
inductive TokenKind where
  | blank
  | operator (op : BinaryOp)
  | bar
  | name
  | number
  | comma
  | openParen
  | closeParen
  | openBracket
  | closeBracket
  | symbol
deriving DecidableEq, Repr

/-- A token, the region it covers and its text. -/
structure Token where
  kind : TokenKind
  span : Span
  lexeme : String
deriving DecidableEq, Repr

namespace Token

/-! ## The characters that go on with a token -/

/-- A blank, a tab or the end of a line. -/
def isBlank (c : Char) : Bool := c == ' ' || c == '\t' || c == '\n' || c == '\r'

/-- A character inside a name: a letter, a digit or an underscore. -/
def isNamePart (c : Char) : Bool := c.isAlphanum || c == '_'

/-- The number of characters at the front of a text that satisfy a test. -/
def run (test : Char → Bool) (cs : List Char) : Nat := (cs.takeWhile test).length

/-- The length of an exponent at the front of a text: an `e`, an optional minus sign and digits. An
exponent without digits is none. -/
def exponentLength : List Char → Nat
  | 'e' :: '-' :: cs => if run Char.isDigit cs = 0 then 0 else 2 + run Char.isDigit cs
  | 'e' :: cs => if run Char.isDigit cs = 0 then 0 else 1 + run Char.isDigit cs
  | _ => 0

/-- The length of what can follow the leading digits of a number: a point, digits, an exponent. -/
def fractionLength : List Char → Nat
  | '.' :: cs =>
    let digits := run Char.isDigit cs
    1 + digits + exponentLength (cs.drop digits)
  | cs => exponentLength cs

/-- The length of the rest of a name after its first letter: name characters, then primes. -/
def nameLength (cs : List Char) : Nat :=
  let part := run isNamePart cs
  part + run (· == '\x27') (cs.drop part)

/-- The length of the rest of a number after its first digit. -/
def numberLength (cs : List Char) : Nat :=
  let digits := run Char.isDigit cs
  digits + fractionLength (cs.drop digits)

/-- The length of the rest of a number after a leading point, if a digit follows it. -/
def pointLength? (cs : List Char) : Option Nat :=
  let digits := run Char.isDigit cs
  if digits = 0 then none else some (digits + exponentLength (cs.drop digits))

/-- The kind of a character that is a token by itself. -/
def single : Char → TokenKind
  | '+' => .operator .add
  | '-' => .operator .sub
  | '*' => .operator .mul
  | '/' => .operator .div
  | '^' => .operator .pow
  | '=' => .operator .eq
  | '&' => .operator .and
  | '$' => .operator .or
  | '|' => .bar
  | ',' => .comma
  | '(' => .openParen
  | ')' => .closeParen
  | '[' => .openBracket
  | ']' => .closeBracket
  | _ => .symbol

/-- The kind of the token that starts with a character, and how many of the characters after it
belong to the token as well. -/
def classify (c : Char) (cs : List Char) : TokenKind × Nat :=
  if isBlank c then (.blank, run isBlank cs)
  else if c.isAlpha then (.name, nameLength cs)
  else if c.isDigit then (.number, numberLength cs)
  else if c == '.' then
    match pointLength? cs with
    | some n => (.number, n)
    | none => (.symbol, 0)
  else (single c, 0)

/-! ## Cutting a text into tokens -/

/-- The tokens of a text that starts at a byte offset. -/
def scanFrom (start : Nat) : List Char → List Token
  | [] => []
  | c :: cs =>
    let (kind, more) := classify c cs
    let lexeme := String.ofList (c :: cs.take more)
    let stop := start + lexeme.utf8ByteSize
    ⟨kind, ⟨start, stop⟩, lexeme⟩ :: scanFrom stop (cs.drop more)
termination_by cs => cs.length
decreasing_by
  simp only [List.length_cons, List.length_drop]
  omega

/-- The tokens of a text, blanks included. -/
def scan (source : String) : List Token := scanFrom 0 source.toList

/-- The token is an operator. -/
def isOperator (t : Token) : Bool :=
  match t.kind with
  | .operator _ => true
  | _ => false

end Token

end Formulary
