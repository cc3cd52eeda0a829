/-!
# Names with a fixed meaning

The special constants, the builtin functions and their other spellings, and the primes at the end
of a name, which count derivatives.
-/

namespace Formulary.Names

/-- Names that stand for constants: Euler's number, the circle constant, infinity, and a value that
does not exist. -/
def specials : List String := ["e", "pi", "inf", "dne"]

/-- The name stands for a constant. -/
def isSpecial (name : String) : Bool := specials.contains name

/-- The builtin functions. -/
def builtins : List String :=
  ["sin", "cos", "tan", "csc", "sec", "cot",
    "arcsin", "arccos", "arctan", "arcsec", "arccsc", "arccot",
    "sqrt", "abs", "exp", "expb", "ln", "log10"]

/-- The name is a builtin function. -/
def isBuiltin (name : String) : Bool := builtins.contains name

/-- The one spelling of a function that is kept in expressions. -/
def canonical : String → String
  | "asin" => "arcsin"
  | "acos" => "arccos"
  | "atan" => "arctan"
  | "asec" => "arcsec"
  | "acsc" => "arccsc"
  | "acot" => "arccot"
  | "log" => "ln"
  | name => name

/-- The mark of a derivative. -/
def prime : Char := '\x27'

/-- The number of primes at the end of a name. -/
def primes (name : String) : Nat := (name.toList.reverse.takeWhile (· == prime)).length

/-- A name without the primes at its end. -/
def base (name : String) : String :=
  String.ofList (name.toList.reverse.dropWhile (· == prime)).reverse

/-- A name with a number of primes put at its end. -/
def withPrimes (name : String) (count : Nat) : String :=
  name ++ String.ofList (List.replicate count prime)

end Formulary.Names
