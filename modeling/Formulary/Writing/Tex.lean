import Formulary.Writing.Canonical

/-!
# Expressions in TeX

`Expr.tex` writes an expression, and `Expr.operatorTex` only the operation at its root, for a
reader who walks through the tree.
-/

namespace Formulary

namespace Tex

/-- Names that are written as Greek letters. -/
def greek : List String :=
  ["alpha", "beta", "gamma", "delta", "epsilon", "zeta", "eta", "theta", "kappa", "lambda",
    "mu", "nu", "xi", "pi", "rho", "sigma", "tau", "upsilon", "phi", "chi", "psi", "omega",
    "Gamma", "Delta", "Theta", "Lambda", "Xi", "Pi", "Sigma", "Upsilon", "Phi", "Psi", "Omega"]

/-- The rest of a text after a given beginning. -/
def after? (beginning text : String) : Option String :=
  if beginning.toList.isPrefixOf text.toList then
    some (String.ofList (text.toList.drop beginning.length))
  else none

/-- A named value. The placeholders of a rule are boxes with their number. -/
def name (text : String) : String :=
  match after? "input" text with
  | some number => command "boxed" ("\\dots?^" ++ group number)
  | none =>
    if greek.contains text then "\\" ++ text
    else if text == "inf" then "\\infty"
    else if Names.isSpecial text then upright text
    else text

/-- The name of a function without primes. An inverse trigonometric function is written as the
inverse of its function, and a name of more than one letter upright. -/
def functionBase : String → String
  | "sqrt" => upright "sqrt"
  | "abs" => "\\abs"
  | "exp" | "expb" => "\\exp"
  | "log10" => "\\log_" ++ group "10"
  | name =>
    if ["sin", "cos", "tan", "csc", "sec", "cot", "ln"].contains name then "\\" ++ name
    else if ["arcsin", "arccos", "arctan", "arcsec", "arccsc", "arccot"].contains name then
      "\\" ++ (after? "arc" name).getD name ++ "^" ++ group "-1"
    else if 1 < name.utf8ByteSize then upright name
    else name

/-- The name of a function. Up to three primes are written as such, more as a number. -/
def functionName (function : String) (primes : Nat) : String :=
  if primes ≤ 3 then Names.withPrimes (functionBase function) primes
  else functionBase function ++ "^" ++ group ("(" ++ toString primes ++ ")")

/-- A call of a function. -/
def call (function : String) (primes : Nat) (argument : String) : String :=
  let applied :=
    functionName function primes ++ " \\mathopen" ++ group "" ++ "\\left(" ++ argument ++
      "\\right)\\mathclose" ++ group ""
  if primes = 0 then
    match function with
    | "sqrt" => command "sqrt" argument
    | "abs" => "\\left|" ++ argument ++ "\\right|"
    | "exp" => "e^" ++ group argument
    | _ => applied
  else applied

/-- Writes a sum with a negative term as a difference: the plus sign before a minus sign goes. -/
def dropPlus : List Char → List Char
  | '+' :: '-' :: cs => '-' :: dropPlus cs
  | c :: cs => c :: dropPlus cs
  | [] => []

/-- A text in growing parentheses, if `grouped`. -/
def parenthesized (grouped : Bool) (text : String) : String :=
  if grouped then parentheses text else text

/-- The operators that are written alike in a formula and in TeX, and the words for the others. -/
def operator : BinaryOp → String
  | .and => "\\hbox" ++ group " and "
  | .or => "\\hbox" ++ group " or "
  | op => op.symbol.toString

/-- The derivative with respect to a name, as an operator. -/
def derivative (name : String) : String := fraction "d" ("d" ++ name)

/-- How an operand is put into a sum or product. -/
inductive Operand where
  /-- The text follows the operator. -/
  | joined (text : String)
  /-- The text brings its own sign. -/
  | signed (text : String)
  /-- The text divides all that comes before it. -/
  | divisor (text : String)

/-- Puts an operand after the text of the operands before it, if there were any. -/
def Operand.append (op : String) (first : Bool) (before : String) : Operand → String
  | joined text => if first then before ++ text else before ++ op ++ text
  | signed text => before ++ text
  | divisor text => fraction (if before.isEmpty then "1" else before) text

/-- Puts operands together. -/
def Operand.join (op : String) (operands : List Operand) : String :=
  match operands with
  | [] => ""
  | o :: os => os.foldl (Operand.append op false) (o.append op true "")

end Tex

namespace Expr

/-- The operand of a sign needs parentheses; a reciprocal after a minus sign does not. -/
def groupedAfterSign (op : UnaryOp) (e : Expr) : Bool :=
  decide (Kind.unary ≤ e.kind) && decide (e.precedence ≤ op.precedence) &&
    !(op == .neg && (match e with | unary .recip _ => true | _ => false))

/-- The expression is an operation that binds more loosely than its surroundings. -/
def isLooser (parent : Precedence) (e : Expr) : Bool :=
  decide (Kind.unary ≤ e.kind) && decide (e.precedence < parent)

/-- The expression is an operation that binds no tighter than its surroundings. -/
def isNoTighter (parent : Precedence) (e : Expr) : Bool :=
  decide (Kind.unary ≤ e.kind) && decide (e.precedence ≤ parent)

/-- A right factor starts with a digit, so the product needs a sign. -/
def startsWithNumber : Expr → Bool
  | number _ => true
  | binary .pow base _ => base.kind == .number
  | _ => false

/-- The operator between two operands. -/
def operatorBefore (rhs : Expr) : BinaryOp → String
  | .mul => if rhs.startsWithNumber then "\\cdot " else " "
  | op => Tex.operator op

mutual

/-- The expression in TeX. -/
def tex : Expr → String
  | number n => n.tex
  | var name => Tex.name name
  | element sequence index => sequence ++ "_" ++ Tex.group index.tex
  | unary .recip operand => Tex.fraction "1" operand.tex
  | unary op operand =>
    op.symbol.toString ++ Tex.parenthesized (operand.groupedAfterSign op) operand.tex
  | binary op lhs rhs =>
    let written :=
      match op with
      | .div => Tex.fraction lhs.tex rhs.tex
      | .pow =>
        Tex.parenthesized (decide (Kind.function ≤ lhs.kind) || lhs.isNegativeLiteral) lhs.tex ++
          "^" ++ Tex.group rhs.tex
      | op =>
        Tex.parenthesized (lhs.isLooser op.precedence) lhs.tex ++ rhs.operatorBefore op ++
          Tex.parenthesized (rhs.isNoTighter op.precedence) rhs.tex
    String.ofList (Tex.dropPlus written.toList)
  | nary op [] => toString op.identity
  | nary .sum operands => Tex.Operand.join "+" (texTerms operands)
  | nary .product operands => Tex.Operand.join " " (texFactors true operands)
  | call function primes argument => Tex.call function primes argument.tex
  | derivative body name =>
    Tex.derivative (Tex.name name) ++ "\\Big[" ++ body.tex ++ "\\Big]"
  | derivativeAt body name point =>
    "\\left. " ++ Tex.derivative (Tex.name name) ++ " \\right|_" ++
      Tex.group (Tex.name name ++ "=" ++ point.tex) ++ "\\Big[" ++ body.tex ++ "\\Big]"
  | invalid _ => "?"
  | invalidPart _ part => part.tex

/-- The terms of a sum. A negated term brings its own sign. -/
def texTerms : List Expr → List Tex.Operand
  | [] => []
  | operand :: operands =>
    (match operand with
      | unary .neg inner =>
        .signed (UnaryOp.neg.symbol.toString ++
          Tex.parenthesized (inner.groupedAfterSign .neg) inner.tex)
      | operand => .joined (Tex.parenthesized (operand.isNoTighter .term) operand.tex)) ::
      texTerms operands

/-- The factors of a product. A reciprocal divides the factors before it, and a number that is not
the first factor is put in parentheses. -/
def texFactors (first : Bool) : List Expr → List Tex.Operand
  | [] => []
  | operand :: operands =>
    (match operand with
      | unary .recip denominator =>
        .divisor (Tex.parenthesized (denominator.isLooser .factor) denominator.tex)
      | operand =>
        .joined (Tex.parenthesized
          (operand.isNoTighter .factor || (!first && operand.kind == .number)) operand.tex)) ::
      texFactors false operands

end

/-- The operation at the root of an expression in TeX, without its operands. Leaves are written in
full. -/
def operatorTex : Expr → String
  | unary .recip _ => "\\div"
  | unary op _ => op.symbol.toString
  | binary .mul _ _ => "\\times "
  | binary .div _ _ => "\\div "
  | binary .pow _ _ => "\\wedge "
  | binary op _ _ => Tex.operator op
  | nary .sum _ => "+"
  | nary .product _ => "\\times"
  | call function primes _ => Tex.functionName function primes ++ "(\\Box)"
  | derivative _ name | derivativeAt _ name _ => Tex.derivative name
  | invalid _ | invalidPart _ _ => "?"
  | e => e.tex

end Expr

end Formulary
