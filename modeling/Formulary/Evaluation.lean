import Formulary.Bindings
import Formulary.Derivative

/-!
# Evaluation

`Expr.eval` gives the value of an expression as a double, if it has one. A name that is not bound,
a value outside the domain of a function or a function without a meaning makes everything around it
undefined. Quotients and powers are those of doubles, so infinity and what is not a number are
values.

A derivative operator, a builtin function with primes and a defined function are evaluated through
another expression, and nothing makes such an expression smaller: a defined function may call
itself. `evaluate? depth` therefore goes through at most `depth` of them, one inside the other, and
tells a value that is undefined from a depth that was not enough.

The position of an element in a sequence is found on words, and nobody checks the subtraction. An
index that is not a number traps.
-/

namespace Formulary

namespace Evaluation

/-- Why there is no value. -/
inductive Obstacle where
  /-- The expression has no value. -/
  | undefined
  /-- The evaluation did not end within its depth. -/
  | exhausted
  /-- A step on words that is not checked has no result. -/
  | trapped (trap : Word.Trap)
deriving DecidableEq, Repr

/-- A value, or why there is none. -/
abbrev Outcome := Except Obstacle Float

/-- A partial value as an outcome. -/
def orUndefined : Option Float → Outcome
  | some v => .ok v
  | none => .error .undefined

/-- An expression that could be written out within its depth. -/
def orExhausted : Option Expr → Except Obstacle Expr
  | some e => .ok e
  | none => .error .exhausted

/-- One for what is true, zero for what is false. -/
def truth (b : Bool) : Float := if b then 1 else 0

/-- The value of a special constant. -/
def special? : String → Option Float
  | "e" => some Builtin.e
  | "pi" => some Builtin.pi
  | "inf" => some Double.infinity
  | "dne" => some Double.nan
  | _ => none

/-- The value of a name. A binding comes before the special constant of that name. -/
def name? (b : Bindings) (name : String) : Option Float := b.value? name <|> special? name

/-- The value of a unary operation. -/
def unary : UnaryOp → Float → Float
  | .plus, v => v
  | .neg, v => -v
  | .recip, v => 1 / v

/-- The value of a power. A power with a changing exponent, or a fractional power of a negative
number, goes through the logarithm. -/
def pow (constantExponent : Bool) (base exponent : Float) : Float :=
  if constantExponent && (base ≥ 0 || Double.isWhole exponent) then base.pow exponent
  else (exponent * base.log).exp

/-- The value of a binary operation. Numbers other than zero count as true. -/
def binary (tolerance : Float) (constantRight : Bool) : BinaryOp → Float → Float → Float
  | .add, a, b => a + b
  | .sub, a, b => a - b
  | .mul, a, b => a * b
  | .div, a, b => a / b
  | .pow, a, b => pow constantRight a b
  | .eq, a, b => truth ((a - b).abs < tolerance)
  | .and, a, b => truth (a != 0 && b != 0)
  | .or, a, b => truth (a != 0 || b != 0)

/-- The operation of a family on values. -/
def family : Family → Float → Float → Float
  | .sum, a, b => a + b
  | .product, a, b => a * b

/-- The element of a sequence that an index rounds to, counted from one. An index below one has no
element. The position is one less than the index as an unsigned word; what is not a number is zero as
a word, and nothing can be taken off it. -/
def elementAt (sequence : List Float) (index : Float) : Outcome :=
  let rounded := Double.round index
  if rounded < 1 then .error .undefined
  else
    match Word.subtract rounded.toUInt64.toNat 1 with
    | .ok position => orUndefined sequence[position]?
    | .error trap => .error (.trapped trap)

/-- The bindings for the index of a sequence: its symbol stands for the current row where it has no
value of its own. -/
def withRow? (b : Bindings) (index : Expr) : Option Bindings :=
  match index.dependencies with
  | [] => some b
  | symbol :: _ =>
    match b.value? symbol with
    | some _ => some b
    | none => (b.value? "row").map (b.bind symbol)

/-- The derivative of an expression of a given order. -/
def derivative? (known : Scope) (input : String) (body : Expr) : (order : Nat) → Option Expr
  | 0 => some body
  | order + 1 => do
    let e ← derivative? known input body order
    Derivative.differentiate? (Derivative.depth e) e input known

/-- The derivative by a name that a derivative operator stands for. The other bound names are
constant. -/
def slope? (b : Bindings) (body : Expr) (name : String) : Option Expr :=
  derivative? (b.names.filter (· != name)) name body 1

/-- The value of a function that is not builtin. -/
def defined (again : Bindings → Expr → Outcome) (b : Bindings) (function : String) (primes : Nat)
    (x : Float) : Outcome :=
  match b.functions.get? function with
  | none => .error .undefined
  | some (.standIn s) => .ok (s.value primes x)
  | some (.formula input body) => do
    again (b.bind input x) (← orExhausted (derivative? b.names input body primes))

/-- The value of a builtin function. One with primes is written out at `x`. -/
def builtin (again : Bindings → Expr → Outcome) (function : String) (primes : Nat) (x : Float) :
    Outcome :=
  if primes = 0 then orUndefined (Builtin.value? function x)
  else do
    again { values := [("x", x)] } (← orExhausted (Derivative.closedForm function primes (.var "x")))

end Evaluation

open Evaluation

namespace Expr

mutual

/-- The value of an expression, where `again` evaluates the expressions that stand for others. -/
def evalWith (again : Bindings → Expr → Outcome) (b : Bindings) : Expr → Outcome
  | number n => .ok n.value
  | var name => orUndefined (name? b name)
  | element sequence index =>
    match b.sequence? sequence, withRow? b index with
    | some values, some b => do elementAt values (← index.evalWith again b)
    | _, _ => .error .undefined
  | unary op operand => do
    return Evaluation.unary op (← operand.evalWith again b)
  | binary op lhs rhs => do
    let u ← lhs.evalWith again b
    let v ← rhs.evalWith again b
    return Evaluation.binary b.tolerance rhs.isConstant op u v
  | nary op operands => evalList again b op (Double.ofInt op.identity) operands
  | call function primes argument => do
    let x ← argument.evalWith again b
    if Names.isBuiltin function then builtin again function primes x
    else defined again b function primes x
  | derivative body name => do
    again b (← orExhausted (slope? b body name))
  | derivativeAt body name point => do
    let slope ← orExhausted (slope? b body name)
    again b (slope.substituteName name point)
  | invalid _ | invalidPart _ _ => .error .undefined

/-- The value of an n-ary operation, from the value over the operands before these. -/
def evalList (again : Bindings → Expr → Outcome) (b : Bindings) (op : Family) (before : Float) :
    List Expr → Outcome
  | [] => .ok before
  | e :: es => do
    let v ← e.evalWith again b
    evalList again b op (family op before v) es

end

/-- The value of an expression, if going through at most `depth` other expressions, one inside the
other, is enough. -/
def evaluate? : (depth : Nat) → Bindings → Expr → Outcome
  | 0 => fun b e => evalWith (fun _ _ => .error .exhausted) b e
  | depth + 1 => fun b e => evalWith (evaluate? depth) b e

/-- The expression may be evaluated through another expression. -/
def isIndirect : Expr → Bool
  | derivative _ _ | derivativeAt _ _ _ => true
  | call function primes _ => !Names.isBuiltin function || primes != 0
  | _ => false

/-- How many nodes of an expression may be evaluated through another expression. -/
def indirections (e : Expr) : Nat := e.nodes.countP isIndirect

end Expr

namespace Evaluation

/-- How many levels a function may take of its own: one for its formula, and one for each node of
it that may be evaluated through another expression. -/
def levelsOf : Definition → Nat
  | .formula _ body => body.indirections + 1
  | .standIn _ => 0

/-- How many levels the functions may take together. -/
def definedLevels (fs : Functions) : Nat :=
  fs.entries.foldr (fun entry levels => levelsOf entry.2 + levels) 0

/-- A depth for evaluating an expression. As long as no function calls itself and no operator
captures a name of a point, the nodes of the expression and the functions are levels enough. An
evaluation that has no end goes on for more levels than any machine has room for. -/
def depth (b : Bindings) (e : Expr) : Nat :=
  Nat.pow 2 (48 + (e.indirections + definedLevels b.functions))

end Evaluation

namespace Expr

/-- What the evaluation of an expression ends in. -/
def outcome (b : Bindings) (e : Expr) : Outcome := evaluate? (depth b e) b e

/-- The value of an expression, if it has one and is found within its depth. What traps has none. -/
def eval (b : Bindings) (e : Expr) : Option Float := (e.outcome b).toOption

end Expr

end Formulary
