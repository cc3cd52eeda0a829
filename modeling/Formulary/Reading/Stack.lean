import Formulary.Expr.Names

/-!
# Operands and pending operators

Within one group, operands and operators wait on two stacks. An operator first reduces the waiting
operators that bind at least as tightly into a compound operand; the end of the group reduces all
of them. A unary operator reduces nothing when it comes, and waits at the precedence of a product.
-/

namespace Formulary.Reading

/-- How a formula is read. -/
structure Settings where
  /-- A minus sign before a literal makes it a negative literal. -/
  negativeNumbers : Bool := true
  /-- Literals with a decimal point are an issue. -/
  noDecimals : Bool := false
deriving DecidableEq, Repr

/-- An operator that waits for its last operand. -/
inductive PendingOp where
  | unary (op : UnaryOp)
  | binary (op : BinaryOp)
deriving DecidableEq, Repr

/-- A waiting operator and the region of its token. -/
structure Pending where
  op : PendingOp
  span : Span
deriving DecidableEq, Repr

namespace Pending

/-- The precedence at which an operator waits. -/
def precedence (p : Pending) : Precedence :=
  match p.op with
  | .unary _ => .factor
  | .binary op => op.precedence

/-- The operator stands before its operand. -/
def isUnary (p : Pending) : Bool :=
  match p.op with
  | .unary _ => true
  | .binary _ => false

/-- The character that writes the operator. -/
def symbol (p : Pending) : Char :=
  match p.op with
  | .unary op => op.symbol
  | .binary op => op.symbol

/-- The issue that an operand is missing. -/
def missing (p : Pending) : Issue := ⟨p.span, .missingValue p.symbol⟩

/-- Applies an operator to the operands at the top of the stack, the last one first. Where operands
are missing, the issue takes the place of the result. -/
def apply (negativeNumbers : Bool) (p : Pending) : List Expr → List Expr
  | [] => [.invalid p.missing]
  | last :: operands =>
    match p.op with
    | .unary op =>
      match op, negativeNumbers, last with
      | .neg, true, .number n => .number (-n) :: operands
      | op, _, last => .unary op last :: operands
    | .binary op =>
      match operands with
      | [] => [.invalidPart p.missing last]
      | first :: operands => .binary op first last :: operands

end Pending

/-- The state of reading one group: its operands and waiting operators, the last ones first,
whether the last element read was an operand, and the first issue of the group. -/
structure State where
  operands : List Expr := []
  pending : List Pending := []
  afterOperand : Bool := false
  issue : Option Issue := none

namespace State

/-- Applies waiting operators from the top of the stack until one is to be kept. -/
def reduceUntil (negativeNumbers : Bool) (keep : Pending → Bool) :
    (pending : List Pending) → (operands : List Expr) → List Pending × List Expr
  | [], operands => ([], operands)
  | p :: pending, operands =>
    if keep p then (p :: pending, operands)
    else reduceUntil negativeNumbers keep pending (p.apply negativeNumbers operands)

/-- Applies all waiting operators. -/
def reduceAll (negativeNumbers : Bool) (s : State) : State :=
  { s with
    pending := []
    operands := (reduceUntil negativeNumbers (fun _ => false) s.pending s.operands).2 }

/-- Lets an operator wait, after those that bind at least as tightly have been applied. -/
def wait (negativeNumbers : Bool) (s : State) (p : Pending) : State :=
  let keep (old : Pending) := p.isUnary || decide (old.precedence < p.precedence)
  let (pending, operands) := reduceUntil negativeNumbers keep s.pending s.operands
  { s with pending := p :: pending, operands }

/-- Adds an operand that starts at an offset. Right after another operand it is a factor. -/
def pushOperand (negativeNumbers : Bool) (s : State) (e : Expr) (start : Nat) : State :=
  let s :=
    if s.afterOperand then s.wait negativeNumbers ⟨.binary .mul, ⟨start, start⟩⟩ else s
  { s with operands := e :: s.operands, afterOperand := true }

/-- Records an issue of the group, unless there is an earlier one. -/
def note (s : State) (issue : Issue) : State :=
  { s with issue := s.issue.or (some issue) }

/-- Adds an operator. Where an operand is expected, a minus sign negates, a division sign takes the
reciprocal, and any other operator follows one too many. -/
def pushOperator (negativeNumbers : Bool) (s : State) (op : BinaryOp) (span : Span) : State :=
  let waiting (s : State) (op : PendingOp) : State :=
    { s.wait negativeNumbers ⟨op, span⟩ with afterOperand := false }
  if s.afterOperand then waiting s (.binary op)
  else
    match op with
    | .sub => waiting s (.unary .neg)
    | .div => waiting s (.unary .recip)
    | op => waiting (s.note ⟨span, .consecutiveOperators⟩) (.binary op)

/-- Ends an implicit group that started at the left. -/
def closeImplicit (negativeNumbers : Bool) (s : State) : State :=
  let s := s.reduceAll negativeNumbers
  if s.operands.isEmpty then s else { s with afterOperand := true }

/-- The expression of a group that covers a region. -/
def finish (negativeNumbers : Bool) (s : State) (outer : Span) : Expr :=
  let result :=
    match (s.reduceAll negativeNumbers).operands with
    | [] => .invalid ⟨outer, .emptyExpression⟩
    | e :: _ => e
  match s.issue with
  | some issue => .invalidPart issue result
  | none => result

end State

end Formulary.Reading
