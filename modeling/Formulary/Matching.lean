import Formulary.Folding
import Formulary.Writing.Canonical

/-!
# Matching a pattern

The free names of a pattern are wildcards. Matching finds the canonical text of what each of them
stands for; a wildcard that occurs again has to stand for the same text. Everything else in the
pattern has to be there as it is, except that constant parts may be written differently as long as
they fold to the same literal.

A sum or product may have more operands than its pattern. The operands beyond those of the pattern
are grouped with the last one that has a place, or else with the first; other groupings are not
tried.
-/

namespace Formulary

namespace Matching

/-- The canonical texts of what the wildcards stand for. -/
abbrev Images := List (String × String)

/-- A literal of a pattern: the same literal, or a constant that folds to it. -/
def number (pattern : Number) (e : Expr) : Bool :=
  match e with
  | .number n => pattern.same n
  | e => e.isConstant && (e.fold {}).text == (Expr.number pattern).text

/-- A wildcard stands for an expression with a numeric value, and always for the same one. A special
constant only stands for itself. -/
def name (x : String) (e : Expr) (σ : Images) : Option Images :=
  if Names.isSpecial x then (if e.text = x then some σ else none)
  else
    match σ.lookup x with
    | none => if e.valueType = .numeric then some ((x, e.text) :: σ) else none
    | some text => if text = e.text then some σ else none

/-- Two constants that fold to the same literal or the same text. -/
def constant (pattern e : Expr) : Bool :=
  let p := pattern.fold {}
  let e := e.fold {}
  (match p, e with
    | .number m, .number n => m.same n
    | _, _ => false) || p.text == e.text

/-- A group of operands as one operand. -/
def grouped (op : Family) : List Expr → Expr
  | [e] => e
  | es => .nary op es

/-- A number of operands, of which the last takes in all that are left over. -/
def groupedLast (op : Family) (count : Nat) (es : List Expr) : List Expr :=
  es.take (count - 1) ++ [grouped op (es.drop (count - 1))]

/-- A number of operands, of which the first takes in all that are left over. -/
def groupedFirst (op : Family) (count : Nat) (es : List Expr) : List Expr :=
  let more := es.length - count + 1
  grouped op (es.take more) :: es.drop more

/-- Tries the groupings of some operands for a number of places. -/
def groupings (op : Family) (count : Nat) (es : List Expr)
    (attempt : List Expr → Option Images) : Option Images :=
  if count = 0 || es.length < count then none
  else if es.length = count then attempt (groupedLast op count es)
  else attempt (groupedLast op count es) <|> attempt (groupedFirst op count es)

end Matching

namespace Expr

open Matching (Images)

mutual

/-- Matches a pattern with an expression, given what some wildcards already stand for. Nothing
matches what could not be read. -/
def matchFrom (pattern e : Expr) (σ : Images) : Option Images :=
  if e.isInvalid then none
  else
    match pattern with
    | number n => if Matching.number n e then some σ else none
    | var x => Matching.name x e σ
    | element x index =>
      match e with
      | element y index' => if x = y then index.matchFrom index' σ else none
      | _ => none
    | unary op operand =>
      if operand.isConstant && e.isConstant then
        if Matching.constant (unary op operand) e then some σ else none
      else
        match e with
        | unary op' operand' => if op = op' then operand.matchFrom operand' σ else none
        | _ => none
    | binary op lhs rhs =>
      match e with
      | binary op' lhs' rhs' =>
        if op = op' then do
          let σ ← lhs.matchFrom lhs' σ
          rhs.matchFrom rhs' σ
        else none
      | _ => none
    | nary op operands =>
      match e with
      | nary op' operands' =>
        if op = op' then
          Matching.groupings op operands.length operands' fun es => matchListFrom operands es σ
        else none
      | _ => none
    | call f m argument =>
      match e with
      | call g n argument' =>
        if f = g ∧ m = n then argument.matchFrom argument' σ else none
      | _ => none
    | derivative body x =>
      match e with
      | derivative body' y => if x = y then body.matchFrom body' σ else none
      | _ => none
    | derivativeAt body x point =>
      match e with
      | derivativeAt body' y point' =>
        if x = y then do
          let σ ← body.matchFrom body' σ
          point.matchFrom point' σ
        else none
      | _ => none
    | invalid _ | invalidPart _ _ => none

/-- Matches patterns with as many expressions, one after another. -/
def matchListFrom (patterns es : List Expr) (σ : Images) : Option Images :=
  match patterns, es with
  | [], [] => some σ
  | pattern :: patterns, e :: es => do
    let σ ← pattern.matchFrom e σ
    matchListFrom patterns es σ
  | _, _ => none

end

/-- Matches a pattern with an expression. -/
def matches? (pattern e : Expr) : Option Images := pattern.matchFrom e []

end Expr

end Formulary
