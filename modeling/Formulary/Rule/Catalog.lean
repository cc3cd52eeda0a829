import Formulary.Expr.Traversal
import Formulary.Flattening
import Formulary.Report
import Formulary.Rule

/-!
# Catalogs of rules

A catalog is a list of rules, numbered from one. Rules are only ever added at the end; a rule that is
switched off stays where it is.
-/

namespace Formulary

/-- An ordered list of rules. -/
structure Catalog where
  rules : List Rule := []
deriving DecidableEq, Inhabited

namespace Catalog

/-- The texts between the double equals signs of an equation. -/
def splitEquation : List Char → List (List Char)
  | '=' :: '=' :: cs => [] :: splitEquation cs
  | c :: cs =>
    match splitEquation cs with
    | [] => [[c]]
    | side :: sides => (c :: side) :: sides
  | [] => [[]]

/-- The sides of an equation. -/
def sides (equation : String) : List String :=
  (splitEquation equation.toList).map String.ofList

/-- The failure of an equation with a number of sides. -/
def malformed (equation : String) (sides : Nat) : Failure :=
  ⟨⟨0, equation.utf8ByteSize⟩, .malformedRule (sides - 1)⟩

/-- Reads one side of an equation. No name is bound. -/
def readSide (o : Options) (side : String) : Expr :=
  let e := Reading.read { negativeNumbers := o.negativeNumbers } [] side
  if o.flattenOnReading then e.flatten else e

/-- A rule of the catalog has the same pattern, up to the names of the wildcards. -/
def hasPattern (c : Catalog) (pattern : Expr) : Bool :=
  c.rules.any fun r =>
    (r.pattern.matches? pattern).isSome && (pattern.matches? r.pattern).isSome

/-- Adds a rule at the end, unless its pattern is already there. -/
def insert (c : Catalog) (pattern replacement : Expr) (description : String) (valid : Bool) :
    Catalog :=
  if c.hasPattern pattern then c
  else ⟨c.rules ++ [⟨pattern, replacement, description, valid, true, c.rules.length + 1⟩]⟩

/-- Adds the rule that an equation `pattern == replacement` writes and, unless it is a one-way rule,
its reverse. -/
def add (c : Catalog) (o : Options) (equation description : String) (valid oneWay : Bool) :
    Except Failure Catalog :=
  match sides equation with
  | [left, right] =>
    let left := readSide o left
    let right := readSide o right
    match left.firstIssue? <|> right.firstIssue? with
    | some issue => .error issue.toFailure
    | none =>
      let c := c.insert left right description valid
      .ok (if oneWay then c else c.insert right left description valid)
  | sides => .error (malformed equation sides.length)

/-- Switches a rule off if its pattern matches a target, and tells whether it did. -/
def disableFor (target : Expr) (r : Rule) : Rule × Bool :=
  if (r.pattern.matches? target).isSome then ({ r with active := false }, true) else (r, false)

/-- Switches off all rules whose pattern matches the left side of an equation, and counts them. -/
def disable (c : Catalog) (o : Options) (equation : String) : Except Failure (Nat × Catalog) :=
  match sides equation with
  | left :: more =>
    if 1 < more.length then .error (malformed equation (more.length + 1))
    else
      let results := c.rules.map (disableFor (readSide o left))
      .ok (results.countP (·.2), ⟨results.map (·.1)⟩)
  | [] => .ok (0, c)

/-- The offers of all rules that apply to an expression, in order. -/
def offers (c : Catalog) (e : Expr) (strict : Bool) : List Offer :=
  (c.rules.filter (Rule.applies strict)).filterMap (Rule.offer? · e)

end Catalog

end Formulary
