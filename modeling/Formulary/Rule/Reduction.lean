import Formulary.Rule.Catalog

/-!
# Reduction

An expression is reduced from the inside out. Its literals are folded, its parts are reduced, and
then the first rule that matches is applied to it, again and again until none does or the number of
steps is used up. Rules with placeholders are never applied.
-/

namespace Formulary

/-- A rule that was applied. -/
structure Reduction.Step where
  /-- The rule. -/
  rule : Rule
  /-- The expression before it, in canonical form. -/
  before : String
  /-- The expression after it, in canonical form. -/
  after : String
deriving DecidableEq

namespace Reduction

/-- How many rules are applied to an expression at most. -/
def limit : Nat := 256

/-- The first offer that needs nothing to be filled in. -/
def offer? (c : Catalog) (e : Expr) : Option Offer :=
  (c.offers e true).find? (·.placeholders = 0)

/-- Applies the first rule that matches, at most so many times. -/
def applyRules (c : Catalog) : (count : Nat) → Expr → Expr × List Step
  | 0, e => (e, [])
  | count + 1, e =>
    match offer? c e with
    | none => (e, [])
    | some o =>
      let (result, steps) := applyRules c count o.result
      (result, ⟨o.rule, e.text, o.text⟩ :: steps)

/-- Several results, and their steps one after another. -/
def gather (results : List (Expr × List Step)) : List Expr × List Step :=
  (results.map (·.1), results.flatMap (·.2))

/-- Reduces an expression of a height below `fuel`. -/
def reduceWithin (c : Catalog) (o : Options) : (fuel : Nat) → Expr → Expr × List Step
  | 0, e => (e, [])
  | fuel + 1, e =>
    let e := e.fold o
    let (parts, steps) := gather (e.children.map (reduceWithin c o fuel))
    let (result, more) := applyRules c limit (e.withChildren parts)
    (result, steps ++ more)

end Reduction

namespace Expr

/-- The expression reduced by the rules of a catalog, and the steps on the way. Folding may write
a negative literal as a negation, so no branch gets longer than twice the size of the expression. -/
def reduce (c : Catalog) (o : Options) (e : Expr) : Expr × List Reduction.Step :=
  Reduction.reduceWithin c o (2 * e.size + 1) e

end Expr

end Formulary
