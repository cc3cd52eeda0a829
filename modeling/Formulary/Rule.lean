import Formulary.Expr.Equality
import Formulary.Matching
import Formulary.Substitution
import Formulary.Writing.Tex

/-!
# Rules

A rule puts its replacement in the place of an expression that matches its pattern. Names of the
replacement that do not occur in the pattern cannot be found by matching; they become placeholders
`input1`, `input2` and so on, to be filled in by whoever applies the rule.
-/

namespace Formulary

/-- A rule for replacing expressions. -/
structure Rule where
  /-- What is matched. -/
  pattern : Expr
  /-- What takes the place of an expression that matches. -/
  replacement : Expr
  /-- What the rule does, for a reader. -/
  description : String
  /-- The rule keeps the value of an expression. -/
  valid : Bool
  /-- A rule that is not active is kept but never used. -/
  active : Bool
  /-- The number of the rule in its catalog. -/
  id : Nat
deriving DecidableEq

/-- A rule offered for an expression that matches its pattern. -/
structure Offer where
  /-- The rule. -/
  rule : Rule
  /-- What the names of the rule stand for, placeholders included. -/
  images : Matching.Images
  /-- How many placeholders there are. -/
  placeholders : Nat
  /-- What the rule makes of the expression. -/
  result : Expr
deriving DecidableEq

namespace Rule

/-- A rule that could be applied to an expression: active, and valid if that is asked for. -/
def applies (strict : Bool) (r : Rule) : Bool := r.active && (r.valid || !strict)

/-- The names of the replacement that matching left open. -/
def openNames (r : Rule) (σ : Matching.Images) : List String :=
  r.replacement.dependencies.filter fun name => (σ.lookup name).isNone

/-- Names paired with the placeholders from a number on. -/
def placeholdersFrom : (number : Nat) → List String → Matching.Images
  | _, [] => []
  | number, name :: names =>
    (name, "input" ++ toString number) :: placeholdersFrom (number + 1) names

/-- The offer of a rule, given what the names of its pattern stand for. The texts are read again
when they take the place of the names of the replacement. -/
def offerFor (r : Rule) (σ : Matching.Images) : Offer :=
  let unknown := r.openNames σ
  let images := σ ++ placeholdersFrom 1 unknown
  { rule := r
    images := images
    placeholders := unknown.length
    result := r.replacement.substitute [] (images.map fun (name, text) => (name, .text text)) }

/-- The offer of a rule for an expression, if the expression matches its pattern. -/
def offer? (r : Rule) (e : Expr) : Option Offer := (r.pattern.matches? e).map r.offerFor

end Rule

namespace Offer

/-- The expression after the rule, in canonical form. -/
def text (o : Offer) : String := o.result.text

/-- The expression after the rule, in TeX. -/
def tex (o : Offer) : String := o.result.tex

/-- The rule between its sides in TeX: an equation, or an equivalence between truth values. -/
def equation (o : Offer) : String :=
  let separator := if o.result.valueType = .boolean then " \\iff " else "="
  o.rule.pattern.tex ++ separator ++ o.rule.replacement.tex

end Offer

end Formulary
