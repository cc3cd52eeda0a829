import Formulary.Evaluation
import Formulary.Flattening
import Formulary.Odometer

/-!
# Comparison by sampling

Two expressions count as equal if their values agree at every point of a grid that spans their free
names. The number of points for each name is fixed, so expressions that only differ between the
points of the grid count as equal too.

If the shape counts as well, both have to be sums or differences, or both products or quotients, and
their operands have to pair off.
-/

namespace Formulary

/-- The values that are sampled for a name. -/
structure Domain where
  least : Float
  greatest : Float
deriving DecidableEq, Inhabited

/-- How two expressions are compared. -/
structure Comparison where
  /-- The relative tolerance for two finite values. -/
  tolerance : Float := 1e-8
  /-- Domains of particular names. -/
  domains : List (String × Domain) := []
  /-- The domain of every other name. -/
  defaultDomain : Domain := ⟨-2, 2⟩
  /-- The number of points for each name. -/
  points : Nat := 11
  /-- The shape counts as well. -/
  shape : Bool := false
deriving DecidableEq, Inhabited

namespace Comparison

/-- Finite values below this magnitude always agree with each other. -/
def nearZero : Float := 1e-12

/-- Two values agree within a relative tolerance. A finite value agrees with no other; infinities
agree if they are the same, and all that is not a number agrees. -/
def agree (tolerance a b : Float) : Bool :=
  match a.isFinite, b.isFinite with
  | true, true =>
    (a.abs < nearZero && b.abs < nearZero) || (a - b).abs / a.abs ≤ tolerance
  | false, false => (a.isNaN && b.isNaN) || a == b
  | _, _ => false

/-- Evenly spaced points of a domain, at least two; the last one is exactly its end. -/
def samples (points : Nat) (d : Domain) : List Float :=
  let intervals := max points 2 - 1
  let step := (d.greatest - d.least) / Double.ofInt intervals
  (List.range intervals).map (fun (j : Nat) => d.least + Double.ofInt j * step) ++ [d.greatest]

/-- The points that are sampled for a name. -/
def grid (c : Comparison) (name : String) : List Float :=
  samples c.points ((c.domains.lookup name).getD c.defaultDomain)

/-- The names to be sampled, in order of first appearance: the free names of both expressions that
have no value yet. -/
def freeNames (b : Bindings) (u v : Expr) : List String :=
  ((u.dependencies ++ v.dependencies).filter fun name => (b.value? name).isNone).eraseDups

theorem grid_ne_nil (c : Comparison) (name : String) : c.grid name ≠ [] :=
  List.append_ne_nil_of_right_ne_nil _ (List.cons_ne_nil _ _)

/-- The grids of some names as wheels, each of which shows its first point. -/
def wheels (c : Comparison) (names : List String) : List (Wheel Float) :=
  names.map fun name => .first (c.grid name) (c.grid_ne_nil name)

/-- Binds names to the points that wheels show. -/
def sample (b : Bindings) (names : List String) (wheels : List (Wheel Float)) : Bindings :=
  (names.zip (wheels.map Wheel.entry)).foldl (fun b (name, v) => b.bind name v) b

/-- The values of two expressions are related. What has no value counts as not a number, also where
it traps. -/
def valuesRelated (related : Float → Float → Bool) (u v : Expr) (b : Bindings) : Bool :=
  related ((u.eval b).getD Double.nan) ((v.eval b).getD Double.nan)

/-- The values of two expressions are related on the whole grid. An odometer with a wheel for each
name goes through its points. -/
def relatedOnGrid (related : Float → Float → Bool) (c : Comparison) (b : Bindings) (u v : Expr) :
    Bool :=
  let names := freeNames b u v
  Odometer.everywhere (fun wheels => valuesRelated related u v (sample b names wheels))
    (c.wheels names)

/-- The values of two expressions agree on the whole grid. -/
def sameValues (c : Comparison) (b : Bindings) (u v : Expr) : Bool :=
  c.relatedOnGrid (agree c.tolerance) b u v

/-- Pairs off two lists: each entry of the second takes the first entry left in the first one that
is related to it. -/
def pairOff (related : Expr → Expr → Bool) : List Expr → List Expr → Bool
  | us, [] => us.isEmpty
  | us, v :: vs =>
    us.any (related · v) && pairOff related (us.eraseP (related · v)) vs

/-- Two expressions belong to the same family of operators, if to any, and their operands pair
off. -/
def sameShape (c : Comparison) (b : Bindings) (u v : Expr) : Bool :=
  u.family? == v.family? &&
    (u.family?.isNone ||
      (u.flatOperands.length == v.flatOperands.length &&
        pairOff (c.sameValues b) u.flatOperands v.flatOperands))

/-- Two expressions count as equal. -/
def equal (c : Comparison) (b : Bindings) (u v : Expr) : Bool :=
  c.sameValues b u v && (!c.shape || c.sameShape b u v)

end Comparison

end Formulary
