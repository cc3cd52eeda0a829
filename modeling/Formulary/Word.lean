/-!
# The range of signed 64-bit integers

Exact arithmetic is done on `Int`; what does not fit into a signed 64-bit word is refused by
`Word.checked`, so nothing ever wraps. `Word.clamp` is for conversions that saturate instead. A step
that nobody checks stops the program where its result is no word: it ends in a `Word.Trap`.
-/

namespace Formulary.Word

/-- The least signed 64-bit integer, `-2 ^ 63`. -/
def least : Int := -9223372036854775808

/-- The greatest signed 64-bit integer, `2 ^ 63 - 1`. -/
def greatest : Int := 9223372036854775807

/-- The integer is a signed 64-bit word. -/
def Fits (n : Int) : Prop := least ≤ n ∧ n ≤ greatest

instance (n : Int) : Decidable (Fits n) := inferInstanceAs (Decidable (_ ∧ _))

/-- The integer itself, if it is a signed 64-bit word. -/
def checked (n : Int) : Option Int := if Fits n then some n else none

/-- The signed 64-bit word nearest to an integer. -/
def clamp (n : Int) : Int := max least (min greatest n)

/-- What stops a step that is not checked. -/
inductive Trap where
  | overflow
  | zeroDivisor
deriving DecidableEq, Repr

/-- The sum of two signed words. -/
def sum (a b : Int) : Except Trap Int := if Fits (a + b) then .ok (a + b) else .error .overflow

/-- The difference of two signed words. -/
def difference (a b : Int) : Except Trap Int :=
  if Fits (a - b) then .ok (a - b) else .error .overflow

/-- The difference of two unsigned words. -/
def subtract (n d : Nat) : Except Trap Nat := if d ≤ n then .ok (n - d) else .error .overflow

/--
The power of an integer, if it is a signed 64-bit word. A base of magnitude two or more leaves the
range before the exponent reaches 64, and a smaller base only looks at the parity of the exponent,
so no large power is ever formed.
-/
def power? (base : Int) (exponent : Nat) : Option Int :=
  if base.natAbs ≤ 1 then
    some (Int.pow base (if exponent = 0 then 0 else 2 - exponent % 2))
  else if exponent < 64 then
    checked (Int.pow base exponent)
  else
    none

theorem checked_eq_some {n m : Int} : checked n = some m ↔ Fits n ∧ m = n := by
  unfold checked
  split <;> simp_all [eq_comm]

theorem clamp_eq_self {n : Int} (h : Fits n) : clamp n = n := by
  simp only [Fits, clamp, least, greatest] at *
  omega

end Formulary.Word
