import Formulary.Expr
import Mathlib.Algebra.Field.Rat
import Mathlib.Algebra.GroupWithZero.Units.Basic
import Mathlib.Data.List.Forall2

/-!
# Exact values

The value of an expression over the rational numbers. It is undefined where a divisor is zero, for
a power whose exponent is not an integer, and for a power of zero whose exponent is not positive.
Truth values are zero and one.

What the functions, the sequences and the derivative operators stand for is left open: an
`Interpretation` gives them as partial functions. A derivative operator sees the expression below it
only through its values at all assignments.
-/

namespace Formulary.Exact

/-! ## Operations -/

/-- What is true counts as one, what is false as zero. -/
def truth (p : Prop) [Decidable p] : ℚ := if p then 1 else 0

/-- A power with an integer exponent. -/
def power (q r : ℚ) : Option ℚ :=
  if r.den = 1 ∧ (q ≠ 0 ∨ 0 < r.num) then some (q ^ r.num) else none

/-- A quotient. -/
def quotient (q r : ℚ) : Option ℚ := if r = 0 then none else some (q / r)

/-- The value of a unary operation. -/
def unary : UnaryOp → ℚ → Option ℚ
  | .plus, q => some q
  | .neg, q => some (-q)
  | .recip, q => quotient 1 q

/-- The value of a binary operation. -/
def binary : BinaryOp → ℚ → ℚ → Option ℚ
  | .add, q, r => some (q + r)
  | .sub, q, r => some (q - r)
  | .mul, q, r => some (q * r)
  | .div, q, r => quotient q r
  | .pow, q, r => power q r
  | .eq, q, r => some (truth (q = r))
  | .and, q, r => some (truth (q ≠ 0 ∧ r ≠ 0))
  | .or, q, r => some (truth (q ≠ 0 ∨ r ≠ 0))

/-- The value of an n-ary operation. -/
def family : Family → List ℚ → ℚ
  | .sum, qs => qs.sum
  | .product, qs => qs.prod

/-! ## Values -/

/-- What the names stand for. -/
abbrev Assignment := String → Option ℚ

/-- The assignment with another value for a name. -/
def Assignment.set (ρ : Assignment) (name : String) (q : ℚ) : Assignment :=
  fun other => if other = name then some q else ρ other

/-- What the functions, the sequences and the derivative operators stand for. -/
structure Interpretation where
  /-- The derivative of a function of some order, at an argument. -/
  function : String → Nat → ℚ → Option ℚ
  /-- The element of a sequence at an index. -/
  sequence : String → ℚ → Option ℚ
  /-- The derivative by a name of a quantity that depends on an assignment. -/
  slope : (Assignment → Option ℚ) → String → Assignment → Option ℚ

/-- The value of a literal; a double has none. -/
def literal : Number → Option ℚ
  | .exact r => some r
  | .real _ => none

mutual

/-- The exact value of an expression. -/
def value (I : Interpretation) : Expr → Assignment → Option ℚ
  | .number n, _ => literal n
  | .var name, ρ => ρ name
  | .element sequence index, ρ => do I.sequence sequence (← value I index ρ)
  | .unary op operand, ρ => do unary op (← value I operand ρ)
  | .binary op lhs rhs, ρ => do binary op (← value I lhs ρ) (← value I rhs ρ)
  | .nary op operands, ρ => do return family op (← values I operands ρ)
  | .call function primes argument, ρ => do I.function function primes (← value I argument ρ)
  | .derivative body name, ρ => I.slope (value I body) name ρ
  | .derivativeAt body name point, ρ => do
    I.slope (value I body) name (ρ.set name (← value I point ρ))
  | .invalid _, _ | .invalidPart _ _, _ => none

/-- The exact values of several expressions. -/
def values (I : Interpretation) : List Expr → Assignment → Option (List ℚ)
  | [], _ => some []
  | e :: es, ρ => do return (← value I e ρ) :: (← values I es ρ)

end

/-- Working through a list one by one succeeds if every step does. -/
theorem eq_some_iff_forall₂ {α β : Type} {step : α → Option β} (run : List α → Option (List β))
    (hnil : run [] = some [])
    (hcons : ∀ a as, run (a :: as) = do return (← step a) :: (← run as)) {as : List α}
    {bs : List β} : run as = some bs ↔ List.Forall₂ (fun a b => step a = some b) as bs := by
  induction as generalizing bs with
  | nil => simp [hnil, eq_comm]
  | cons a as ih =>
    rw [hcons]
    constructor
    · intro h
      simp only [Option.bind_eq_bind, Option.bind_eq_some_iff, Option.pure_def,
        Option.some.injEq] at h
      obtain ⟨b, hb, rest, hrest, rfl⟩ := h
      exact .cons hb (ih.1 hrest)
    · rintro (_ | ⟨hb, hrest⟩)
      simp [hb, ih.2 hrest]

theorem values_eq_some {I : Interpretation} {ρ : Assignment} {es : List Expr} {qs : List ℚ} :
    values I es ρ = some qs ↔ List.Forall₂ (fun e q => value I e ρ = some q) es qs := by
  refine eq_some_iff_forall₂ (fun es => values I es ρ) ?_ fun e es => ?_
  · rw [values]
  · rw [values]

/-! ## Powers and reciprocals -/

/-- The power of a reciprocal is the reciprocal of the power, and both exist together. -/
theorem power_reciprocal (q r : ℚ) :
    (quotient 1 q >>= fun p => power p r) = (power q r >>= quotient 1) := by
  unfold quotient power
  by_cases hq : q = 0
  · subst hq
    by_cases hr : r.den = 1 ∧ 0 < r
    · simp [hr, zero_zpow _ (Rat.num_pos.2 hr.2).ne']
    · simp [hr]
  · have hinv : 1 / q ≠ 0 := one_div_ne_zero hq
    by_cases hr : r.den = 1
    · simp [hr, hq, zpow_ne_zero]
    · simp [hr, hq]

end Formulary.Exact
