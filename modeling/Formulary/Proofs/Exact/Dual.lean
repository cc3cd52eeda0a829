import Formulary.Expr.Names
import Formulary.Proofs.Exact.Value
import Mathlib

/-!
# Values over the dual numbers

The value of an expression over the dual numbers `q + q' * ε`, where `ε ^ 2 = 0`. With `x + ε` in
the place of a name `x`, the coefficient of `ε` is the derivative of the value with respect to `x`.
An unknown function is a family of total functions, each the derivative of the one before, and acts
on a dual number by its first two Taylor coefficients.
-/

namespace Formulary.Exact

open TrivSqZeroExt DualNumber

/-- The derivatives of the unknown functions, of every order. -/
abbrev Derivatives := String → Nat → ℚ → ℚ

/-- The unknown functions as an interpretation. No sequence and no derivative operator has a
meaning. -/
def Derivatives.interpretation (F : Derivatives) : Interpretation where
  function f primes q := some (F f primes q)
  sequence _ _ := none
  slope _ _ _ := none

namespace Dual

/-! ## Operations -/

/-- The value of a function of some order at a dual number. -/
def apply (F : Derivatives) (f : String) (primes : Nat) (u : ℚ[ε]) : ℚ[ε] :=
  inl (F f primes u.fst) + inr (F f (primes + 1) u.fst * u.snd)

/-- A quotient. -/
def quotient (u v : ℚ[ε]) : Option ℚ[ε] := if v.fst = 0 then none else some (u * v⁻¹)

/-- An integer power. -/
def zpow (u : ℚ[ε]) (n : ℤ) : ℚ[ε] := if 0 ≤ n then u ^ n.toNat else u⁻¹ ^ (-n).toNat

/-- A power with a constant integer exponent. -/
def power (u v : ℚ[ε]) : Option ℚ[ε] :=
  if (v.snd = 0 ∧ v.fst.den = 1) ∧ (u.fst ≠ 0 ∨ 0 < v.fst.num) then some (zpow u v.fst.num)
  else none

/-- The value of a unary operation. -/
def unary : UnaryOp → ℚ[ε] → Option ℚ[ε]
  | .plus, u => some u
  | .neg, u => some (-u)
  | .recip, u => quotient 1 u

/-- The value of a binary operation. Truth values have none. -/
def binary : BinaryOp → ℚ[ε] → ℚ[ε] → Option ℚ[ε]
  | .add, u, v => some (u + v)
  | .sub, u, v => some (u - v)
  | .mul, u, v => some (u * v)
  | .div, u, v => quotient u v
  | .pow, u, v => power u v
  | .eq, _, _ | .and, _, _ | .or, _, _ => none

/-- The value of an n-ary operation. -/
def family : Family → List ℚ[ε] → ℚ[ε]
  | .sum, us => us.sum
  | .product, us => us.prod

/-! ## Values -/

/-- An assignment with `q + ε` for the value `q` of one name. -/
def perturb (σ : Assignment) (x : String) (name : String) : Option ℚ[ε] :=
  (σ name).map fun q => if name = x then inl q + ε else inl q

mutual

/-- The value of an expression over the dual numbers. -/
def value (F : Derivatives) (ρ : String → Option ℚ[ε]) : Expr → Option ℚ[ε]
  | .number n => (literal n).map inl
  | .var name => ρ name
  | .unary op operand => do unary op (← value F ρ operand)
  | .binary op lhs rhs => do binary op (← value F ρ lhs) (← value F ρ rhs)
  | .nary op operands => do return family op (← values F ρ operands)
  | .call function primes argument => do
    return apply F function primes (← value F ρ argument)
  | .element _ _ | .derivative _ _ | .derivativeAt _ _ _ | .invalid _ | .invalidPart _ _ => none

/-- The values of several expressions over the dual numbers. -/
def values (F : Derivatives) (ρ : String → Option ℚ[ε]) : List Expr → Option (List ℚ[ε])
  | [] => some []
  | e :: es => do return (← value F ρ e) :: (← values F ρ es)

end

/-! ## Coefficients -/

section

variable (u v : ℚ[ε]) (F : Derivatives) (f : String) (primes : Nat)

@[simp] theorem fst_apply : (apply F f primes u).fst = F f primes u.fst := by
  simp [apply]

@[simp] theorem snd_apply : (apply F f primes u).snd = F f (primes + 1) u.fst * u.snd := by
  simp [apply]

theorem fst_mul_inv : (u * v⁻¹).fst = u.fst / v.fst := by
  rw [fst_mul, fst_inv, div_eq_mul_inv]

theorem snd_mul_inv (hv : v.fst ≠ 0) :
    (u * v⁻¹).snd = (u.snd * v.fst - u.fst * v.snd) / v.fst ^ 2 := by
  rw [DualNumber.snd_mul, snd_inv, fst_inv]
  simp only [smul_eq_mul, MulOpposite.smul_eq_mul_unop, MulOpposite.unop_op]
  field_simp
  ring

theorem fst_zpow (n : ℤ) : (zpow u n).fst = u.fst ^ n := by
  unfold zpow
  by_cases hn : 0 ≤ n
  · rw [if_pos hn, fst_pow, ← zpow_natCast, Int.toNat_of_nonneg hn]
  · rw [if_neg hn, fst_pow, fst_inv, ← zpow_natCast, Int.toNat_of_nonneg (by omega), inv_zpow,
      zpow_neg, inv_inv]

/-- The power rule. At zero it needs a positive exponent. -/
theorem snd_zpow {n : ℤ} (h : u.fst ≠ 0 ∨ 0 < n) :
    (zpow u n).snd = n * u.fst ^ (n - 1) * u.snd := by
  unfold zpow
  by_cases hn : 0 ≤ n
  · rw [if_pos hn, snd_pow, nsmul_eq_mul, smul_eq_mul, ← mul_assoc]
    obtain rfl | hpos := hn.eq_or_lt
    · simp
    · have hpred : ((n.toNat.pred : ℕ) : ℤ) = n - 1 := by
        rw [Nat.pred_eq_sub_one]
        omega
      have hcast : ((n.toNat : ℕ) : ℚ) = n := by
        rw [← Int.cast_natCast, Int.toNat_of_nonneg hn]
      rw [← zpow_natCast u.fst, hpred, hcast]
  · have hu : u.fst ≠ 0 := h.resolve_right (by omega)
    obtain ⟨m, rfl⟩ : ∃ m : ℕ, n = -(m + 1 : ℕ) := ⟨(-n).toNat - 1, by omega⟩
    rw [if_neg hn, neg_neg, Int.toNat_natCast, snd_pow, nsmul_eq_mul, smul_eq_mul, fst_inv, snd_inv]
    simp only [smul_eq_mul, MulOpposite.smul_eq_mul_unop, MulOpposite.unop_op, Nat.pred_succ]
    have hexp : (-((m + 1 : ℕ) : ℤ) - 1) = -((m + 2 : ℕ) : ℤ) := by
      push_cast
      ring
    rw [hexp, zpow_neg, zpow_natCast, inv_pow]
    push_cast
    field_simp
    ring

end

theorem fst_sum (us : List ℚ[ε]) : us.sum.fst = (us.map fst).sum := by
  induction us with
  | nil => rfl
  | cons u us ih => rw [List.sum_cons, fst_add, ih, List.map_cons, List.sum_cons]

theorem snd_sum (us : List ℚ[ε]) : us.sum.snd = (us.map snd).sum := by
  induction us with
  | nil => rfl
  | cons u us ih => rw [List.sum_cons, snd_add, ih, List.map_cons, List.sum_cons]

theorem fst_prod (us : List ℚ[ε]) : us.prod.fst = (us.map fst).prod := by
  induction us with
  | nil => rfl
  | cons u us ih => rw [List.prod_cons, fst_mul, ih, List.map_cons, List.prod_cons]

end Dual

end Formulary.Exact
