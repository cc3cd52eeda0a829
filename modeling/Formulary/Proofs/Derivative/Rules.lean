import Formulary.Proofs.Derivative.Rational

/-!
# The rules of differentiation over the dual numbers

Each rule puts the derivative of an operation together from its operands and their derivatives. If
every operand and its derivative have the two coefficients of a dual number as their values, then
the result has the second coefficient of the operation on the dual numbers.
-/

namespace Formulary.Derivative

open Exact TrivSqZeroExt DualNumber

variable {I : Interpretation} {σ : Assignment}

/-- An expression and its derivative have the coefficients of a dual number as their values. -/
structure Follows (I : Interpretation) (σ : Assignment) (u : Slope) (a : ℚ[ε]) : Prop where
  value : Denotes I σ u.value a.fst
  slope : Denotes I σ u.slope a.snd

/-! ## Products and quotients -/

/-- The rule for a unary operator gives the slope of the dual operation. -/
theorem denotes_unary {op : UnaryOp} {u : Slope} {a d : ℚ[ε]} (hu : Follows I σ u a)
    (hd : Dual.unary op a = some d) : Denotes I σ (unary op u) d.snd := by
  cases op with
  | plus =>
    rw [Dual.unary, Option.some.injEq] at hd
    rw [← hd]
    exact hu.slope
  | neg =>
    rw [Dual.unary, Option.some.injEq] at hd
    rw [← hd, snd_neg]
    exact hu.slope.negate
  | recip =>
    simp only [Dual.unary, Dual.quotient, Option.ite_none_left_eq_some, Option.some.injEq] at hd
    obtain ⟨hne, rfl⟩ := hd
    have hslope : (1 * a⁻¹ : ℚ[ε]).snd = -(a.snd / (a.fst * a.fst)) := by
      rw [Dual.snd_mul_inv _ _ hne, fst_one, snd_one]
      ring
    rw [hslope]
    exact (hu.slope.quotient (hu.value.times hu.value) (mul_ne_zero hne hne)).negate

/-- Each term replaces one factor by its derivative. The induction is on the factors that are still
to come, and the factors before them go in front of every term. -/
theorem denotes_productTerms {us : List Slope} {as : List ℚ[ε]}
    (h : List.Forall₂ (Follows I σ) us as) {before : List Expr} {qs : List ℚ}
    (hbefore : DenoteAll I σ before qs) :
    ∃ rs, DenoteAll I σ (productTerms before us) rs ∧ rs.sum = qs.prod * as.prod.snd := by
  induction h generalizing before qs with
  | nil => exact ⟨[], .nil, by simp⟩
  | @cons u a us as hu hrest ih =>
    have hvalues : DenoteAll I σ (us.map Slope.value) (as.map fst) := by
      rw [DenoteAll, List.forall₂_map_left_iff, List.forall₂_map_right_iff]
      exact hrest.imp fun _ _ h => h.value
    have hterm : Denotes I σ (product (before ++ u.slope :: us.map Slope.value))
        (qs ++ a.snd :: as.map fst).prod :=
      .product (List.rel_append hbefore (.cons hu.slope hvalues))
    obtain ⟨rs, hrs, hsum⟩ := ih (List.rel_append hbefore (.cons hu.value .nil))
    refine ⟨_, .cons hterm hrs, ?_⟩
    rw [List.sum_cons, hsum, List.prod_append, List.prod_append, List.prod_cons, List.prod_cons,
      List.prod_nil, mul_one, List.prod_cons, DualNumber.snd_mul, Dual.fst_prod]
    ring

/-- The rules for sums and products give the slope of the dual operation. -/
theorem denotes_nary {us : List Slope} {as : List ℚ[ε]} (h : List.Forall₂ (Follows I σ) us as)
    (op : Family) : Denotes I σ (nary op us) (Dual.family op as).snd := by
  cases op with
  | sum =>
    rw [nary, Dual.family, Dual.snd_sum]
    refine .sum ?_
    rw [DenoteAll, List.forall₂_map_left_iff, List.forall₂_map_right_iff]
    exact h.imp fun _ _ h => h.slope
  | product =>
    obtain ⟨rs, hrs, hsum⟩ := denotes_productTerms h .nil
    rw [nary, Dual.family, ← one_mul as.prod.snd, ← List.prod_nil, ← hsum]
    exact .sum hrs

section

variable {constant : Expr → Bool} {x : String} {u v : Slope} {a b : ℚ[ε]}

theorem denotes_product₂ {e f : Expr} {q r : ℚ} (he : Denotes I σ e q) (hf : Denotes I σ f r) :
    Denotes I σ (product [e, f]) (q * r) := by
  have hproduct := Denotes.product (.cons he (.cons hf .nil))
  rwa [List.prod_cons, List.prod_singleton] at hproduct

/-- The rule for a product of two, with the constants left out that it leaves out. -/
theorem denotes_mul (hu : Follows I σ u a) (hv : Follows I σ v b)
    (hleft : constant u.value = true → a.snd = 0) (hright : constant v.value = true → b.snd = 0) :
    Denotes I σ (mul constant u v) (a * b).snd := by
  unfold mul
  rw [DualNumber.snd_mul]
  by_cases hc : constant u.value = true
  · rw [if_pos hc, hleft hc, zero_mul, add_zero]
    exact denotes_product₂ hu.value hv.slope
  · rw [if_neg hc]
    by_cases hd : constant v.value = true
    · rw [if_pos hd, hright hd, mul_zero, zero_add]
      exact denotes_product₂ hu.slope hv.value
    · rw [if_neg hd]
      have hnary := denotes_nary (.cons hu (.cons hv .nil)) .product
      rwa [Dual.family, List.prod_cons, List.prod_singleton, DualNumber.snd_mul] at hnary

/-- The rule for a quotient, with the constants left out that it leaves out. -/
theorem denotes_div (hu : Follows I σ u a) (hv : Follows I σ v b) (hne : b.fst ≠ 0)
    (hleft : constant u.value = true → a.snd = 0) (hright : constant v.value = true → b.snd = 0) :
    Denotes I σ (div constant u v) (a * b⁻¹).snd := by
  unfold div
  rw [Dual.snd_mul_inv _ _ hne]
  have hsquare : b.fst ^ 2 ≠ 0 := pow_ne_zero 2 hne
  by_cases hd : constant v.value = true
  · have hslope : (a.snd * b.fst - a.fst * b.snd) / b.fst ^ 2 = a.snd / b.fst := by
      rw [hright hd]
      field_simp
      ring
    rw [if_pos hd, hslope]
    exact hu.slope.quotient hv.value hne
  · rw [if_neg hd]
    by_cases hc : constant u.value = true
    · have hslope : (a.snd * b.fst - a.fst * b.snd) / b.fst ^ 2 =
          -(a.fst * b.snd / b.fst ^ 2) := by
        rw [hleft hc]
        ring
      rw [if_pos hc, hslope]
      exact ((denotes_product₂ hu.value hv.slope).quotient hv.value.square hsquare).negate
    · rw [if_neg hc]
      exact ((denotes_product₂ hu.slope hv.value).difference
        (denotes_product₂ hu.value hv.slope)).quotient hv.value.square hsquare

/-- The rule for a binary operator gives the slope of the dual operation. -/
theorem denotes_binary {op : BinaryOp} (hop : op.IsArithmetic) (hu : Follows I σ u a)
    (hv : Follows I σ v b) (hleft : constant u.value = true → a.snd = 0)
    (hright : constant v.value = true → b.snd = 0) {d : ℚ[ε]} (hd : Dual.binary op a b = some d) :
    Denotes I σ (binary x constant op u v) d.snd := by
  cases op with
  | add =>
    rw [Dual.binary, Option.some.injEq] at hd
    have hnary := denotes_nary (.cons hu (.cons hv .nil)) .sum
    rwa [Dual.family, List.sum_cons, List.sum_singleton, hd] at hnary
  | sub =>
    rw [Dual.binary, Option.some.injEq] at hd
    rw [← hd, snd_sub]
    exact hu.slope.difference hv.slope
  | mul =>
    rw [Dual.binary, Option.some.injEq] at hd
    rw [← hd]
    exact denotes_mul hu hv hleft hright
  | div =>
    simp only [Dual.binary, Dual.quotient, Option.ite_none_left_eq_some,
      Option.some.injEq] at hd
    rw [← hd.2]
    exact denotes_div hu hv hd.1 hleft hright
  | pow | eq | and | or => exact absurd hop (by decide)

/-! ## Powers and calls -/

/-- The chain rule, without the inner derivative where the argument is the variable. -/
theorem denotes_chain {outer : Expr} {q : ℚ} (houter : Denotes I σ outer q)
    (hu : Follows I σ u a) (hx : u.value = .var x → a.snd = 1) :
    Denotes I σ (chain x outer u) (q * a.snd) := by
  unfold chain
  by_cases hvar : u.value = .var x
  · rw [if_pos hvar, hx hvar]
    have hproduct := Denotes.product (.cons houter .nil)
    rwa [List.prod_singleton, ← mul_one q] at hproduct
  · rw [if_neg hvar]
    exact denotes_product₂ houter hu.slope

/-- An exponent is lowered by one exactly as long as it fits into a word. -/
theorem ofInt_sub_one {n : ℤ} (hn : Word.Fits n) (hpred : Word.Fits (n - 1)) :
    Number.ofInt n - 1 = Number.ofInt (n - 1) := by
  have hone : Word.checked 1 = some 1 := by decide
  have hparts : Number.sub (.exact n) (.exact 1) = Number.ofRatio (n - 1) 1 := by
    simp [Number.sub, Word.checked_eq_some.2 ⟨hn, rfl⟩, Word.checked_eq_some.2 ⟨hpred, rfl⟩, hone,
      Number.ofParts]
  change Number.sub (.exact n) (.exact ((1 : ℕ) : ℤ)) = _
  rw [Nat.cast_one, Int.cast_one, hparts, Number.ofRatio]
  by_cases h0 : n - 1 = 0
  · rw [h0]
    rfl
  · simp [h0, Number.ofInt, Rat.divInt_one]

/-- The power rule. The exponent zero, where the reduced power need not exist, makes the whole
product zero. -/
theorem denotes_pow {n : ℤ} (hu : Follows I σ u a) (hvalue : v.value = .ofInt n)
    (hconstant : constant (.ofInt n) = true) (hn : Word.Fits n) (hpred : Word.Fits (n - 1))
    (hdefined : a.fst ≠ 0 ∨ 0 < n) (hx : u.value = .var x → a.snd = 1) :
    Denotes I σ (pow x constant u v) (Dual.zpow a n).snd := by
  have hreduced : Denotes I σ (power u.value (.ofInt (n - 1))) (a.fst ^ (n - 1)) :=
    hu.value.power hpred (hdefined.imp_right fun h => by omega)
  have hneg : Word.Fits (-n) := by
    unfold Word.Fits Word.least Word.greatest at *
    omega
  have hexponent : Denotes I σ (.ofInt n) n := .ofInt hn hneg
  rw [Dual.snd_zpow a hdefined]
  rw [Expr.ofInt] at hconstant
  simp only [pow, hvalue, hconstant, if_true, Expr.ofInt, ofInt_sub_one hn hpred]
  by_cases hvar : u.value = .var x
  · rw [if_pos hvar, hx hvar, mul_one]
    exact denotes_product₂ hexponent hreduced
  · rw [if_neg hvar]
    have hproduct := Denotes.product (.cons hexponent (.cons hreduced (.cons hu.slope .nil)))
    rwa [List.prod_cons, List.prod_cons, List.prod_singleton, ← mul_assoc] at hproduct

end

end Formulary.Derivative
