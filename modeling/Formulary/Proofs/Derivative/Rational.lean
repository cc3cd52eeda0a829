import Formulary.Proofs.Derivative.Denotation
import Formulary.Proofs.Exact.Dual
import Formulary.Proofs.Expr.Traversal

/-!
# Rational expressions

The expressions built from literals, names, the operations of arithmetic, powers with an integer
exponent and calls of unknown functions. Over the dual numbers they are defined where they are
defined over the rational numbers: the first coefficient is the value, and the second one is zero
if the name does not occur.
-/

namespace Formulary

open Exact TrivSqZeroExt DualNumber

/-- The operation is one of the four operations of arithmetic. -/
def BinaryOp.IsArithmetic (op : BinaryOp) : Prop := op ∈ [add, sub, mul, div]

instance (op : BinaryOp) : Decidable op.IsArithmetic := inferInstanceAs (Decidable (_ ∈ _))

/-- An expression over literals, names and unknown functions. Its literals may be negated without
leaving the exact numbers, and the exponents of its powers may be lowered by one. -/
inductive Expr.Rational : Expr → Prop
  | number {r : ℚ} (h : Tame r) : Rational (.number (.exact r))
  | var (name : String) : Rational (.var name)
  | unary (op : UnaryOp) {u : Expr} (h : Rational u) : Rational (.unary op u)
  | binary {op : BinaryOp} (hop : op.IsArithmetic) {u v : Expr} (hu : Rational u)
    (hv : Rational v) : Rational (.binary op u v)
  | nary (op : Family) {es : List Expr} (h : ∀ e ∈ es, Rational e) : Rational (.nary op es)
  | power {u : Expr} {n : ℤ} (hu : Rational u) (hn : Word.Fits n) (hpred : Word.Fits (n - 1)) :
    Rational (.binary .pow u (.ofInt n))
  | call {f : String} (hf : Names.isBuiltin f = false) (primes : Nat) {u : Expr}
    (h : Rational u) : Rational (.call f primes u)

namespace Expr

variable {e : Expr}

/-- The literals of a rational expression are tame. -/
theorem Rational.clear (h : Rational e) : Derivative.Clear e := by
  induction h with
  | number h => exact .number h
  | var name => exact .var name
  | unary op _ ih => exact .unary op ih
  | @binary op _ u v _ _ ihu ihv =>
    by_cases hmul : op = .mul
    · subst hmul
      exact .mul ihu ihv
    · exact .binary hmul u v
  | nary op _ ih => exact .nary op ih
  | @power u n _ _ _ _ => exact .binary (by decide) u _
  | @call f _ primes u _ _ => exact .call f primes u

end Expr

/-! ## The coefficients of the value over the dual numbers -/

namespace Exact.Dual

theorem values_eq_some {F : Derivatives} {ρ : String → Option ℚ[ε]} {es : List Expr}
    {ds : List ℚ[ε]} :
    values F ρ es = some ds ↔ List.Forall₂ (fun e d => value F ρ e = some d) es ds := by
  refine eq_some_iff_forall₂ (fun es => values F ρ es) ?_ fun e es => ?_
  · rw [values]
  · rw [values]

variable {F : Derivatives} {σ : Assignment} {x : String} {e : Expr}

/-- The value of a quotient of dual numbers is that of the quotient of the values. -/
theorem map_fst_quotient (a b : ℚ[ε]) :
    (quotient a b).map fst = Exact.quotient a.fst b.fst := by
  unfold quotient Exact.quotient
  by_cases hb : b.fst = 0
  · simp [hb]
  · simp only [hb, if_false, Option.map_some, fst_mul_inv]

theorem map_fst_unary (op : UnaryOp) (a : ℚ[ε]) :
    (unary op a).map fst = Exact.unary op a.fst := by
  cases op with
  | plus => rfl
  | neg => rfl
  | recip => exact map_fst_quotient 1 a

/-- The value of an operation on dual numbers is that of the operation on the values. -/
theorem map_fst_binary {op : BinaryOp} (hop : op.IsArithmetic) (a b : ℚ[ε]) :
    (binary op a b).map fst = Exact.binary op a.fst b.fst := by
  cases op with
  | add => rfl
  | sub => rfl
  | mul => rfl
  | div => exact map_fst_quotient a b
  | pow | eq | and | or => exact absurd hop (by decide)

theorem map_fst_power (a : ℚ[ε]) (n : ℤ) :
    (power a (inl n)).map fst = Exact.power a.fst n := by
  unfold power Exact.power
  simp only [fst_inl, snd_inl, Rat.den_intCast, Rat.num_intCast, true_and]
  by_cases h : a.fst ≠ 0 ∨ 0 < n
  · simp only [h, if_true, Option.map_some, fst_zpow]
  · simp only [h, if_false, Option.map_none]

theorem fst_family (op : Family) (ds : List ℚ[ε]) :
    (family op ds).fst = Exact.family op (ds.map fst) := by
  cases op with
  | sum => exact fst_sum ds
  | product => exact fst_prod ds

/-- The first coefficient is the value itself; both are defined at the same assignments. -/
theorem map_fst_value (he : e.Rational) :
    (value F (perturb σ x) e).map fst = Exact.value F.interpretation e σ := by
  induction he with
  | number h => rfl
  | var name =>
    simp only [value, perturb, Exact.value, Option.map_map]
    cases σ name with
    | none => rfl
    | some q => by_cases h : name = x <;> simp [h]
  | @unary op u _ ih =>
    simp only [value, Exact.value, ← ih]
    cases value F (perturb σ x) u with
    | none => rfl
    | some a => exact map_fst_unary op a
  | @binary op hop u v _ _ ihu ihv =>
    simp only [value, Exact.value, ← ihu, ← ihv]
    cases value F (perturb σ x) u with
    | none => rfl
    | some a =>
      cases value F (perturb σ x) v with
      | none => rfl
      | some b => exact map_fst_binary hop a b
  | @nary op es hall ih =>
    have hvalues : (values F (perturb σ x) es).map (List.map fst) =
        Exact.values F.interpretation es σ := by
      clear hall
      induction es with
      | nil => rfl
      | cons e es ihes =>
        have hrest := ihes fun e he => ih e (List.mem_cons_of_mem _ he)
        simp only [values, Exact.values, ← ih e List.mem_cons_self, ← hrest]
        cases value F (perturb σ x) e with
        | none => rfl
        | some a => cases values F (perturb σ x) es <;> rfl
    simp only [value, Exact.value, ← hvalues]
    cases values F (perturb σ x) es with
    | none => rfl
    | some ds => exact congrArg some (fst_family op ds)
  | @power u n _ _ _ ih =>
    simp only [value, Exact.value, Expr.ofInt, ← ih]
    cases value F (perturb σ x) u with
    | none => rfl
    | some a => exact map_fst_power a n
  | @call f _ primes u _ ih =>
    simp only [value, Exact.value, ← ih]
    cases value F (perturb σ x) u with
    | none => rfl
    | some a => simp [Derivatives.interpretation]

theorem snd_prod_eq_zero {ds : List ℚ[ε]} (h : ∀ d ∈ ds, d.snd = 0) : ds.prod.snd = 0 := by
  induction ds with
  | nil => rfl
  | cons d ds ih =>
    rw [List.prod_cons, DualNumber.snd_mul, h d List.mem_cons_self,
      ih fun d hd => h d (List.mem_cons_of_mem _ hd), mul_zero, zero_mul, add_zero]

theorem snd_mul_inv_eq_zero {a b : ℚ[ε]} (ha : a.snd = 0) (hb : b.snd = 0) :
    (a * b⁻¹).snd = 0 := by
  rw [DualNumber.snd_mul, snd_inv, ha, hb]
  simp

theorem snd_unary_eq_zero {op : UnaryOp} {a d : ℚ[ε]} (ha : a.snd = 0)
    (hd : unary op a = some d) : d.snd = 0 := by
  cases op with
  | plus =>
    rw [unary, Option.some.injEq] at hd
    rwa [← hd]
  | neg =>
    rw [unary, Option.some.injEq] at hd
    rw [← hd, snd_neg, ha, neg_zero]
  | recip =>
    simp only [unary, quotient, Option.ite_none_left_eq_some, Option.some.injEq] at hd
    rw [← hd.2]
    exact snd_mul_inv_eq_zero snd_one ha

theorem snd_binary_eq_zero {op : BinaryOp} (hop : op.IsArithmetic) {a b d : ℚ[ε]}
    (ha : a.snd = 0) (hb : b.snd = 0) (hd : binary op a b = some d) : d.snd = 0 := by
  cases op with
  | add =>
    rw [binary, Option.some.injEq] at hd
    rw [← hd, snd_add, ha, hb, add_zero]
  | sub =>
    rw [binary, Option.some.injEq] at hd
    rw [← hd, snd_sub, ha, hb, sub_zero]
  | mul =>
    rw [binary, Option.some.injEq] at hd
    rw [← hd, DualNumber.snd_mul, ha, hb, mul_zero, zero_mul, add_zero]
  | div =>
    simp only [binary, quotient, Option.ite_none_left_eq_some, Option.some.injEq] at hd
    rw [← hd.2]
    exact snd_mul_inv_eq_zero ha hb
  | pow | eq | and | or => exact absurd hop (by decide)

theorem snd_family_eq_zero (op : Family) {ds : List ℚ[ε]} (h : ∀ d ∈ ds, d.snd = 0) :
    (family op ds).snd = 0 := by
  cases op with
  | sum =>
    rw [family, snd_sum]
    refine List.sum_eq_zero fun q hq => ?_
    obtain ⟨d, hd, rfl⟩ := List.mem_map.1 hq
    exact h d hd
  | product => exact snd_prod_eq_zero h

/-- An expression without the name does not change with it. -/
theorem snd_eq_zero (he : e.Rational) (hx : x ∉ e.occurrences)
    (hspecial : Names.isSpecial x = false) {d : ℚ[ε]} (hd : value F (perturb σ x) e = some d) :
    d.snd = 0 := by
  induction he generalizing d with
  | number h =>
    simp only [value, literal, Option.map_some, Option.some.injEq] at hd
    rw [← hd, snd_inl]
  | var name =>
    have hne : name ≠ x := by
      rintro rfl
      simp [Expr.occurrences, hspecial] at hx
    obtain ⟨q, -, rfl⟩ := Option.map_eq_some_iff.1 hd
    rw [if_neg hne, snd_inl]
  | @unary op u _ ih =>
    simp only [value, Option.bind_eq_bind, Option.bind_eq_some_iff] at hd
    obtain ⟨a, ha, hd⟩ := hd
    exact snd_unary_eq_zero (ih hx ha) hd
  | @binary op hop u v _ _ ihu ihv =>
    simp only [value, Option.bind_eq_bind, Option.bind_eq_some_iff] at hd
    obtain ⟨a, ha, b, hb, hd⟩ := hd
    rw [Expr.occurrences, List.mem_append, not_or] at hx
    exact snd_binary_eq_zero hop (ihu hx.1 ha) (ihv hx.2 hb) hd
  | @nary op es _ ih =>
    simp only [value, Option.bind_eq_bind, Option.bind_eq_some_iff, Option.pure_def,
      Option.some.injEq] at hd
    obtain ⟨ds, hds, rfl⟩ := hd
    refine snd_family_eq_zero op fun d hd => ?_
    obtain ⟨e, he, hvalue⟩ := exists_of_forall₂ (values_eq_some.1 hds).flip hd
    refine ih e he (fun hmem => hx ?_) hvalue
    rw [Expr.occurrences, Expr.occurrencesList_eq_flatMap]
    exact List.mem_flatMap.2 ⟨e, he, hmem⟩
  | @power u n _ _ _ ih =>
    simp only [value, Option.bind_eq_bind, Option.bind_eq_some_iff] at hd
    obtain ⟨a, ha, b, hb, hd⟩ := hd
    rw [Expr.occurrences, List.mem_append, not_or] at hx
    simp only [binary, power, Option.ite_none_right_eq_some, Option.some.injEq] at hd
    rw [← hd.2, snd_zpow a hd.1.2, ih hx.1 ha, mul_zero]
  | @call f _ primes u _ ih =>
    simp only [value, Option.bind_eq_bind, Option.bind_eq_some_iff, Option.pure_def,
      Option.some.injEq] at hd
    obtain ⟨a, ha, rfl⟩ := hd
    rw [snd_apply, ih hx ha, mul_zero]

end Exact.Dual

end Formulary
