import Formulary.Proofs.Derivative.Rules
import Formulary.Proofs.Derivative.Steps

/-!
# Differentiation is correct

For an expression built from literals, names, the operations of arithmetic, powers with an integer
exponent and calls of unknown functions, the derivative exists wherever the expression does. Its
value is the derivative of the value, read off over the dual numbers at `x + ε`.
-/

namespace Formulary

open Exact TrivSqZeroExt DualNumber

namespace Expr

open Formulary.Derivative

section

variable {closed : String → Nat → Expr → Option Expr} {again : Continue} {x : String}
  {known : Scope} {F : Derivatives} {σ : Assignment} {e : Expr} {d : ℚ[ε]}

/-- The derivative exists, and together with the expression it has the coefficients of a dual number
as its value. -/
def HasSlope (closed : String → Nat → Expr → Option Expr) (again : Continue) (x : String)
    (known : Scope) (F : Derivatives) (σ : Assignment) (e : Expr) (d : ℚ[ε]) : Prop :=
  ∃ slope, e.differentiateWith closed again x known = some slope ∧
    Follows F.interpretation σ ⟨e, slope⟩ d

theorem Rational.denotes (he : e.Rational) (hd : Dual.value F (Dual.perturb σ x) e = some d) :
    Denotes F.interpretation σ e d.fst := by
  refine ⟨he.clear, ?_⟩
  rw [← Dual.map_fst_value (x := x) he, hd, Option.map_some]

/-- What does not change has the derivative zero; otherwise the rules decide. -/
theorem Rational.hasSlope_of (he : e.Rational) (hspecial : Names.isSpecial x = false)
    (hd : Dual.value F (Dual.perturb σ x) e = some d)
    (hrule : independent x known e = false → ∃ slope,
      e.differentiateWith closed again x known = some slope ∧
        Denotes F.interpretation σ slope d.snd) :
    HasSlope closed again x known F σ e d := by
  cases hind : independent x known e with
  | true =>
    have hzero : d.snd = 0 :=
      Dual.snd_eq_zero he (fun hmem => ne_of_independent hind hmem rfl) hspecial hd
    refine ⟨ofInt 0, differentiateWith_independent hind, he.denotes hd, ?_⟩
    rw [hzero]
    exact .zero
  | false =>
    obtain ⟨slope, hslope, hvalue⟩ := hrule hind
    exact ⟨slope, hslope, he.denotes hd, hvalue⟩

/-- The name itself has the second coefficient one. -/
theorem snd_eq_one (hd : Dual.value F (Dual.perturb σ x) (var x) = some d) : d.snd = 1 := by
  obtain ⟨q, -, rfl⟩ := Option.map_eq_some_iff.1 hd
  simp

theorem mem_occurrences_nary {op : Family} {es : List Expr} (he : e ∈ es) {name : String}
    (hname : name ∈ e.occurrences) : name ∈ (nary op es).occurrences := by
  rw [occurrences, occurrencesList_eq_flatMap]
  exact List.mem_flatMap.2 ⟨e, he, hname⟩

theorem exists_slopes {es : List Expr} {ds : List ℚ[ε]}
    (h : List.Forall₂ (HasSlope closed again x known F σ) es ds) :
    ∃ us, differentiateList closed again es x known = some us ∧
      List.Forall₂ (Follows F.interpretation σ) us ds := by
  induction h with
  | nil => exact ⟨[], rfl, .nil⟩
  | @cons e d es ds he _ ih =>
    obtain ⟨slope, hslope, hfollows⟩ := he
    obtain ⟨us, hus, hrest⟩ := ih
    refine ⟨⟨e, slope⟩ :: us, ?_, .cons hfollows hrest⟩
    rw [differentiateList, hslope, hus]
    rfl

theorem independent_ofInt (n : ℤ) : independent x known (ofInt n) = true := by
  simp [independent, ofInt, isInvalid, occurrences]

/-- An unknown function gets one more prime. -/
theorem function_eq {f : String} (hf : Names.isBuiltin f = false) (primes : Nat) (u : Expr) :
    Derivative.function f primes u = .call f (primes + 1) u := by
  have hnone : builtin? f u = none := by
    unfold builtin?
    split <;> first | rfl | exact absurd hf (by decide)
  rw [Derivative.function, hnone, ite_self, Option.getD_none]

/-- The derivative by the rules follows the value over the dual numbers. The induction is on the
expression; nothing has to be written out on the way. -/
theorem Rational.hasSlope (he : e.Rational) (hspecial : Names.isSpecial x = false)
    (hknown : ∀ name ∈ e.occurrences, name ≠ x → name ∈ known)
    (hd : Dual.value F (Dual.perturb σ x) e = some d) :
    HasSlope closed again x known F σ e d := by
  induction he generalizing d with
  | number h =>
    refine (Rational.number h).hasSlope_of hspecial hd fun _ => ?_
    simp only [Dual.value, literal, Option.map_some, Option.some.injEq] at hd
    rw [← hd, snd_inl]
    exact ⟨_, differentiateWith_number _, .zero⟩
  | var name =>
    refine (Rational.var name).hasSlope_of hspecial hd fun hind => ?_
    obtain rfl := eq_of_not_independent hind hknown
    rw [snd_eq_one hd]
    exact ⟨_, differentiateWith_var hind, by rw [if_pos rfl]; exact .one⟩
  | @unary op u hu ih =>
    refine (Rational.unary op hu).hasSlope_of hspecial hd fun hind => ?_
    simp only [Dual.value, Option.bind_eq_bind, Option.bind_eq_some_iff] at hd
    obtain ⟨a, ha, hd⟩ := hd
    obtain ⟨du, hdu, hfollows⟩ := ih hknown ha
    refine ⟨_, ?_, denotes_unary hfollows hd⟩
    simp [differentiateWith_unary hind, hdu]
  | @binary op hop u v hu hv ihu ihv =>
    refine (Rational.binary hop hu hv).hasSlope_of hspecial hd fun hind => ?_
    simp only [Dual.value, Option.bind_eq_bind, Option.bind_eq_some_iff] at hd
    obtain ⟨a, ha, b, hb, hd⟩ := hd
    obtain ⟨du, hdu, hleft⟩ := ihu (fun n hn => hknown n (List.mem_append_left _ hn)) ha
    obtain ⟨dv, hdv, hright⟩ := ihv (fun n hn => hknown n (List.mem_append_right _ hn)) hb
    have hzero {w : Expr} {c : ℚ[ε]} (hw : w.Rational)
        (hc : Dual.value F (Dual.perturb σ x) w = some c) (hind : independent x known w = true) :
        c.snd = 0 :=
      Dual.snd_eq_zero hw (fun hmem => ne_of_independent hind hmem rfl) hspecial hc
    have hnumeric : op.valueType ≠ .boolean := by
      cases op <;> first | decide | exact absurd hop (by decide)
    refine ⟨Derivative.binary x (independent x known) op ⟨u, du⟩ ⟨v, dv⟩, ?_,
      denotes_binary hop hleft hright (hzero hu ha) (hzero hv hb) hd⟩
    simp [differentiateWith_binary hnumeric hind, hdu, hdv]
  | @nary op es hes ih =>
    refine (Rational.nary op hes).hasSlope_of hspecial hd fun hind => ?_
    simp only [Dual.value, Option.bind_eq_bind, Option.bind_eq_some_iff, Option.pure_def,
      Option.some.injEq] at hd
    obtain ⟨ds, hds, rfl⟩ := hd
    obtain ⟨us, hslopes, hfollows⟩ : ∃ us, differentiateList closed again es x known = some us ∧
        List.Forall₂ (Follows F.interpretation σ) us ds := by
      have heach (u : Expr) (hu : u ∈ es) (a : ℚ[ε])
          (ha : Dual.value F (Dual.perturb σ x) u = some a) :
          HasSlope closed again x known F σ u a :=
        ih u hu (fun n hn => hknown n (mem_occurrences_nary hu hn)) ha
      have hall := (List.forall₂_and_left es ds).2 ⟨heach, Dual.values_eq_some.1 hds⟩
      exact exists_slopes (hall.imp fun _ a h => h.1 a h.2)
    refine ⟨_, ?_, denotes_nary hfollows op⟩
    simp [differentiateWith_nary hind, hslopes]
  | @power u n hu hn hpred ih =>
    refine (Rational.power hu hn hpred).hasSlope_of hspecial hd fun hind => ?_
    simp only [Dual.value, Option.bind_eq_bind, Option.bind_eq_some_iff] at hd
    obtain ⟨a, ha, b, hb, hd⟩ := hd
    obtain ⟨du, hdu, hfollows⟩ := ih (fun n hn => hknown n (List.mem_append_left _ hn)) ha
    simp only [ofInt, Dual.value, literal, Number.ofInt, Option.map_some, Option.some.injEq] at hb
    simp only [← hb, Dual.binary, Dual.power, fst_inl, Rat.num_intCast,
      Option.ite_none_right_eq_some, Option.some.injEq] at hd
    obtain ⟨⟨-, hdefined⟩, rfl⟩ := hd
    have hexponent : (⟨ofInt n, ofInt 0⟩ : Slope).value = ofInt n := rfl
    refine ⟨Derivative.pow x (independent x known) ⟨u, du⟩ ⟨ofInt n, ofInt 0⟩, ?_,
      denotes_pow hfollows hexponent (independent_ofInt n) hn hpred hdefined ?_⟩
    · have hnumeric : BinaryOp.pow.valueType ≠ .boolean := by decide
      rw [differentiateWith_binary hnumeric hind, hdu]
      rfl
    · rintro rfl
      exact snd_eq_one ha
  | @call f hf primes u hu ih =>
    refine (Rational.call hf primes hu).hasSlope_of hspecial hd fun hind => ?_
    simp only [Dual.value, Option.bind_eq_bind, Option.bind_eq_some_iff, Option.pure_def,
      Option.some.injEq] at hd
    obtain ⟨a, ha, rfl⟩ := hd
    obtain ⟨du, hdu, hfollows⟩ := ih hknown ha
    have houter : Denotes F.interpretation σ (function f primes u) (F f (primes + 1) a.fst) := by
      rw [function_eq hf]
      refine ⟨.call _ _ _, ?_⟩
      rw [value, hfollows.value.value]
      rfl
    have hplain : (Names.isBuiltin f && primes != 0) = false := by rw [hf, Bool.false_and]
    rw [Dual.snd_apply]
    refine ⟨chain x (Derivative.function f primes u) ⟨u, du⟩, ?_, denotes_chain houter hfollows ?_⟩
    · rw [differentiateWith_call hplain hind, hdu]
      rfl
    · rintro rfl
      exact snd_eq_one ha

end

/-- Wherever a rational expression is defined, so is its derivative by `x`, and the derivative has
the value that the dual numbers give at `x + ε`. All other names are known to be constant. -/
theorem value_differentiate (F : Derivatives) {e : Expr} (he : e.Rational) {x : String}
    (hspecial : Names.isSpecial x = false) {known : Scope}
    (hknown : ∀ name ∈ e.occurrences, name ≠ x → name ∈ known) {σ : Assignment}
    (hdefined : (value F.interpretation e σ).isSome) :
    ∃ d : ℚ[ε], Dual.value F (Dual.perturb σ x) e = some d ∧
      value F.interpretation e σ = some d.fst ∧
      value F.interpretation (e.differentiate x known) σ = some d.snd := by
  rw [← Dual.map_fst_value (x := x) he, Option.isSome_map] at hdefined
  obtain ⟨d, hd⟩ := Option.isSome_iff_exists.1 hdefined
  refine ⟨d, hd, (he.denotes hd).value, ?_⟩
  obtain ⟨again, hagain⟩ := exists_differentiateWith (Derivative.depth e) e x known
  have hhas : HasSlope closedForm again x known F σ e d := he.hasSlope hspecial hknown hd
  obtain ⟨slope, hslope, hfollows⟩ := hhas
  rw [differentiate, hagain, hslope, Option.getD_some, hfollows.slope.value]

/-- The derivative of `(x ^ 3 + f'(x)) / y` by `x`, where both names are two. -/
theorem value_differentiate_quotient :
    (binary .div (binary .add (binary .pow (var "x") (ofInt 3)) (call "f" 1 (var "x")))
      (var "y")).Rational ∧
    ∃ d : ℚ[ε],
      Dual.value (fun _ primes q => primes + q) (Dual.perturb (fun _ => some 2) "x")
          (binary .div (binary .add (binary .pow (var "x") (ofInt 3)) (call "f" 1 (var "x")))
            (var "y")) = some d ∧
        value (Derivatives.interpretation fun _ primes q => primes + q)
          (binary .div (binary .add (binary .pow (var "x") (ofInt 3)) (call "f" 1 (var "x")))
            (var "y")) (fun _ => some 2) = some d.fst ∧
        value (Derivatives.interpretation fun _ primes q => primes + q)
          ((binary .div (binary .add (binary .pow (var "x") (ofInt 3)) (call "f" 1 (var "x")))
            (var "y")).differentiate "x" ["y"]) (fun _ => some 2) = some d.snd := by
  have hpower : (binary .pow (var "x") (ofInt 3)).Rational :=
    .power (.var "x") (by decide) (by decide)
  have hcall : (call "f" 1 (var "x")).Rational := .call (by decide) 1 (.var "x")
  have he : (binary .div (binary .add (binary .pow (var "x") (ofInt 3)) (call "f" 1 (var "x")))
      (var "y")).Rational :=
    .binary (by decide) (.binary (by decide) hpower hcall) (.var "y")
  refine ⟨he, value_differentiate _ he (by decide) ?_ ?_⟩
  · decide
  · norm_num [value, Exact.binary, Exact.power, Exact.quotient, literal, ofInt, Number.ofInt,
      Derivatives.interpretation]

/-- Exact tests on the literals of an expression are not enough, since a derivative may negate them.
Negating the literal with the least numerator leaves the exact numbers, and a literal next to minus
one is not taken for one, but its negative is, and is left out. -/
theorem differentiate_negated_literal :
    (Sharp (-9223372036854775808 / 3) ∧
      (Dual.value (fun _ _ _ => 0) (Dual.perturb (fun _ => some 1) "x")
        (unary .neg (binary .mul (number (.exact (-9223372036854775808 / 3))) (var "x")))).map snd =
          some (9223372036854775808 / 3) ∧
      value (Derivatives.interpretation fun _ _ _ => 0)
        ((unary .neg (binary .mul (number (.exact (-9223372036854775808 / 3)))
          (var "x"))).differentiate "x" []) (fun _ => some 1) = none) ∧
    Sharp (-4611686018427387905 / 4611686018427387904) ∧
      (Dual.value (fun _ _ _ => 0) (Dual.perturb (fun _ => some 1) "x")
        (binary .mul (unary .neg (binary .mul
          (number (.exact (-4611686018427387905 / 4611686018427387904))) (var "x")))
          (var "y"))).map snd = some (4611686018427387905 / 4611686018427387904) ∧
      value (Derivatives.interpretation fun _ _ _ => 0)
        ((binary .mul (unary .neg (binary .mul
          (number (.exact (-4611686018427387905 / 4611686018427387904))) (var "x")))
          (var "y")).differentiate "x" ["y"]) (fun _ => some 1) = some 1 := by
  have hleast : (unary .neg (binary .mul (number (.exact (-9223372036854775808 / 3)))
      (var "x"))).differentiate "x" [] = number (-.exact (-9223372036854775808 / 3)) := by
    decide +kernel
  have hreal : literal (-.exact (-9223372036854775808 / 3)) = none := by
    decide +kernel
  have hunit : (binary .mul (unary .neg (binary .mul
      (number (.exact (-4611686018427387905 / 4611686018427387904))) (var "x")))
      (var "y")).differentiate "x" ["y"] = var "y" := by
    decide +kernel
  refine ⟨⟨by decide +kernel, ?_, ?_⟩, by decide +kernel, ?_, ?_⟩
  · norm_num [Dual.value, Dual.perturb, Dual.binary, Dual.unary, literal]
  · rw [hleast, value, hreal]
  · have hne : ¬ "y" = "x" := by decide
    norm_num [Dual.value, Dual.perturb, Dual.binary, Dual.unary, literal, hne]
  · rw [hunit, value]

end Expr

end Formulary
