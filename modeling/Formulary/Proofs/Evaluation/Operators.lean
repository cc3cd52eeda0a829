import Formulary.Evaluation
import Formulary.Proofs.Differentiation
import Formulary.Proofs.Substitution.Value

/-!
# The value of a derivative operator

An operator is evaluated through another expression: the derivative by its variable, where all other
bound names are constant, with the point in the place of the variable. The exact evaluation of this
module goes through the same expressions as the evaluation over doubles, but reads the names, the
literals and the operations over the fractions.

The value that it gives to an operator is the derivative at the point (`evaluate?_operator`). Four
things treat the variable differently on the way: it is left out of the names that are constant, the
derivative still mentions it, the point that replaces it may mention it too, and what the point
mentions is read in the bindings around the operator.
-/

namespace Formulary

namespace Evaluation

open Formulary.Expr

/-- The expression that a derivative operator is evaluated through. -/
def writtenOut? (b : Bindings) : Expr → Option Expr
  | .derivative body name => slope? b body name
  | .derivativeAt body name point => do return (← slope? b body name).substituteName name point
  | _ => none

/-- An operator has the outcome of what it is written out to. -/
theorem evalWith_of_writtenOut? {b : Bindings} {e through : Expr}
    (h : writtenOut? b e = some through) (again : Bindings → Expr → Outcome) :
    e.evalWith again b = again b through := by
  cases e with
  | derivative body name =>
    have hslope : slope? b body name = some through := h
    rw [evalWith, hslope]
    rfl
  | derivativeAt body name point =>
    obtain ⟨slope, hslope, hplaced⟩ := Option.bind_eq_some_iff.1 h
    rw [evalWith, hslope, ← Option.some.inj hplaced]
    rfl
  | _ => cases h

end Evaluation

namespace Exact

open Evaluation TrivSqZeroExt DualNumber

/-! ## Exact evaluation -/

mutual

/-- The exact value of an expression, where `again` gives the value of what an operator is evaluated
through. The bindings say which names are constant, and the assignment what they stand for. -/
def evaluateWith (F : FunctionValues) (b : Bindings) (ρ : Assignment) (again : Expr → Option ℚ) :
    Expr → Option ℚ
  | .number n => literal n
  | .var name => ρ name
  | .unary op u => do unary op (← evaluateWith F b ρ again u)
  | .binary op u v => do binary op (← evaluateWith F b ρ again u) (← evaluateWith F b ρ again v)
  | .nary op es => do return family op (← evaluateAll F b ρ again es)
  | .call f primes u => do F f primes (← evaluateWith F b ρ again u)
  | .derivative body name => writtenOut? b (.derivative body name) >>= again
  | .derivativeAt body name point => writtenOut? b (.derivativeAt body name point) >>= again
  | .element _ _ | .invalid _ | .invalidPart _ _ => none

/-- The exact values of several expressions. -/
def evaluateAll (F : FunctionValues) (b : Bindings) (ρ : Assignment) (again : Expr → Option ℚ) :
    List Expr → Option (List ℚ)
  | [] => some []
  | e :: es => do return (← evaluateWith F b ρ again e) :: (← evaluateAll F b ρ again es)

end

/-- The exact value of an expression, if going through at most `depth` other expressions, one inside
the other, is enough. -/
def evaluate? (F : FunctionValues) (b : Bindings) (ρ : Assignment) : (depth : Nat) → Expr → Option ℚ
  | 0 => evaluateWith F b ρ fun _ => none
  | depth + 1 => evaluateWith F b ρ (evaluate? F b ρ depth)

section

variable {F : FunctionValues} {b : Bindings} {ρ : Assignment} {again : Expr → Option ℚ} {e : Expr}
  {q : ℚ}

/-- The exact evaluation of an operator goes through the same expression. -/
theorem evaluateWith_of_writtenOut? {through : Expr} (h : writtenOut? b e = some through) :
    evaluateWith F b ρ again e = again through := by
  cases e with
  | derivative body name =>
    rw [evaluateWith, h]
    rfl
  | derivativeAt body name point =>
    rw [evaluateWith, h]
    rfl
  | _ => cases h

theorem evaluateAll_eq_some {es : List Expr} {qs : List ℚ} :
    evaluateAll F b ρ again es = some qs ↔
      List.Forall₂ (fun e q => evaluateWith F b ρ again e = some q) es qs := by
  refine eq_some_iff_forall₂ (evaluateAll F b ρ again) ?_ fun e es => ?_
  · rw [evaluateAll]
  · rw [evaluateAll]

/-- Only what has values for all its names has a value. -/
theorem isSome_of_mem_occurrences (h : value F.interpretation e ρ = some q) {name : String}
    (hname : name ∈ e.occurrences) : (ρ name).isSome := by
  induction e using Expr.induction generalizing q with
  | number n => cases hname
  | var other =>
    rw [Expr.occurrences] at hname
    split at hname
    · cases hname
    · rw [List.mem_singleton.1 hname]
      exact Option.isSome_iff_exists.2 ⟨q, h⟩
  | unary op u ih =>
    obtain ⟨p, hp, -⟩ := value_unary.1 h
    exact ih hp hname
  | binary op u v ihu ihv =>
    obtain ⟨p, hp, r, hr, -⟩ := value_binary.1 h
    exact (List.mem_append.1 hname).elim (ihu hp) (ihv hr)
  | nary op es ih =>
    obtain ⟨qs, hqs, -⟩ := value_nary.1 h
    rw [Expr.occurrences, Expr.occurrencesList_eq_flatMap] at hname
    obtain ⟨e, he, hname⟩ := List.mem_flatMap.1 hname
    obtain ⟨p, -, hp⟩ := exists_of_forall₂ hqs he
    exact ih e he hp hname
  | call f primes u ih =>
    obtain ⟨p, hp, -⟩ := value_call.1 h
    exact ih hp hname
  | element sequence index _ => simp [value, FunctionValues.interpretation] at h
  | derivative body name _ => cases h
  | derivativeAt body name point _ _ => simp [value, FunctionValues.interpretation] at h
  | invalid issue => cases h
  | invalidPart issue part _ => cases h

/-- What has a value without any operator is evaluated to that value. -/
theorem evaluateWith_of_value (h : value F.interpretation e ρ = some q) :
    evaluateWith F b ρ again e = some q := by
  induction e using Expr.induction generalizing q with
  | number n => exact h
  | var name => exact h
  | unary op u ih =>
    obtain ⟨p, hp, hq⟩ := value_unary.1 h
    rw [evaluateWith, ih hp]
    exact hq
  | binary op u v ihu ihv =>
    obtain ⟨p, hp, r, hr, hq⟩ := value_binary.1 h
    rw [evaluateWith, ihu hp, ihv hr]
    exact hq
  | nary op es ih =>
    obtain ⟨qs, hqs, rfl⟩ := value_nary.1 h
    have hall : evaluateAll F b ρ again es = some qs :=
      evaluateAll_eq_some.2 <|
        ((List.forall₂_and_left es qs).2 ⟨ih, hqs⟩).imp fun e q he => he.1 he.2
    rw [evaluateWith, hall]
    rfl
  | call f primes u ih =>
    obtain ⟨p, hp, hq⟩ := value_call.1 h
    rw [evaluateWith, ih hp]
    exact hq
  | element sequence index _ => simp [value, FunctionValues.interpretation] at h
  | derivative body name _ => cases h
  | derivativeAt body name point _ _ => simp [value, FunctionValues.interpretation] at h
  | invalid issue => cases h
  | invalidPart issue part _ => cases h

/-- An expression without derivative operators needs no depth. -/
theorem evaluate?_of_value (h : value F.interpretation e ρ = some q) (depth : Nat) :
    evaluate? F b ρ depth e = some q := by
  cases depth with
  | zero => exact evaluateWith_of_value h
  | succ depth => exact evaluateWith_of_value h

end

/-! ## Operators -/

/-- The unknown functions as partial functions. -/
def Derivatives.functionValues (F : Derivatives) : FunctionValues := fun f primes q =>
  some (F f primes q)

section

variable {F : Derivatives} {b : Bindings} {ρ : Assignment} {body point : Expr} {x : String}

/-- The derivative that an operator stands for exists. Wherever the body is defined it has the
coefficient of `ε` as its value. -/
theorem exists_slope (hbody : body.Rational) (hspecial : Names.isSpecial x = false)
    (hbound : ∀ name, name ≠ x → (ρ name).isSome → name ∈ b.names)
    (hdefined : (value F.interpretation body ρ).isSome) :
    ∃ (slope : Expr) (d : ℚ[ε]), slope? b body x = some slope ∧
      Dual.value F (Dual.perturb ρ x) body = some d ∧
      value F.interpretation slope ρ = some d.snd := by
  obtain ⟨q, hq⟩ := Option.isSome_iff_exists.1 hdefined
  have hknown : ∀ name ∈ body.occurrences, name ≠ x → name ∈ b.names.filter (· != x) := by
    intro name hname hne
    have hsome := isSome_of_mem_occurrences (F := F.functionValues) hq hname
    exact List.mem_filter.2 ⟨hbound name hne hsome, bne_iff_ne.2 hne⟩
  rw [← Dual.map_fst_value (x := x) hbody, Option.isSome_map] at hdefined
  obtain ⟨d, hd⟩ := Option.isSome_iff_exists.1 hdefined
  obtain ⟨again, hagain⟩ :=
    Expr.exists_differentiateWith (Derivative.depth body) body x (b.names.filter (· != x))
  obtain ⟨slope, hslope, hfollows⟩ : Expr.HasSlope Derivative.closedForm again x
    (b.names.filter (· != x)) F ρ body d := hbody.hasSlope hspecial hknown hd
  exact ⟨slope, d, hagain.trans hslope, hd, hfollows.slope.value⟩

/-- Once the point is in place, the variable stands for the value of the point. -/
theorem assigned_point {a : ℚ} (hpoint : value F.interpretation point ρ = some a) :
    Substitution.assigned F.interpretation [] [(x, .expr point)] ρ = ρ.set x a := by
  funext name
  rw [Substitution.assigned, List.lookup_cons, Assignment.set]
  by_cases hname : name = x
  · rw [hname, beq_self_eq_true, if_pos rfl]
    exact hpoint
  · rw [beq_eq_false_iff_ne.2 hname, if_neg hname]
    rfl

/-- An operator has the derivative of its body as its value, read off over the dual numbers: at the
value of its variable, or at the value of the point. The assignment gives values to bound names only,
and putting the point in place overflows nowhere. What the operator is evaluated through is the same
expression as over doubles. -/
theorem evaluate?_operator (F : Derivatives) {body : Expr} (hbody : body.Rational) {x : String}
    (hspecial : Names.isSpecial x = false) {b : Bindings} {ρ : Assignment}
    (hbound : ∀ name, (ρ name).isSome → name ∈ b.names) (depth : Nat) :
    (∀ e through, writtenOut? b e = some through →
      Expr.evaluate? (depth + 1) b e = Expr.evaluate? depth b through ∧
        evaluate? F.functionValues b ρ (depth + 1) e =
          evaluate? F.functionValues b ρ depth through) ∧
    ((value F.interpretation body ρ).isSome →
      ∃ d : ℚ[ε], Dual.value F (Dual.perturb ρ x) body = some d ∧
        evaluate? F.functionValues b ρ (depth + 1) (.derivative body x) = some d.snd) ∧
    ∀ point a, value F.interpretation point ρ = some a →
      (value F.interpretation body (ρ.set x a)).isSome →
      (∀ slope ∈ slope? b body x, slope.overflows [] [(x, .expr point)] = false) →
      ∃ d : ℚ[ε], Dual.value F (Dual.perturb (ρ.set x a) x) body = some d ∧
        evaluate? F.functionValues b ρ (depth + 1) (.derivativeAt body x point) = some d.snd := by
  refine ⟨fun e through hthrough => ?_, ?_, ?_⟩
  · exact ⟨evalWith_of_writtenOut? hthrough _, evaluateWith_of_writtenOut? hthrough⟩
  · intro hdefined
    obtain ⟨slope, d, hslope, hd, hvalue⟩ :=
      exists_slope hbody hspecial (fun name _ => hbound name) hdefined
    have hthrough : writtenOut? b (.derivative body x) = some slope := hslope
    refine ⟨d, hd, ?_⟩
    rw [evaluate?, evaluateWith_of_writtenOut? hthrough]
    exact evaluate?_of_value hvalue depth
  · intro point a hpoint hdefined hover
    have hothers : ∀ name, name ≠ x → (ρ.set x a name).isSome → name ∈ b.names := by
      intro name hne hsome
      rw [Assignment.set, if_neg hne] at hsome
      exact hbound name hsome
    obtain ⟨slope, d, hslope, hd, hvalue⟩ := exists_slope hbody hspecial hothers hdefined
    have hthrough :
        writtenOut? b (.derivativeAt body x point) = some (slope.substituteName x point) := by
      rw [writtenOut?, hslope]
      rfl
    refine ⟨d, hd, ?_⟩
    rw [evaluate?, evaluateWith_of_writtenOut? hthrough]
    refine evaluate?_of_value ?_ depth
    -- the point is read in the outer assignment, where the variable has a value of its own
    have hplaced := Expr.value_substitute_of_overflows F.functionValues ρ (hover slope hslope)
    exact hplaced.trans ((congrArg _ (assigned_point hpoint)).trans hvalue)

end

/-- The derivative of `x^3*y-1/x` by `x`, at two and at a point that mentions `x` itself. -/
theorem evaluate?_operator_cubic :
    ∃ (body point : Expr) (b : Bindings) (ρ : Assignment),
      body = Expr.ofText "x^3*y-1/x" ∧ point = Expr.ofText "x+y/2" ∧
      b.names = ["x", "y"] ∧ ρ "x" = some 2 ∧ ρ "y" = some 3 ∧
      (∃ d : ℚ[ε], Dual.value (fun _ _ _ => 0) (Dual.perturb ρ "x") body = some d ∧
        evaluate? (Derivatives.functionValues fun _ _ _ => 0) b ρ 1 (.derivative body "x") =
          some d.snd) ∧
      value (Derivatives.interpretation fun _ _ _ => 0) point ρ = some (7 / 2) ∧
      ∃ d : ℚ[ε], Dual.value (fun _ _ _ => 0) (Dual.perturb (ρ.set "x" (7 / 2)) "x") body = some d ∧
        evaluate? (Derivatives.functionValues fun _ _ _ => 0) b ρ 1
          (.derivativeAt body "x" point) = some d.snd := by
  let ρ : Assignment := fun name =>
    if name = "x" then some 2 else if name = "y" then some 3 else none
  have hne : "y" ≠ "x" := by decide
  have hbody : Expr.ofText "x^3*y-1/x" = .binary .sub (.binary .mul
      (.binary .pow (.var "x") (.ofInt 3)) (.var "y")) (.binary .div (.ofInt 1) (.var "x")) := by
    decide +kernel
  have hpoint : Expr.ofText "x+y/2" =
      .binary .add (.var "x") (.binary .div (.var "y") (.ofInt 2)) := by decide +kernel
  have hrational : (Expr.ofText "x^3*y-1/x").Rational := by
    rw [hbody]
    exact .binary (by decide) (.binary (by decide) (.power (.var "x") (by decide) (by decide))
      (.var "y")) (.binary (by decide) (.number (by decide +kernel)) (.var "x"))
  have hbound : ∀ name, (ρ name).isSome → name ∈ ["x", "y"] := by
    intro name hsome
    by_contra hname
    simp only [List.mem_cons, List.not_mem_nil, or_false, not_or] at hname
    simp [ρ, hname] at hsome
  have hvalue : value (Derivatives.interpretation fun _ _ _ => 0) (Expr.ofText "x+y/2") ρ =
      some (7 / 2) := by
    rw [hpoint]
    norm_num [ρ, hne, value, Exact.binary, Exact.quotient, literal, Expr.ofInt, Number.ofInt]
  let b : Bindings := { values := [("x", 2), ("y", 3)] }
  obtain ⟨-, hvariable, hplaced⟩ := evaluate?_operator (fun _ _ _ => 0) hrational (x := "x")
    (by decide) (b := b) hbound 0
  refine ⟨_, _, b, ρ, rfl, rfl, rfl, rfl, rfl, hvariable ?_, hvalue, hplaced _ _ hvalue ?_ ?_⟩
  · rw [hbody]
    norm_num [ρ, hne, value, Exact.binary, Exact.power, Exact.quotient, literal, Expr.ofInt,
      Number.ofInt]
  · rw [hbody]
    norm_num [ρ, hne, value, Exact.binary, Exact.power, Exact.quotient, literal, Expr.ofInt,
      Number.ofInt, Assignment.set]
  · decide +kernel

end Exact

end Formulary
