import Formulary.Proofs.Exact.Value
import Formulary.Substitution
import Mathlib.Algebra.BigOperators.Group.List.Basic

/-!
# Values over arbitrary functions

The functions are arbitrary partial functions here, and neither sequences nor derivative operators
have a meaning. What has a value is then built from fractions, names, operations and calls, so that
a transformation of expressions is judged on these alone.

Every operation is strict: an operation has a value only where its operands have one. The lemmas
below take a value apart along the expression. `Amount` is the value of an operation of a family on
a list of operands; the amount of two lists in a row is the operation on their amounts.
-/

namespace Formulary.Exact

/-- What the functions and their derivatives stand for. -/
abbrev FunctionValues := String → Nat → ℚ → Option ℚ

/-- The functions as an interpretation, without sequences and derivative operators. -/
def FunctionValues.interpretation (F : FunctionValues) : Interpretation where
  function := F
  sequence _ _ := none
  slope _ _ _ := none

/-- The expressions have the values, one by one. -/
abbrev Values (I : Interpretation) (ρ : Assignment) : List Expr → List ℚ → Prop :=
  List.Forall₂ fun e q => value I e ρ = some q

section

variable {I : Interpretation} {ρ : Assignment} {q : ℚ}

theorem value_unary {op : UnaryOp} {u : Expr} :
    value I (.unary op u) ρ = some q ↔ ∃ p, value I u ρ = some p ∧ unary op p = some q := by
  rw [value, Option.bind_eq_bind, Option.bind_eq_some_iff]

theorem value_binary {op : BinaryOp} {u v : Expr} :
    value I (.binary op u v) ρ = some q ↔
      ∃ p, value I u ρ = some p ∧ ∃ r, value I v ρ = some r ∧ binary op p r = some q := by
  simp only [value, Option.bind_eq_bind, Option.bind_eq_some_iff]

theorem value_nary {op : Family} {es : List Expr} :
    value I (.nary op es) ρ = some q ↔ ∃ qs, Values I ρ es qs ∧ family op qs = q := by
  simp only [value, Option.bind_eq_bind, Option.bind_eq_some_iff, values_eq_some, Option.pure_def,
    Option.some.injEq]

theorem value_call {f : String} {primes : Nat} {u : Expr} :
    value I (.call f primes u) ρ = some q ↔
      ∃ p, value I u ρ = some p ∧ I.function f primes p = some q := by
  rw [value, Option.bind_eq_bind, Option.bind_eq_some_iff]

end

section

variable (op : Family) (q : ℚ)

theorem family_singleton : family op [q] = q := by cases op <;> simp [family]

theorem family_append (qs rs : List ℚ) :
    family op (qs ++ rs) = family op [family op qs, family op rs] := by
  cases op <;> simp [family]

theorem family_cons (qs : List ℚ) : family op (q :: qs) = family op [q, family op qs] := by
  cases op <;> simp [family]

theorem family_cons_cons (r : ℚ) (qs : List ℚ) :
    family op (q :: r :: qs) = family op (family op [q, r] :: qs) := by
  rw [family_cons op (family op [q, r]), ← family_append]
  rfl

theorem family_nil : family op [] = op.identity := by
  cases op <;> simp [family, Family.identity]

theorem family_identity : family op [q, op.identity] = q := by
  cases op <;> simp [family, Family.identity]

theorem binary_family (r : ℚ) : binary op.binary q r = some (family op [q, r]) := by
  cases op <;> simp [family, binary, Family.binary]

theorem family_perm {qs rs : List ℚ} (h : qs.Perm rs) : family op qs = family op rs := by
  cases op with
  | sum => exact h.sum_eq
  | product => exact h.prod_eq

end

/-! ## Amounts -/

section

variable {I : Interpretation} {ρ : Assignment} {op : Family} {e : Expr} {es fs : List Expr}
  {q r : ℚ}

/-- The operands have values, and the operation of the family on these values gives a number. -/
def Amount (I : Interpretation) (ρ : Assignment) (op : Family) (es : List Expr) (q : ℚ) : Prop :=
  ∃ qs, Values I ρ es qs ∧ family op qs = q

theorem amount_singleton (h : value I e ρ = some q) : Amount I ρ op [e] q :=
  ⟨[q], .cons h .nil, family_singleton op q⟩

theorem Amount.append (he : Amount I ρ op es q) (hf : Amount I ρ op fs r) :
    Amount I ρ op (es ++ fs) (family op [q, r]) := by
  obtain ⟨qs, hqs, rfl⟩ := he
  obtain ⟨rs, hrs, rfl⟩ := hf
  exact ⟨qs ++ rs, List.rel_append hqs hrs, family_append op qs rs⟩

theorem Amount.of_append (h : Amount I ρ op (es ++ fs) q) :
    ∃ r s, Amount I ρ op es r ∧ Amount I ρ op fs s ∧ family op [r, s] = q := by
  obtain ⟨qs, hqs, rfl⟩ := h
  have hfirst := (List.forall₂_take_append qs es fs hqs.flip).flip
  have hsecond := (List.forall₂_drop_append qs es fs hqs.flip).flip
  refine ⟨_, _, ⟨_, hfirst, rfl⟩, ⟨_, hsecond, rfl⟩, ?_⟩
  rw [← family_append, List.take_append_drop]

theorem Amount.cons (he : value I e ρ = some q) (hf : Amount I ρ op fs r) :
    Amount I ρ op (e :: fs) (family op [q, r]) :=
  (amount_singleton he).append hf

theorem Amount.perm (h : Amount I ρ op es q) (hperm : fs.Perm es) : Amount I ρ op fs q := by
  obtain ⟨qs, hqs, rfl⟩ := h
  obtain ⟨rs, hrs, hsame⟩ := List.perm_comp_forall₂ hperm hqs
  exact ⟨rs, hrs, family_perm op hsame⟩

/-- An operation on fewer than two operands may be written as what it stands for. -/
theorem Amount.value_nary (h : Amount I ρ op es q) :
    value I (Substitution.nary op es) ρ = some q := by
  obtain ⟨qs, hqs, rfl⟩ := h
  match es, qs, hqs with
  | [], [], .nil =>
    rw [family_nil]
    rfl
  | [_], [q], .cons he .nil =>
    rw [family_singleton]
    exact he
  | _ :: _ :: _, _ :: _ :: _, hvalues => exact Exact.value_nary.2 ⟨_, hvalues, rfl⟩

end

end Formulary.Exact
