import Formulary.Derivative.Rules
import Formulary.Proofs.Exact.Value
import Formulary.Proofs.Number.Exact
import Formulary.Substitution

/-!
# The values of sums, products and quotients that leave something out

`Derivative.sum`, `product`, `negate`, `difference` and `quotient` look at the shape of their
operands and leave out what is clearly zero or one. They still have the value of the operation, as
long as the tests for zero and one are exact on the literals they look at, and negating such a
literal stays exact. `Denotes` is the value of an expression together with this condition, and it is
what every one of these operations keeps.
-/

namespace Formulary

/-! ## Literals -/

namespace Exact

/-- The fraction and its negative are literals, and the tests for zero and one are exact on both. -/
def Tame (r : ℚ) : Prop :=
  (Word.Fits r.num ∧ Word.Fits (-r.num)) ∧ Sharp r ∧ Sharp (-r)

instance (r : ℚ) : Decidable (Tame r) := inferInstanceAs (Decidable (_ ∧ _))

theorem Tame.neg {r : ℚ} (h : Tame r) : Tame (-r) := by
  obtain ⟨⟨hfits, hneg⟩, hsharp, hopposite⟩ := h
  refine ⟨⟨?_, ?_⟩, hopposite, ?_⟩
  · rwa [Rat.neg_num]
  · rwa [Rat.neg_num, neg_neg]
  · rwa [neg_neg]

theorem Tame.number_neg {r : ℚ} (h : Tame r) : -Number.exact r = Number.exact (-r) := by
  change Number.neg (.exact r) = _
  rw [Number.neg, Word.checked_eq_some.2 ⟨h.1.2, rfl⟩]

/-- The tests are exact on every integer, however large. -/
theorem sharp_intCast {n : ℤ} (h : Word.Fits n) : Sharp n := by
  have hzero := Number.isZero_ofInt h
  have hone := Number.isOne_ofInt h
  rw [Number.ofInt] at hzero hone
  refine ⟨hzero.trans ?_, hone.trans ?_⟩ <;> simp

theorem tame_intCast {n : ℤ} (h : Word.Fits n) (hneg : Word.Fits (-n)) : Tame n := by
  have hopposite := sharp_intCast hneg
  push_cast at hopposite
  refine ⟨⟨?_, ?_⟩, sharp_intCast h, hopposite⟩
  · rwa [Rat.num_intCast]
  · rwa [Rat.num_intCast]

/-! ## Several values -/

theorem exists_of_forall₂ {α β : Type} {R : α → β → Prop} {as : List α} {bs : List β}
    (h : List.Forall₂ R as bs) {a : α} (ha : a ∈ as) : ∃ b ∈ bs, R a b := by
  induction h with
  | nil => cases ha
  | cons hab _ ih =>
    rcases List.mem_cons.1 ha with rfl | ha
    · exact ⟨_, List.mem_cons_self, hab⟩
    · obtain ⟨b, hb, hab⟩ := ih ha
      exact ⟨b, List.mem_cons_of_mem _ hb, hab⟩

end Exact

namespace Derivative

open Exact

theorem allVanish_eq_all (es : List Expr) : allVanish es = es.all vanishes := by
  induction es with
  | nil => rfl
  | cons e es ih => rw [allVanish, ih, List.all_cons]

theorem anyVanishes_eq_any (es : List Expr) : anyVanishes es = es.any vanishes := by
  induction es with
  | nil => rfl
  | cons e es ih => rw [anyVanishes, ih, List.any_cons]

theorem allUnits_eq_all (es : List Expr) : allUnits es = es.all isUnit := by
  induction es with
  | nil => rfl
  | cons e es ih => rw [allUnits, ih, List.all_cons]

theorem sum_eq (terms : List Expr) :
    sum terms = Substitution.nary .sum (terms.filter (!vanishes ·)) := by
  unfold sum
  generalize terms.filter (!vanishes ·) = es
  match es with
  | [] | [_] | _ :: _ :: _ => rfl

/-- The program's product is zero, or the operation over the factors that are not one. -/
theorem product_eq (factors : List Expr) :
    product factors =
      if factors.any vanishes then .ofInt 0
      else Substitution.nary .product (factors.filter (!isUnit ·)) := by
  unfold product
  generalize factors.filter (!isUnit ·) = es
  match es with
  | [] | [_] | _ :: _ :: _ => rfl

/-! ## Expressions whose literals are tame -/

/-- The literals that the tests for zero and one look at are tame. -/
inductive Clear : Expr → Prop
  | number {r : ℚ} (h : Tame r) : Clear (.number (.exact r))
  | var (name : String) : Clear (.var name)
  | unary (op : UnaryOp) {u : Expr} (h : Clear u) : Clear (.unary op u)
  | mul {u v : Expr} (hu : Clear u) (hv : Clear v) : Clear (.binary .mul u v)
  | binary {op : BinaryOp} (hop : op ≠ .mul) (u v : Expr) : Clear (.binary op u v)
  | nary (op : Family) {es : List Expr} (h : ∀ e ∈ es, Clear e) : Clear (.nary op es)
  | call (f : String) (primes : Nat) (u : Expr) : Clear (.call f primes u)

section

variable {I : Interpretation} {σ : Assignment}

/-- What is clearly zero is zero, where it has a value. -/
theorem Clear.eq_zero {e : Expr} (h : Clear e) {q : ℚ} (hq : value I e σ = some q)
    (hz : vanishes e = true) : q = 0 := by
  induction h generalizing q with
  | @number r htame =>
    rw [vanishes, htame.2.1.1, decide_eq_true_eq] at hz
    rw [value, literal, Option.some.injEq] at hq
    rw [← hq, hz]
  | var name => simp [vanishes] at hz
  | @unary op u _ ih =>
    simp only [value, Option.bind_eq_bind, Option.bind_eq_some_iff] at hq
    obtain ⟨p, hp, hq⟩ := hq
    cases op with
    | plus =>
      rw [Exact.unary, Option.some.injEq] at hq
      rw [← hq, ih hp (by simpa [vanishes] using hz)]
    | neg =>
      rw [Exact.unary, Option.some.injEq] at hq
      rw [← hq, ih hp (by simpa [vanishes] using hz), neg_zero]
    | recip => simp [vanishes] at hz
  | @mul u v _ _ ihu ihv =>
    simp only [value, Option.bind_eq_bind, Option.bind_eq_some_iff, Exact.binary,
      Option.some.injEq] at hq
    obtain ⟨p, hp, s, hs, rfl⟩ := hq
    rw [vanishes, Bool.or_eq_true] at hz
    rcases hz with hz | hz
    · rw [ihu hp hz, zero_mul]
    · rw [ihv hs hz, mul_zero]
  | @binary op hop u v => cases op <;> simp_all [vanishes]
  | @nary op es _ ih =>
    simp only [value, Option.bind_eq_bind, Option.bind_eq_some_iff, Option.pure_def,
      Option.some.injEq] at hq
    obtain ⟨qs, hqs, rfl⟩ := hq
    have hvalues := values_eq_some.1 hqs
    cases op with
    | sum =>
      rw [vanishes, allVanish_eq_all, List.all_eq_true] at hz
      refine List.sum_eq_zero fun q hq => ?_
      obtain ⟨e, he, hvalue⟩ := exists_of_forall₂ hvalues.flip hq
      exact ih e he hvalue (hz e he)
    | product =>
      rw [vanishes, anyVanishes_eq_any, List.any_eq_true] at hz
      obtain ⟨e, he, hz⟩ := hz
      obtain ⟨q, hq, hvalue⟩ := exists_of_forall₂ hvalues he
      exact List.prod_eq_zero (ih e he hvalue hz ▸ hq)
  | call f primes u => simp [vanishes] at hz

/-- What is clearly one is one, where it has a value. -/
theorem Clear.eq_one {e : Expr} (h : Clear e) {q : ℚ} (hq : value I e σ = some q)
    (hone : isUnit e = true) : q = 1 := by
  induction h generalizing q with
  | @number r htame =>
    rw [isUnit, htame.2.1.2, decide_eq_true_eq] at hone
    rw [value, literal, Option.some.injEq] at hq
    rw [← hq, hone]
  | @nary op es _ ih =>
    cases op with
    | sum => simp [isUnit] at hone
    | product =>
      simp only [value, Option.bind_eq_bind, Option.bind_eq_some_iff, Option.pure_def,
        Option.some.injEq] at hq
      obtain ⟨qs, hqs, rfl⟩ := hq
      rw [isUnit, allUnits_eq_all, List.all_eq_true] at hone
      refine List.prod_eq_one fun q hq => ?_
      obtain ⟨e, he, hvalue⟩ := exists_of_forall₂ (values_eq_some.1 hqs).flip hq
      exact ih e he hvalue (hone e he)
  | var name => simp [isUnit] at hone
  | unary op _ _ => simp [isUnit] at hone
  | mul _ _ _ _ => simp [isUnit] at hone
  | binary _ u v => simp [isUnit] at hone
  | call f primes u => simp [isUnit] at hone

/-! ## Values that the operations keep -/

/-- The value of an expression whose literals are tame. -/
structure Denotes (I : Interpretation) (σ : Assignment) (e : Expr) (q : ℚ) : Prop where
  clear : Clear e
  value : value I e σ = some q

/-- The values of several expressions. -/
abbrev DenoteAll (I : Interpretation) (σ : Assignment) : List Expr → List ℚ → Prop :=
  List.Forall₂ (Denotes I σ)

namespace Denotes

variable {e u v : Expr} {q r : ℚ}

theorem eq_zero (h : Denotes I σ e q) (hz : vanishes e = true) : q = 0 :=
  h.clear.eq_zero h.value hz

theorem eq_one (h : Denotes I σ e q) (hone : isUnit e = true) : q = 1 :=
  h.clear.eq_one h.value hone

theorem literal (h : Tame r) : Denotes I σ (.number (.exact r)) r := ⟨.number h, rfl⟩

theorem ofInt {n : ℤ} (h : Word.Fits n) (hneg : Word.Fits (-n)) : Denotes I σ (.ofInt n) n :=
  literal (tame_intCast h hneg)

theorem zero : Denotes I σ (.ofInt 0) 0 := ofInt (by decide) (by decide)

theorem one : Denotes I σ (.ofInt 1) 1 := ofInt (by decide) (by decide)

theorem times (hu : Denotes I σ u q) (hv : Denotes I σ v r) :
    Denotes I σ (.binary .mul u v) (q * r) :=
  ⟨.mul hu.clear hv.clear, by simp [Exact.value, hu.value, hv.value, Exact.binary]⟩

theorem nary {op : Family} {es : List Expr} {qs : List ℚ} (h : DenoteAll I σ es qs) :
    Denotes I σ (.nary op es) (family op qs) := by
  refine ⟨.nary op fun e he => ?_, ?_⟩
  · obtain ⟨q, -, hq⟩ := exists_of_forall₂ h he
    exact hq.clear
  · have hvalues := values_eq_some.2 (h.imp fun _ _ hq => hq.value)
    simp [Exact.value, hvalues]

/-- Leaving out operands that do not change the value of a sum or product. -/
theorem filter (op : Family) (p : Expr → Bool) {es : List Expr} {qs : List ℚ}
    (h : DenoteAll I σ es qs)
    (hp : ∀ e q, Denotes I σ e q → p e = false → ∀ rest, family op (q :: rest) = family op rest) :
    ∃ rest, DenoteAll I σ (es.filter p) rest ∧ family op rest = family op qs := by
  induction h with
  | nil => exact ⟨[], .nil, rfl⟩
  | @cons e q es qs he _ ih =>
    obtain ⟨rest, hrest, hvalue⟩ := ih
    by_cases hkeep : p e = true
    · refine ⟨q :: rest, ?_, ?_⟩
      · rw [List.filter_cons_of_pos hkeep]
        exact .cons he hrest
      · cases op with
        | sum => simpa [family] using hvalue
        | product =>
          simp only [family, List.prod_cons] at hvalue ⊢
          rw [hvalue]
    · refine ⟨rest, ?_, ?_⟩
      · rwa [List.filter_cons_of_neg hkeep]
      · rw [hvalue, hp e q he (by simpa using hkeep)]

/-- A sum or product over one operand is that operand. -/
theorem collapse (op : Family) {es : List Expr} {qs : List ℚ} (h : DenoteAll I σ es qs) :
    Denotes I σ (Substitution.nary op es) (family op qs) := by
  match h with
  | .nil => cases op with
    | sum => exact zero
    | product => exact one
  | .cons (a := e) (b := q) he .nil =>
    have hq : family op [q] = q := by cases op <;> simp [family]
    rw [hq]
    exact he
  | .cons he (.cons he' hes) => exact nary (.cons he (.cons he' hes))

theorem sum {es : List Expr} {qs : List ℚ} (h : DenoteAll I σ es qs) :
    Denotes I σ (Derivative.sum es) qs.sum := by
  obtain ⟨rest, hrest, hvalue⟩ := filter .sum (fun e => !vanishes e) h
    fun e q he hz rest => by
      rw [Bool.not_eq_false'] at hz
      simp [family, he.eq_zero hz]
  rw [family, family] at hvalue
  rw [sum_eq, ← hvalue]
  exact collapse .sum hrest

/-- The program's product has the product of the values. -/
theorem product {es : List Expr} {qs : List ℚ} (h : DenoteAll I σ es qs) :
    Denotes I σ (Derivative.product es) qs.prod := by
  rw [product_eq]
  by_cases hany : es.any vanishes = true
  · rw [if_pos hany]
    obtain ⟨e, he, hz⟩ := List.any_eq_true.1 hany
    obtain ⟨q, hq, hvalue⟩ := exists_of_forall₂ h he
    rw [List.prod_eq_zero (hvalue.eq_zero hz ▸ hq)]
    exact zero
  · rw [if_neg hany]
    obtain ⟨rest, hrest, hvalue⟩ := filter .product (fun e => !isUnit e) h
      fun e q he hone rest => by
        rw [Bool.not_eq_false'] at hone
        simp [family, he.eq_one hone]
    rw [family, family] at hvalue
    rw [← hvalue]
    exact collapse .product hrest

theorem neg (h : Denotes I σ e q) : Denotes I σ (.unary .neg e) (-q) :=
  ⟨.unary .neg h.clear, by simp [Exact.value, h.value, Exact.unary]⟩

/-- The program's negation has the negative of the value. -/
theorem negate (h : Denotes I σ e q) : Denotes I σ (Derivative.negate e) (-q) := by
  unfold Derivative.negate
  by_cases hz : vanishes e = true
  · rw [if_pos hz, h.eq_zero hz, neg_zero]
    exact zero
  · rw [if_neg hz]
    split
    · obtain ⟨hclear, hvalue⟩ := h
      cases hclear with
      | number htame =>
        rw [htame.number_neg]
        simp only [Exact.value, Exact.literal, Option.some.injEq] at hvalue
        rw [← hvalue]
        exact literal htame.neg
    · obtain ⟨hclear, hvalue⟩ := h
      cases hclear with
      | unary _ hclear =>
        simp only [Exact.value, Option.bind_eq_bind, Option.bind_eq_some_iff, Exact.unary,
          Option.some.injEq] at hvalue
        obtain ⟨p, hp, rfl⟩ := hvalue
        rw [neg_neg]
        exact ⟨hclear, hp⟩
    · exact h.neg

/-- The program's difference has the difference of the values. -/
theorem difference (hu : Denotes I σ u q) (hv : Denotes I σ v r) :
    Denotes I σ (Derivative.difference u v) (q - r) := by
  unfold Derivative.difference
  by_cases hright : vanishes v = true
  · rw [if_pos hright, hv.eq_zero hright, sub_zero]
    exact hu
  · rw [if_neg hright]
    by_cases hleft : vanishes u = true
    · rw [if_pos hleft, hu.eq_zero hleft, zero_sub]
      exact hv.negate
    · rw [if_neg hleft]
      exact ⟨.binary (by decide) u v, by simp [Exact.value, hu.value, hv.value, Exact.binary]⟩

/-- The program's quotient has the quotient of the values where it is defined. -/
theorem quotient (hu : Denotes I σ u q) (hv : Denotes I σ v r) (hr : r ≠ 0) :
    Denotes I σ (Derivative.quotient u v) (q / r) := by
  unfold Derivative.quotient
  by_cases hleft : vanishes u = true
  · rw [if_pos hleft, hu.eq_zero hleft, zero_div]
    exact zero
  · rw [if_neg hleft]
    by_cases hright : isUnit v = true
    · rw [if_pos hright, hv.eq_one hright, div_one]
      exact hu
    · rw [if_neg hright]
      exact ⟨.binary (by decide) u v,
        by simp [Exact.value, hu.value, hv.value, Exact.binary, Exact.quotient, hr]⟩

/-- A power of zero needs an exponent that is not negative: the power with exponent zero is left
out. -/
theorem power {m : ℤ} (hu : Denotes I σ u q) (hm : Word.Fits m) (hdefined : q ≠ 0 ∨ 0 ≤ m) :
    Denotes I σ (Derivative.power u (.ofInt m)) (q ^ m) := by
  obtain ⟨hzero, hone⟩ := sharp_intCast hm
  rw [← Number.ofInt] at hzero hone
  simp only [Derivative.power, Expr.ofInt, hzero, hone, Int.cast_eq_zero, Int.cast_eq_one,
    decide_eq_true_eq]
  by_cases h0 : m = 0
  · rw [if_pos h0, h0, zpow_zero]
    exact one
  · rw [if_neg h0]
    by_cases h1 : m = 1
    · rw [if_pos h1, h1, zpow_one]
      exact hu
    · rw [if_neg h1]
      refine ⟨.binary (by decide) _ _, ?_⟩
      have hpos : q ≠ 0 ∨ 0 < m := hdefined.imp_right fun h => by omega
      simp [Exact.value, hu.value, Exact.literal, Number.ofInt, Exact.binary, Exact.power, hpos]

theorem square (h : Denotes I σ e q) : Denotes I σ (Derivative.square e) (q ^ 2) := by
  have hpower := h.power (m := 2) (by decide) (.inr (by decide))
  exact hpower

end Denotes

end

end Derivative

end Formulary
