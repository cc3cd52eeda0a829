import Formulary.Proofs.Double.Nearest
import Formulary.Proofs.Number.Rational

/-!
# The double of a fraction

The tests for zero, for one and for the sign of a number, and the comparison of a fraction with a
double, look at the double of the fraction: its numerator and its denominator are rounded to 53
bits, and so is their quotient (`ratio?_value`).

The tests for zero and for the sign lose nothing by that. The test for one takes every fraction for
one whose numerator and denominator are rounded alike (`tests_of_fits`). For the same reason two
fractions that are the same as one double need not be the same. That is the only way in which being
the same fails to be an equivalence (`same_trans_iff`).
-/

namespace Formulary

/-- A fraction after its parts and their quotient were rounded to 53 bits. -/
def Exact.roundedQuotient (r : ℚ) : ℚ := nearestDouble (nearestDouble r.num / nearestDouble r.den)

namespace Double

open Float.Model Float.Model.UnpackedFloat Exact

theorem ratio?_div_ofInt {p q : ℤ} (hp : Word.Fits p) (hq : Word.Fits q) (hq0 : q ≠ 0) :
    ratio? (ofInt p / ofInt q) = some (nearestDouble (nearestDouble p / nearestDouble q)) := by
  have hdivisor := wordParts_ofInt hq hq0
  rcases eq_or_ne p 0 with rfl | hp0
  · -- the quotient of a zero is not rounded at all
    obtain ⟨s, hzero, -⟩ := is_ofInt (k := 0) (by decide)
    obtain ⟨t, n, e, hpos, hparts, -⟩ := hdivisor
    have hdef : ratio? (ofInt 0 / ofInt q) = fraction? (Float.Model.pack (UnpackedFloat.div
        Format.binary64 (ofInt 0).toModel.unpack (ofInt q).toModel.unpack)).unpack := rfl
    rw [hdef, hzero, hparts, Int.cast_zero, nearestDouble_zero, zero_div, nearestDouble_zero]
    exact congrArg fraction? (unpack_pack (f := .zero (s / t)) trivial)
  · exact ratio?_div (wordParts_ofInt hp hp0) hdivisor (ratio?_ofInt_of_fits hp)
      (ratio?_ofInt_of_fits hq)

theorem ofInt_beq_ofInt {p q : ℤ} (hp : Word.Fits p) (hq : Word.Fits q) :
    (ofInt p == ofInt q) = decide (nearestDouble p = nearestDouble q) :=
  beq_of_ratio? (ratio?_ofInt_of_fits hp) (ratio?_ofInt_of_fits hq)

/-- A double is equal to a finite one exactly if it stands for the same fraction. -/
theorem beq_iff_ratio? {v w : Float} {x : ℚ} (hv : ratio? v = some x) :
    (v == w) = true ↔ ratio? w = some x := by
  have hzero : ratio? 0 = some 0 := by simpa using ratio?_of_is is_zero (by decide)
  have hminus : ratio? (-0) = some 0 := by simpa using ratio?_neg hzero
  constructor
  · intro h
    obtain ⟨-, -, rfl | ⟨rfl, rfl⟩ | ⟨rfl, rfl⟩⟩ := Float.beq_iff_ne_nan_and_eq.1 h
    · exact hv
    · rw [← hv, hzero, hminus]
    · rw [← hv, hzero, hminus]
  · intro hw
    rw [beq_of_ratio? hv hw, decide_eq_true rfl]

end Double

namespace Number

open Exact

theorem ratio?_value {r : ℚ} (hr : (exact r).Fits) :
    Double.ratio? (exact r).value = some (roundedQuotient r) :=
  Double.ratio?_div_ofInt hr.1 hr.2 (Int.natCast_ne_zero.2 r.den_nz)

/-! ## The tests -/

/-- The double of a fraction is the rounded quotient of its rounded parts. It is zero exactly if
the fraction is, and has the same sign, but it is one whenever the parts are rounded alike. -/
theorem tests_of_fits {r : ℚ} (hr : (exact r).Fits) :
    Double.ratio? (exact r).value = some (roundedQuotient r) ∧
      ((exact r).isZero = true ↔ r.num = 0) ∧ ((exact r).isNegative = true ↔ r.num < 0) ∧
      ((exact r).isOne = true ↔ nearestDouble r.num = nearestDouble r.den) := by
  refine ⟨ratio?_value hr, ?_, ?_, ?_⟩
  · rw [isZero_exact hr, decide_eq_true_iff, Rat.num_eq_zero]
  · rw [isNegative_exact hr, decide_eq_true_iff, Rat.num_neg]
  · rw [isOne_exact hr, Double.ofInt_beq_ofInt hr.1 hr.2, decide_eq_true_iff, Int.cast_natCast]

/-- The test for one does not tell the parts of this fraction apart, so they are rounded alike. -/
theorem tests_of_next_to_one :
    (exact (9007199254740993 / 9007199254740992)).Fits ∧
      (exact (9007199254740993 / 9007199254740992)).isOne = true ∧
      nearestDouble (9007199254740993 / 9007199254740992 : ℚ).num =
        nearestDouble (9007199254740993 / 9007199254740992 : ℚ).den := by
  have hfits : (exact (9007199254740993 / 9007199254740992)).Fits :=
    ⟨by decide +kernel, by decide +kernel⟩
  have hone : (exact (9007199254740993 / 9007199254740992)).isOne = true := by decide +kernel
  exact ⟨hfits, hone, (tests_of_fits hfits).2.2.2.1 hone⟩

/-- The fraction `(2 ^ 53 + 1) / 2 ^ 53` is in lowest terms and taken for one. -/
theorem isOne_next_to_one :
    (exact (9007199254740993 / 9007199254740992)).Fits ∧
      (exact (9007199254740993 / 9007199254740992)).isOne = true ∧
      ¬((9007199254740993 / 9007199254740992 : ℚ).num = 1 ∧
        (9007199254740993 / 9007199254740992 : ℚ).den = 1) := by
  refine ⟨⟨?_, ?_⟩, ?_, ?_⟩ <;> decide +kernel

/-! ## Being the same -/

variable {a b c : Number}

/-- Numbers that are the same are equal fractions, or have equal doubles. -/
theorem eq_or_beq_of_same (h : a.same b = true) : a = b ∨ (a.value == b.value) = true := by
  cases a with
  | exact r =>
    cases b with
    | exact s => exact .inl (congrArg exact (eq_of_beq h))
    | real w => exact .inr h
  | real v => exact .inr (by cases b <;> exact h)

theorem same_of_isNaN_eq_false (h : a.isNaN = false) : a.same a = true := by
  cases a with
  | exact r => exact beq_self_eq_true r
  | real v =>
    refine Float.beq_self_iff.2 fun hnan => ?_
    rw [Number.isNaN, Float.isNaN_eq_decide_eq_nan] at h
    exact of_decide_eq_false h hnan

theorem same_symm (h : a.same b = true) : b.same a = true := by
  cases a with
  | exact r =>
    cases b with
    | exact s => exact BEq.symm h
    | real w => exact BEq.symm h
  | real v => cases b <;> exact BEq.symm h

theorem same_real (n : Number) (v : Float) : n.same (real v) = (n.value == v) := by
  cases n <;> rfl

theorem real_same (v : Float) (n : Number) : (real v).same n = (v == n.value) := by
  cases n <;> rfl

/-- Being the same is transitive among fractions and among doubles. Between two fractions, a double
in the middle says nothing. -/
theorem same_trans (hab : a.same b = true) (hbc : b.same c = true)
    (hmiddle : ∀ r s v, a = exact r → b = real v → c = exact s → r = s) : a.same c = true := by
  cases a with
  | exact r =>
    cases c with
    | exact s =>
      cases b with
      | exact t => exact BEq.trans hab hbc
      | real v =>
        obtain rfl := hmiddle r s v rfl rfl rfl
        exact beq_self_eq_true r
    | real w =>
      obtain rfl | hvalue := eq_or_beq_of_same hab
      · exact hbc
      · rw [same_real] at hbc ⊢
        exact BEq.trans hvalue hbc
  | real v =>
    obtain rfl | hvalue := eq_or_beq_of_same hbc
    · exact hab
    · rw [real_same] at hab ⊢
      exact BEq.trans hab hvalue

/-- The number in the middle is a double, and the other two are different fractions that are rounded
to it. -/
def Blurred (a b c : Number) : Prop :=
  ∃ r s v, a = exact r ∧ b = real v ∧ c = exact s ∧ r ≠ s ∧
    Double.ratio? v = some (roundedQuotient r) ∧ Double.ratio? v = some (roundedQuotient s)

/-- Being the same is reflexive on everything that is a number, and symmetric. It is transitive but
for two different fractions that are rounded to the same double. -/
theorem same_trans_iff (ha : a.Fits) (hc : c.Fits) :
    (a.isNaN = false → a.same a = true) ∧ (a.same b = true → b.same a = true) ∧
      (a.same b = true → b.same c = true → (a.same c = true ↔ ¬Blurred a b c)) := by
  refine ⟨same_of_isNaN_eq_false, same_symm, fun hab hbc => ⟨fun hac => ?_, fun hblurred => ?_⟩⟩
  · rintro ⟨r, s, v, rfl, rfl, rfl, hne, -, -⟩
    exact hne (eq_of_beq hac)
  · refine same_trans hab hbc fun r s v hr hv hs => ?_
    subst hr hv hs
    by_contra hne
    have hleft := (Double.beq_iff_ratio? (ratio?_value ha)).1 hab
    have hright := (Double.beq_iff_ratio? (ratio?_value hc)).1 (same_symm hbc)
    exact hblurred ⟨r, s, v, rfl, rfl, rfl, hne, hleft, hright⟩

/-- The double `2 ^ 53` is the same as each of the two integers that are rounded to it. -/
theorem blurred_two_pow :
    (exact 9007199254740993).Fits ∧ (exact 9007199254740992).Fits ∧
      Blurred (exact 9007199254740993) (real 9007199254740992) (exact 9007199254740992) := by
  have hodd : (exact 9007199254740993).Fits := ⟨by decide, by decide⟩
  have heven : (exact 9007199254740992).Fits := ⟨by decide, by decide⟩
  have hdifferent : (exact 9007199254740993).same (exact 9007199254740992) = false := by decide
  refine ⟨hodd, heven, not_not.1 fun h => ?_⟩
  have hsame := ((same_trans_iff (b := real 9007199254740992) hodd heven).2.2 (by decide +kernel)
    (by decide +kernel)).2 h
  rw [hdifferent] at hsame
  cases hsame

/-- The odd neighbour of `2 ^ 53` is the same as the double `2 ^ 53`, which is the same as the
integer; but the integers are not the same. -/
theorem not_same_of_rounded_alike :
    (∀ n ∈ [exact 9007199254740993, real 9007199254740992, exact 9007199254740992],
      n.Fits ∧ n.isNaN = false) ∧
    (exact 9007199254740993).same (real 9007199254740992) = true ∧
    (real 9007199254740992).same (exact 9007199254740992) = true ∧
    (exact 9007199254740993).same (exact 9007199254740992) = false := by
  refine ⟨List.forall_mem_cons.2 ⟨?_, List.forall_mem_cons.2 ⟨?_, List.forall_mem_cons.2
    ⟨?_, List.forall_mem_nil _⟩⟩⟩, ?_, ?_, ?_⟩
  · exact ⟨⟨by decide, by decide⟩, by decide +kernel⟩
  · exact ⟨trivial, by decide +kernel⟩
  · exact ⟨⟨by decide, by decide⟩, by decide +kernel⟩
  all_goals decide +kernel

end Number

end Formulary
