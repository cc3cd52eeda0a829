import Formulary.Proofs.Double.Quotient
import Formulary.Proofs.Number.Stored

/-!
# When arithmetic leaves the fractions

An operation on two fractions forms a numerator and a denominator first and reduces them last. So
what decides whether its result is a fraction is not the reduced result but the parts before: if one
of them is no word, the operation goes over to doubles, also where everything that made it too large
would have cancelled (`representable_sum_degrades`). `arithmetic_eq_ite` says this for the four
operations and names the double that stands in for the fraction.

Nothing is lost on integers, and nothing on fractions whose parts have 32 bits.
-/

namespace Formulary

namespace Number

/-- The parts of a sum or a difference are words before they are reduced, and so are the products
they are put together from. -/
def CrossFormed (op : Int → Int → Int) (r s : ℚ) : Prop :=
  (Word.Fits (r.num * s.den) ∧ Word.Fits (s.num * r.den) ∧
    Word.Fits (op (r.num * s.den) (s.num * r.den))) ∧ Word.Fits (r.den * s.den)

/-- The parts of a product are words before they are reduced. -/
def ProductFormed (r s : ℚ) : Prop := Word.Fits (r.num * s.num) ∧ Word.Fits (r.den * s.den)

/-- The parts of a quotient are words before they are reduced. -/
def QuotientFormed (r s : ℚ) : Prop := Word.Fits (r.num * s.den) ∧ Word.Fits (r.den * s.num)

/-- The denominator of a quotient has the sign of the divisor. If it is negative, both parts have to
be negated, unless the dividend is zero. -/
def QuotientSigned (r s : ℚ) : Prop :=
  r = 0 ∨ 0 < s ∨ Word.Fits (-(r.num * s.den)) ∧ Word.Fits (-(r.den * s.num))

instance (op : Int → Int → Int) (r s : ℚ) : Decidable (CrossFormed op r s) :=
  inferInstanceAs (Decidable ((_ ∧ _ ∧ _) ∧ _))

instance (r s : ℚ) : Decidable (ProductFormed r s) := inferInstanceAs (Decidable (_ ∧ _))

instance (r s : ℚ) : Decidable (QuotientFormed r s) := inferInstanceAs (Decidable (_ ∧ _))

instance (r s : ℚ) : Decidable (QuotientSigned r s) := inferInstanceAs (Decidable (_ ∨ _ ∨ _ ∧ _))

/-! ## Parts that are formed -/

section

variable {n : Number} {p q : Int} {r s t u : ℚ} {v : Float} {P : Prop} [Decidable P]

/-- Two checked words and their combination have to fit, and nothing else is asked. -/
theorem checked_both_eq_ite (f : Int → Int → Int) (a b : Int) :
    (do Word.checked (f (← Word.checked a) (← Word.checked b))) =
      if Word.Fits a ∧ Word.Fits b ∧ Word.Fits (f a b) then some (f a b) else none := by
  unfold Word.checked
  by_cases ha : Word.Fits a <;> by_cases hb : Word.Fits b <;> simp [ha, hb]

/-- Parts with a positive denominator make a fraction if both could be formed. -/
theorem ofParts_of_pos (hq : 0 < q) :
    ofParts (if P then some p else none) (Word.checked q) v =
      if P ∧ Word.Fits q then exact (p / q) else real v := by
  unfold Word.checked
  by_cases hp : P
  · by_cases hfits : Word.Fits q
    · simpa [hp, hfits, ofParts] using Stored.ofRatio_of_pos hq
    · simp [hp, hfits, ofParts]
  · simp [hp, ofParts]

theorem ofParts_none_left {b : Option Int} : ofParts none b v = real v := by
  cases b <;> rfl

theorem ofParts_none_right {a : Option Int} : ofParts a none v = real v := by
  cases a <;> rfl

/-- A fraction that an operation gives is known to be the exact one. -/
theorem eq_ite_exact (h : n = if P then exact u else real v)
    (hexact : n.isExact = true → n = exact t) : n = if P then exact t else real v := by
  by_cases hP : P
  · rw [if_pos hP] at h ⊢
    exact hexact (by rw [h]; rfl)
  · rwa [if_neg hP] at h ⊢

/-- The sum is exact if and only if all its products can be formed. -/
theorem add_eq_ite : exact r + exact s =
    if CrossFormed (· + ·) r s then exact (r + s) else real ((exact r).value + (exact s).value) := by
  refine eq_ite_exact (u := (r.num * s.den + s.num * r.den : Int) / (r.den * s.den : Int)) ?_
    add_eq_exact
  change ofParts _ _ _ = _
  rw [checked_both_eq_ite (· + ·), ofParts_of_pos (by positivity)]
  rfl

/-- The difference is exact if and only if all its products can be formed. -/
theorem sub_eq_ite : exact r - exact s =
    if CrossFormed (· - ·) r s then exact (r - s) else real ((exact r).value - (exact s).value) := by
  refine eq_ite_exact (u := (r.num * s.den - s.num * r.den : Int) / (r.den * s.den : Int)) ?_
    sub_eq_exact
  change ofParts _ _ _ = _
  rw [checked_both_eq_ite (· - ·), ofParts_of_pos (by positivity)]
  rfl

/-- The product is exact if and only if both parts can be formed. -/
theorem mul_eq_ite : exact r * exact s =
    if ProductFormed r s then exact (r * s) else real ((exact r).value * (exact s).value) := by
  refine eq_ite_exact (u := (r.num * s.num : Int) / (r.den * s.den : Int)) ?_ mul_eq_exact
  change ofParts (Word.checked _) _ _ = _
  rw [Word.checked, ofParts_of_pos (by positivity)]
  rfl

/-- A fraction of two words is lost only if a sign has to be moved and cannot. -/
theorem ofRatio_eq_ite (hp : Word.Fits p) (hq : Word.Fits q) (hq0 : q ≠ 0) :
    ofRatio p q =
      if p = 0 ∨ 0 < q ∨ Word.Fits (-p) ∧ Word.Fits (-q) then exact (p / q)
      else real (Double.ofInt p / Double.ofInt q) := by
  rw [ofRatio, if_neg hq0]
  by_cases hp0 : p = 0
  · rw [if_pos hp0, if_pos (.inl hp0), hp0, Int.cast_zero, zero_div]
    rfl
  · have hiff : (p = 0 ∨ 0 < q ∨ Word.Fits (-p) ∧ Word.Fits (-q)) ↔
        ¬(q < 0 ∧ (p = Word.least ∨ q = Word.least)) := by
      rw [Word.fits_neg hp, Word.fits_neg hq, not_and_or, not_or, not_lt]
      exact ⟨fun h => (h.resolve_left hp0).imp_left le_of_lt,
        fun h => .inr (h.imp_left fun hle => lt_of_le_of_ne hle hq0.symm)⟩
    rw [if_neg hp0, Rat.divInt_eq_div]
    simp only [hiff, ite_not]

theorem num_mul_den_eq_zero : r.num * s.den = 0 ↔ r = 0 := by
  rw [mul_eq_zero, Rat.num_eq_zero, Int.natCast_eq_zero]
  exact or_iff_left s.den_nz

theorem den_mul_num_pos : 0 < (r.den : Int) * s.num ↔ 0 < s := by
  rw [mul_pos_iff_of_pos_left (Int.natCast_pos.2 r.den_pos), Rat.num_pos]

/-- The divisor is tested on doubles, and the test is exact. -/
theorem div_eq_ofParts (hs : (exact s).Fits) : exact r / exact s =
    if s = 0 then undefined
    else ofParts (Word.checked (r.num * s.den)) (Word.checked (r.den * s.num))
      ((exact r).value / (exact s).value) := by
  change div (exact r) (exact s) = _
  unfold div
  rw [isZero_exact hs]
  simp only [decide_eq_true_eq]

/-- The quotient is exact if and only if its parts can be formed and given their signs. -/
theorem div_eq_ite (hs : (exact s).Fits) : exact r / exact s =
    if s = 0 then undefined
    else if QuotientFormed r s then
      if QuotientSigned r s then exact (r / s)
      else real (Double.ofInt (r.num * s.den) / Double.ofInt (r.den * s.num))
    else real ((exact r).value / (exact s).value) := by
  have hparts := div_eq_ofParts (r := r) hs
  by_cases hs0 : s = 0
  · rwa [if_pos hs0] at hparts ⊢
  rw [if_neg hs0] at hparts ⊢
  unfold Word.checked at hparts
  by_cases hformed : QuotientFormed r s
  · have hq0 : (r.den : Int) * s.num ≠ 0 :=
      mul_ne_zero (Int.natCast_ne_zero.2 r.den_nz) (Rat.num_ne_zero.2 hs0)
    rw [if_pos hformed.1, if_pos hformed.2, ofParts, ofRatio_eq_ite hformed.1 hformed.2 hq0]
      at hparts
    rw [if_pos hformed]
    refine eq_ite_exact (hparts.trans (if_congr ?_ rfl rfl)) fun h => (div_eq_exact h).2
    exact or_congr num_mul_den_eq_zero (or_congr den_mul_num_pos Iff.rfl)
  · rw [if_neg hformed, hparts]
    rcases not_and_or.1 hformed with hp | hq
    · rw [if_neg hp, ofParts_none_left]
    · rw [if_neg hq, ofParts_none_right]

end

/-! ## Where nothing is lost -/

section

variable {r s : ℚ}

/-- The parts of the fraction have 32 bits. -/
def IsSmall (r : ℚ) : Prop := r.num.natAbs < 2 ^ 31 ∧ r.den < 2 ^ 31

theorem natAbs_mul_lt {a b : Int} (ha : a.natAbs < 2 ^ 31) (hb : b.natAbs < 2 ^ 31) :
    (a * b).natAbs < 2 ^ 62 := by
  rw [Int.natAbs_mul]
  calc a.natAbs * b.natAbs
    _ < 2 ^ 31 * 2 ^ 31 := Nat.mul_lt_mul'' ha hb
    _ = 2 ^ 62 := by norm_num

/-- Arithmetic on fractions whose parts have 32 bits is exact. -/
theorem arithmetic_of_small (hr : IsSmall r) (hs : IsSmall s) :
    exact r + exact s = exact (r + s) ∧ exact r - exact s = exact (r - s) ∧
      exact r * exact s = exact (r * s) ∧ (s ≠ 0 → exact r / exact s = exact (r / s)) := by
  obtain ⟨hp, hq⟩ := hr
  obtain ⟨hp', hq'⟩ := hs
  have hleft := natAbs_mul_lt (b := s.den) hp hq'
  have hright := natAbs_mul_lt (b := r.den) hp' hq
  have hdens := natAbs_mul_lt (a := r.den) (b := s.den) hq hq'
  have hnums := natAbs_mul_lt hp hp'
  have hlower := natAbs_mul_lt (a := r.den) hq hp'
  have hfits {a : Int} (h : a.natAbs < 2 ^ 63) : Word.Fits a := by
    unfold Word.Fits Word.least Word.greatest
    omega
  have hsum : Word.Fits (r.num * s.den + s.num * r.den) := hfits (by omega)
  have hdifference : Word.Fits (r.num * s.den - s.num * r.den) := hfits (by omega)
  refine ⟨?_, ?_, ?_, fun hs0 => ?_⟩
  · rw [add_eq_ite, if_pos]
    exact ⟨⟨hfits (by omega), hfits (by omega), hsum⟩, hfits (by omega)⟩
  · rw [sub_eq_ite, if_pos]
    exact ⟨⟨hfits (by omega), hfits (by omega), hdifference⟩, hfits (by omega)⟩
  · rw [mul_eq_ite, if_pos]
    exact ⟨hfits (by omega), hfits (by omega)⟩
  · rw [div_eq_ite ⟨hfits (by omega), hfits (by omega)⟩, if_neg hs0, if_pos, if_pos]
    · exact .inr (.inr ⟨hfits (by omega), hfits (by omega)⟩)
    · exact ⟨hfits (by omega), hfits (by omega)⟩

/-- A sum, difference or product of integers is exact whenever it is a word. -/
theorem arithmetic_of_integers {m n : Int} (hm : Word.Fits m) (hn : Word.Fits n) :
    (Word.Fits (m + n) → ofInt m + ofInt n = ofInt (m + n)) ∧
      (Word.Fits (m - n) → ofInt m - ofInt n = ofInt (m - n)) ∧
      (Word.Fits (m * n) → ofInt m * ofInt n = ofInt (m * n)) := by
  have hone : Word.Fits 1 := by decide
  unfold ofInt
  refine ⟨fun h => ?_, fun h => ?_, fun h => ?_⟩
  · rw [add_eq_ite, if_pos]
    · rw [Int.cast_add]
    · simpa [CrossFormed] using ⟨⟨hm, hn, h⟩, hone⟩
  · rw [sub_eq_ite, if_pos]
    · rw [Int.cast_sub]
    · simpa [CrossFormed] using ⟨⟨hm, hn, h⟩, hone⟩
  · rw [mul_eq_ite, if_pos]
    · rw [Int.cast_mul]
    · simpa [ProductFormed] using ⟨h, hone⟩

end

/-! ## The four operations -/

/-- An operation on two fractions gives a fraction, and then the exact one, if and only if the parts
it forms before reducing them are words, with a sign that can be moved where the divisor is
negative. Otherwise it gives a double. So nothing is lost on fractions whose parts have 32 bits, and
on integers as long as the result is a word. -/
theorem arithmetic_eq_ite {r s : ℚ} (hs : (exact s).Fits) :
    (exact r + exact s =
      if CrossFormed (· + ·) r s then exact (r + s)
      else real ((exact r).value + (exact s).value)) ∧
    (exact r - exact s =
      if CrossFormed (· - ·) r s then exact (r - s)
      else real ((exact r).value - (exact s).value)) ∧
    (exact r * exact s =
      if ProductFormed r s then exact (r * s) else real ((exact r).value * (exact s).value)) ∧
    (exact r / exact s =
      if s = 0 then undefined
      else if QuotientFormed r s then
        if QuotientSigned r s then exact (r / s)
        else real (Double.ofInt (r.num * s.den) / Double.ofInt (r.den * s.num))
      else real ((exact r).value / (exact s).value)) ∧
    (IsSmall r → IsSmall s →
      exact r + exact s = exact (r + s) ∧ exact r - exact s = exact (r - s) ∧
        exact r * exact s = exact (r * s) ∧ (s ≠ 0 → exact r / exact s = exact (r / s))) ∧
    ∀ m n : Int, Word.Fits m → Word.Fits n →
      (Word.Fits (m + n) → ofInt m + ofInt n = ofInt (m + n)) ∧
        (Word.Fits (m - n) → ofInt m - ofInt n = ofInt (m - n)) ∧
        (Word.Fits (m * n) → ofInt m * ofInt n = ofInt (m * n)) :=
  ⟨add_eq_ite, sub_eq_ite, mul_eq_ite, div_eq_ite hs, arithmetic_of_small,
    fun _ _ => arithmetic_of_integers⟩

/-- The quotient of `-1` by `-2/3` is a fraction: its parts `-3` and `-2` can be negated. The sum of
`1/3` and `-2^62` is the double, since `3 * 2^62` is no word. -/
theorem arithmetic_eq_ite_thirds :
    (exact (-2 / 3)).Fits ∧ exact (-1) / exact (-2 / 3) = exact (3 / 2) ∧
      (exact (-4611686018427387904)).Fits ∧
      exact (1 / 3) + exact (-4611686018427387904) =
        real ((exact (1 / 3)).value + (exact (-4611686018427387904)).value) := by
  have hthirds : (exact (-2 / 3)).Fits := ⟨by decide +kernel, by decide +kernel⟩
  have hlarge : (exact (-4611686018427387904)).Fits := ⟨by decide +kernel, by decide +kernel⟩
  obtain ⟨-, -, -, hquotient, -⟩ := arithmetic_eq_ite (r := -1) hthirds
  obtain ⟨hsum, -⟩ := arithmetic_eq_ite (r := 1 / 3) hlarge
  refine ⟨hthirds, ?_, hlarge, ?_⟩
  · rw [hquotient, if_neg (by decide +kernel), if_pos (by decide +kernel),
      if_pos (by decide +kernel)]
    exact congrArg exact (by norm_num)
  · rw [hsum, if_neg (by decide +kernel)]

/-- The sum of `1/2^62` with itself is `1/2^61`, and the quotient of `-2^63` and `-2` is `2^62`, but
the denominator `2^124` is no word, and neither is the negation of `-2^63`. -/
theorem representable_sum_degrades :
    let r : ℚ := 1 / 4611686018427387904
    let least : ℚ := -9223372036854775808
    ((exact r).Fits ∧ (exact (r + r)).Fits ∧ exact r + exact r ≠ exact (r + r)) ∧
      (exact least).Fits ∧ (exact (-2)).Fits ∧ (exact (least / -2)).Fits ∧
        exact least / exact (-2) ≠ exact (least / -2) := by
  refine ⟨⟨⟨?_, ?_⟩, ⟨?_, ?_⟩, ?_⟩, ⟨?_, ?_⟩, ⟨?_, ?_⟩, ⟨?_, ?_⟩, ?_⟩ <;> decide +kernel

end Number

end Formulary
