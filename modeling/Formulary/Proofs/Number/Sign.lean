import Formulary.Decimal.Reading
import Formulary.Proofs.Double.Sign

/-!
# The sign of a number

The negation of a number has the negated double as its value, zero apart: the fraction zero is its
own negation, while the double has a second zero. A negation may leave the fractions, since the
least word has no negation, but then a second one stays on doubles, and a third changes nothing.

What is read from a text without a minus sign at its front is not negative (`unsigned_read?`), and
two negations give it back.
-/

namespace Formulary

namespace Double

theorem unsigned_zero : Unsigned 0 := unsigned_ofScientific 0 false 0

theorem unsigned_one : Unsigned 1 := unsigned_ofScientific 1 false 0

theorem unsigned_nan : Unsigned nan := unsigned_div unsigned_zero unsigned_zero

theorem unsigned_infinity : Unsigned infinity := unsigned_div unsigned_one unsigned_zero

theorem unsigned_toDouble (d : Decimal) : Unsigned d.toDouble := by
  unfold Decimal.toDouble
  dsimp only
  split_ifs
  · exact unsigned_zero
  · exact unsigned_infinity
  · exact unsigned_ofScientific _ _ _
  · exact unsigned_ofScientific _ _ _

theorem toInt_nonneg {v : Float} (h : Unsigned v) : 0 ≤ toInt v := by
  rw [toInt, if_neg (not_lt_zero h)]
  unfold Word.greatest
  omega

/-- What is read from a text without a minus sign at its front is not negative. -/
theorem unsigned_read? {text : String} (h : text.toList.head? ≠ some '-') {v : Float}
    (hv : read? text = some v) : Unsigned v := by
  have hunsigned {cs : List Char} (hv : readUnsigned? cs = some v) : Unsigned v := by
    unfold readUnsigned? at hv
    split at hv
    · obtain rfl := Option.some.inj hv
      exact unsigned_nan
    · obtain rfl := Option.some.inj hv
      exact unsigned_infinity
    · obtain ⟨d, -, rfl⟩ := Option.map_eq_some_iff.1 hv
      exact unsigned_toDouble d
  unfold read? at hv
  split at hv
  · rename_i heq
    rw [heq] at h
    exact absurd rfl h
  · exact hunsigned hv
  · exact hunsigned hv

end Double

namespace Number

variable {n : Number}

/-- The value of the negative is the negative of the value, zero apart. -/
theorem value_neg (h : n ≠ 0) : (-n).value = -n.value := by
  cases n with
  | real v => rfl
  | exact r =>
    have hnum : r.num ≠ 0 := fun hnum => h (congrArg exact (Rat.num_eq_zero.1 hnum))
    change (neg (exact r)).value = _
    rw [neg]
    split
    · change Double.ofInt (-r).num / Double.ofInt (-r).den = -(_ / _)
      rw [Rat.neg_num, Rat.neg_den, Double.ofInt_neg hnum, Double.neg_div]
    · exact Double.neg_div _ _

theorem neg_ne_zero (h : n ≠ 0) : -n ≠ 0 := by
  intro hzero
  cases n with
  | real v => cases hzero
  | exact r =>
    change neg (exact r) = exact 0 at hzero
    rw [neg] at hzero
    split at hzero
    · exact h (congrArg exact (neg_eq_zero.1 (exact.inj hzero)))
    · cases hzero

theorem ne_zero_of_isNegative (h : n.isNegative = true) : n ≠ 0 := by
  rintro rfl
  exact absurd h (by rw [show (0 : Number) = ofInt 0 from rfl, isNegative_ofInt] <;> decide)

/-- The numerator of a negative fraction is below zero. -/
theorem num_neg_of_isNegative {r : ℚ} (h : (exact r).isNegative = true) : r.num < 0 := by
  by_contra hnum
  have hunsigned : Double.Unsigned (exact r).value :=
    Double.unsigned_div (Double.unsigned_ofInt (by omega)) (Double.unsigned_ofInt (by omega))
  exact Double.not_lt_zero hunsigned (of_decide_eq_true h)

theorem isNegative_neg (h : n.isNegative = true) : (-n).isNegative = false := by
  have hlt : n.value < 0 := of_decide_eq_true h
  refine decide_eq_false ?_
  rw [value_neg (ne_zero_of_isNegative h)]
  exact Double.not_lt_zero (Double.unsigned_neg hlt)

theorem value_neg_neg (h : n ≠ 0) : (- -n).value = n.value := by
  rw [value_neg (neg_ne_zero h), value_neg h, Double.neg_neg]

theorem isNegative_neg_neg (h : n.isNegative = true) : (- -n).isNegative = true := by
  unfold isNegative
  rw [value_neg_neg (ne_zero_of_isNegative h)]
  exact h

theorem neg_eq_of_fits {r : ℚ} (h : Word.Fits (-r.num)) : -exact r = exact (-r) := by
  change neg (exact r) = _
  rw [neg, Word.checked_eq_some.2 ⟨h, rfl⟩]

/-- From the first negation on, a negative number goes back and forth. -/
theorem neg_neg_neg (h : n.isNegative = true) : - - -n = -n := by
  cases n with
  | real v => exact congrArg real (Double.neg_neg (-v))
  | exact r =>
    by_cases hfits : Word.Fits (-r.num)
    · -- the numerator is above the least word, so it can be negated twice
      have hback : Word.Fits (-(-r).num) := by
        have hnum := num_neg_of_isNegative h
        rw [Rat.neg_num]
        unfold Word.Fits Word.least Word.greatest at *
        omega
      rw [neg_eq_of_fits hfits, neg_eq_of_fits hback, neg_neg, neg_eq_of_fits hfits]
    · have hreal : -exact r = real (-Double.ofInt r.num / Double.ofInt r.den) := by
        change neg (exact r) = _
        rw [neg, Word.checked, if_neg hfits]
      rw [hreal]
      exact congrArg real (Double.neg_neg _)

/-- What is not negative is read as a number that is not negative. -/
theorem isNegative_ofDouble {v : Float} (h : Double.Unsigned v) :
    (ofDouble v).isNegative = false := by
  unfold ofDouble
  split
  · refine Bool.eq_false_iff.2 fun hnegative => ?_
    have hnum := num_neg_of_isNegative hnegative
    rw [Rat.num_intCast] at hnum
    exact absurd hnum (Int.not_lt.2 (Double.toInt_nonneg h))
  · exact decide_eq_false (Double.not_lt_zero h)

/-- A number that is not negative is negated twice without a change. -/
theorem neg_neg_ofDouble {v : Float} (h : Double.Unsigned v) : - -ofDouble v = ofDouble v := by
  unfold ofDouble
  split
  · have hfits := Double.fits_toInt v
    have hnonneg := Double.toInt_nonneg h
    have hneg : Word.Fits (-((Double.toInt v : ℚ)).num) := by
      rw [Rat.num_intCast]
      unfold Word.Fits Word.least Word.greatest at *
      omega
    have hback : Word.Fits (-(-(Double.toInt v : ℚ)).num) := by
      rw [Rat.neg_num, Rat.num_intCast, neg_neg]
      exact hfits
    rw [ofInt, neg_eq_of_fits hneg, neg_eq_of_fits hback, neg_neg]
  · exact congrArg real (Double.neg_neg v)

end Number

end Formulary
