import Formulary.Proofs.Double.Rounding
import Formulary.Proofs.Number.Overflow

/-!
# Integer powers

An integer power of a fraction is formed from the powers of its parts, and these are in lowest terms
from the start. So the power is exact as soon as its parts are words, for every exponent of 32 bits;
the sign of the base never stands in the way, since a numerator that cannot be negated has no
negative power of words.

Beyond 32 bits only zero and the two units have powers of words, and these are left to the doubles.
The least word is lost altogether: it has no negation, and so no number has a power with this
exponent.
-/

namespace Formulary

namespace Word

/-- From the exponent 64 on only zero and the units have powers that are words. -/
theorem natAbs_le_one_of_fits_pow {b : Int} {j : Nat} (hj : 64 ≤ j) (h : Fits (b ^ j)) :
    b.natAbs ≤ 1 := by
  by_contra hb
  have hlarge : 2 ^ 64 ≤ (b ^ j).natAbs := by
    rw [Int.natAbs_pow]
    calc 2 ^ 64
      _ ≤ 2 ^ j := Nat.pow_le_pow_right (by decide) hj
      _ ≤ b.natAbs ^ j := Nat.pow_le_pow_left (by omega) j
  unfold Fits least greatest at h
  omega

end Word

namespace Number

variable {n : Number} {r : ℚ} {j : Nat} {k : Int}

/-- The fraction a number stands for; an infinite or an undefined number stands for none. -/
def ratio? : Number → Option ℚ
  | exact r => some r
  | real v => Double.ratio? v

/-- The test for zero is exact on numbers whose parts are words. -/
theorem isZero_iff_ratio? (hn : n.Fits) : n.isZero = true ↔ n.ratio? = some 0 := by
  cases n with
  | exact r => rw [isZero_exact hn, decide_eq_true_iff, ratio?, Option.some_inj]
  | real v =>
    change (v == 0) = true ↔ Double.ratio? v = some 0
    cases hv : Double.ratio? v with
    | some x => rw [Double.beq_of_ratio? hv Double.ratio?_zero, decide_eq_true_iff, Option.some_inj]
    | none =>
      obtain rfl | rfl | rfl := Double.eq_of_ratio?_eq_none hv <;>
        exact iff_of_false (by decide +kernel) nofun

/-- A power does not exist for a negative exponent of zero, nor for the least word. -/
theorem pow?_eq_none_iff (hk : Word.Fits k) :
    n.pow? k = none ↔ k < 0 ∧ (n.isZero = true ∨ k = Word.least) := by
  unfold pow?
  split_ifs with hnonneg hzero
  · simp [not_lt.2 hnonneg]
  · simp [not_le.1 hnonneg, hzero]
  · simp [Word.checked, Word.fits_neg hk, not_le.1 hnonneg, hzero]

/-! ## Powers of words -/

theorem powNat_of_fits (h : (exact (r ^ j)).Fits) (hj : j < UInt32.size) :
    (exact r).powNat j = exact (r ^ j) := by
  obtain ⟨hnum, hden⟩ : Word.Fits (r.num ^ j) ∧ Word.Fits ((r.den : Int) ^ j) := by
    rw [Fits, Rat.num_pow, Rat.den_pow] at h
    exact ⟨h.1, by exact_mod_cast h.2⟩
  have hpos : 0 < (r.den : Int) ^ j := by positivity
  rw [powNat]
  simp only [if_pos hj, Word.power?_eq_checked, Word.checked, if_pos hnum, if_pos hden]
  rw [Stored.ofRatio_of_pos hpos]
  push_cast
  rw [← div_pow, Rat.num_div_den]

/-- Only the least word has a reciprocal that is no fraction of words. -/
theorem inverse_of_fits (hn : (exact r).Fits) (hr : r ≠ 0) (hnum : r.num ≠ Word.least) :
    (exact r).inverse = exact r⁻¹ := by
  have hnum0 : r.num ≠ 0 := Rat.num_ne_zero.2 hr
  have hden : Word.Fits (-r.den) := (Word.fits_neg hn.2).2 fun h => by
    unfold Word.least at h
    omega
  rw [inverse, if_neg hnum0, ofRatio_eq_ite hn.2 hn.1 hnum0,
    if_pos (.inr (.inr ⟨hden, (Word.fits_neg hn.1).2 hnum⟩)), Int.cast_natCast, ← inv_div,
    Rat.num_div_den]

/-- The reciprocal of the least word has no positive power of words. -/
theorem num_ne_least_of_fits_inv_pow (hj : j ≠ 0) (h : (exact (r⁻¹ ^ j)).Fits) :
    r.num ≠ Word.least := by
  intro hnum
  have hden : (r⁻¹ ^ j).den = (2 ^ 63) ^ j := by
    have hr : r ≠ 0 := Rat.num_ne_zero.1 (by rw [hnum]; decide)
    rw [Rat.den_pow, Rat.den_inv_of_ne_zero hr, hnum]
    rfl
  have hlarge : 2 ^ 63 ≤ (r⁻¹ ^ j).den := by
    rw [hden]
    exact Nat.le_self_pow hj _
  have hfits := h.2
  unfold Word.Fits Word.greatest at hfits
  omega

theorem zpow_eq_inv_pow (hk : k ≤ 0) : r ^ k = r⁻¹ ^ (-k).toNat := by
  rw [← zpow_natCast, Int.toNat_of_nonneg (by omega), inv_zpow, zpow_neg, inv_inv]

/-- A power of words is exact for every exponent of 33 bits with a sign. -/
theorem pow?_of_fits (hn : (exact r).Fits) (hr : r ≠ 0 ∨ 0 ≤ k) (h : (exact (r ^ k)).Fits)
    (hk : k.natAbs < UInt32.size) : (exact r).pow? k = some (exact (r ^ k)) := by
  unfold pow?
  split_ifs with hnonneg hzero
  · have hpower : r ^ k = r ^ k.toNat := by
      rw [← zpow_natCast, Int.toNat_of_nonneg hnonneg]
    rw [hpower] at h ⊢
    rw [powNat_of_fits h (by omega)]
  · rw [isZero_exact hn, decide_eq_true_iff] at hzero
    exact (hr.resolve_right hnonneg hzero).elim
  · have hpower := zpow_eq_inv_pow (r := r) (not_le.1 hnonneg).le
    rw [hpower] at h ⊢
    have hnum := num_ne_least_of_fits_inv_pow (by omega) h
    have hword : Word.Fits (-k) := by
      unfold UInt32.size at hk
      unfold Word.Fits Word.least Word.greatest
      omega
    rw [Word.checked, if_pos hword, Option.map_some,
      inverse_of_fits hn (hr.resolve_right hnonneg) hnum, powNat_of_fits h (by omega)]

/-! ## Bases with large powers of words -/

/-- Beyond the exponent 64 only the powers of zero, one and minus one have words as parts. -/
theorem eq_unit_of_fits_pow (hj : 64 ≤ j) (h : (exact (r ^ j)).Fits) :
    r = 0 ∨ r = 1 ∨ r = -1 := by
  rw [Fits, Rat.num_pow, Rat.den_pow] at h
  have hnum := Word.natAbs_le_one_of_fits_pow hj h.1
  have hden := Word.natAbs_le_one_of_fits_pow (b := r.den) hj (by exact_mod_cast h.2)
  have hone : r.den = 1 := by
    have := r.den_pos
    omega
  rw [← (Rat.den_eq_one_iff r).1 hone]
  rcases (by omega : r.num = 0 ∨ r.num = 1 ∨ r.num = -1) with h | h | h <;> simp [h]

theorem eq_unit_of_fits_zpow (hk : 64 ≤ k.natAbs) (h : (exact (r ^ k)).Fits) :
    r = 0 ∨ r = 1 ∨ r = -1 := by
  rcases le_total 0 k with hnonneg | hneg
  · obtain ⟨j, rfl⟩ := Int.eq_ofNat_of_zero_le hnonneg
    rw [zpow_natCast] at h
    exact eq_unit_of_fits_pow hk h
  · rw [zpow_eq_inv_pow hneg] at h
    have hunit := eq_unit_of_fits_pow (by omega) h
    rwa [inv_eq_zero, inv_eq_one, inv_eq_iff_eq_inv, inv_neg, inv_one] at hunit

/-! ## The powers that exist and those that are exact -/

/-- A power is missing only where zero would be inverted and for the least word. If the exact power
has parts of words, it is given for exponents of 32 bits and no others; beyond them only zero and
the units have such powers. -/
theorem pow?_exact_iff {n : Number} {k : Int} (hn : n.Fits) (hk : Word.Fits k) :
    (n.pow? k = none ↔ k < 0 ∧ (n.ratio? = some 0 ∨ k = Word.least)) ∧
      ∀ r, n = exact r → (r ≠ 0 ∨ 0 ≤ k) → (exact (r ^ k)).Fits →
        (n.pow? k = some (exact (r ^ k)) ↔ k.natAbs < UInt32.size) ∧
          (UInt32.size ≤ k.natAbs → r = 0 ∨ r = 1 ∨ r = -1) := by
  refine ⟨?_, ?_⟩
  · rw [pow?_eq_none_iff hk, isZero_iff_ratio? hn]
  · rintro r rfl hr hfits
    refine ⟨⟨fun h => (pow?_eq_exact h rfl).1, pow?_of_fits hn hr hfits⟩, fun hlarge => ?_⟩
    exact eq_unit_of_fits_zpow (le_trans (by decide) hlarge) hfits

/-- The power of `-1/2` with the exponent `-63` is the least word, although the reciprocal is formed
with a negative denominator first. -/
theorem pow?_exact_least :
    (exact (-1 / 2)).Fits ∧ Word.Fits (-63) ∧
      (exact (-1 / 2)).pow? (-63) = some (exact (-9223372036854775808)) := by
  have hn : (exact (-1 / 2)).Fits := ⟨by decide +kernel, by decide +kernel⟩
  have hpower : (-1 / 2 : ℚ) ^ (-63 : Int) = -9223372036854775808 := by norm_num
  have hexact := (pow?_exact_iff hn (by decide : Word.Fits (-63))).2 _ rfl (.inl (by norm_num))
  rw [hpower] at hexact
  exact ⟨hn, by decide, (hexact ⟨by decide +kernel, by decide +kernel⟩).1.2 (by decide)⟩

/-- One has no power with the least word as exponent, though it is not zero; and the power of `-1`
with the exponent `2 ^ 32 + 1` is `-1` again, but not the exact one. -/
theorem unit_pow?_lost :
    (ofInt 1).Fits ∧ (ofInt 1).ratio? = some 1 ∧ Word.Fits Word.least ∧
      (ofInt 1).pow? Word.least = none ∧
      (ofInt (-1)).Fits ∧ Word.Fits 4294967297 ∧ (-1 : ℚ) ^ (4294967297 : Int) = -1 ∧
      (ofInt (-1)).pow? 4294967297 ≠ some (ofInt (-1)) := by
  refine ⟨⟨by decide, by decide⟩, rfl, by decide, ?_, ⟨by decide, by decide⟩, by decide, ?_,
    fun h => ?_⟩
  · exact (pow?_eq_none_iff (by decide)).2 ⟨by decide, .inr rfl⟩
  · exact Odd.neg_one_zpow ⟨2147483648, rfl⟩
  · exact absurd (pow?_eq_exact h rfl).1 (by decide)

end Number

end Formulary
