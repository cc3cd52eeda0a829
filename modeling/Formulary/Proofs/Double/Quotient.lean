import Formulary.Proofs.Double.Large

/-!
# Quotients of words

The double of a fraction of 64-bit words is zero only if the fraction is. Both doubles have a full
significand, so that their quotient has a full one too, and an exponent far above the least. The
test for zero is therefore exact on every fraction whose parts are words.

The quotient is one only if the two doubles are the same: a quotient of full significands is never
rounded to a power of two that it is not. The test for one therefore sees whether the parts of the
fraction have the same double (`isOne_exact`), and it is exact as long as they are below `2 ^ 53`.
-/

namespace Formulary.Double

open Float.Model Float.Model.UnpackedFloat

/-- The float has a full significand and an exponent that an integer of 64 bits can have. -/
def WordParts (f : UnpackedFloat) : Prop :=
  ∃ sign m e, ∃ hpos : 0 < m, f = .finite sign m e hpos ∧ m.log2 = 52 ∧ -52 ≤ e ∧ e ≤ 12

/-- A word that is not zero becomes a double with a full significand and a small exponent. -/
theorem wordParts_ofInt {k : Int} (hk : Word.Fits k) (hne : k ≠ 0) :
    WordParts (ofInt k).toModel.unpack := by
  rcases Nat.lt_or_ge k.natAbs (2 ^ 53) with hsmall | hlarge
  · have hnat : k.natAbs ≠ 0 := by omega
    have hlog := log2_le_of_lt hsmall
    obtain ⟨sign, hparts, -⟩ := is_ofInt hsmall
    rw [wholeParts, dif_neg hnat] at hparts
    exact ⟨sign, _, _, by positivity, hparts, log2_filled hnat hsmall, by omega, by omega⟩
  · obtain ⟨sign, m, e, hpos, hparts, hm, hlow, hhigh⟩ := large_ofInt hk hlarge
    exact ⟨sign, m, e, hpos, hparts, hm, by omega, hhigh⟩

section

variable {m n : Nat}

/-- The quotient of two full significands is formed with 53 more bits than it has before. -/
theorem divCore_full (hm : m.log2 = 52) (hn : n.log2 = 52) {d e : Int} (he : -1021 ≤ d - e) :
    divCore Format.binary64 m d n e =
      (m * 2 ^ 53 / n, d - e - 53, accuracyOfFraction (m * 2 ^ 53 % n) n) := by
  have htarget : min (d - e)
      (Format.binary64.targetExponent (totalExponent m d - totalExponent n e)) = d - e - 53 := by
    simp only [Format.targetExponent, totalExponent, hm, hn, Format.mantissaBits,
      Format.minExponent]
    omega
  have hshift : (d - e - (d - e - 53)).toNat = 53 := by omega
  simp only [divCore, htarget, hshift, Nat.shiftLeft_eq]

/-- So it has 53 or 54 bits. -/
theorem log2_quotient (hm : m.log2 = 52) (hn : n.log2 = 52) :
    ∃ s, s ≤ 1 ∧ (m * 2 ^ 53 / n).log2 = 52 + s := by
  have hbm := bounds_of_log2 (s := 0) hm
  have hbn := bounds_of_log2 (s := 0) hn
  have hlow : 2 ^ 52 ≤ m * 2 ^ 53 / n := by
    rw [Nat.le_div_iff_mul_le (by omega)]
    exact Nat.mul_le_mul hbm.1 hbn.2.le
  have hhigh : m * 2 ^ 53 / n < 2 ^ 54 := by
    rw [Nat.div_lt_iff_lt_mul (by omega)]
    calc m * 2 ^ 53 < 2 ^ 53 * 2 ^ 53 := Nat.mul_lt_mul_of_pos_right hbm.2 (by positivity)
      _ = 2 ^ 54 * 2 ^ 52 := by norm_num
      _ ≤ 2 ^ 54 * n := Nat.mul_le_mul_left _ hbn.1
  have hleast := (Nat.le_log2 (by omega)).2 hlow
  have hgreatest := (Nat.log2_lt (by omega)).2 hhigh
  exact ⟨(m * 2 ^ 53 / n).log2 - 52, by omega, by omega⟩

end

/-! ## Quotients that are one -/

/-- More than half is rounded up. -/
theorem rounded_zero {m rest n : Nat} (h : n < 2 * rest) :
    rounded m (accuracyOfFraction rest n) 0 = m + 1 := by
  have hrest : rest ≠ 0 := by omega
  rw [accuracyOfFraction, if_neg hrest, Nat.compare_eq_gt.2 h]
  rfl

/-- The bit that is cut off decides, and what was lost before breaks a tie. -/
theorem rounded_one (m rest n : Nat) :
    rounded m (accuracyOfFraction rest n) 1 =
      if m % 2 = 0 then m / 2 else if rest = 0 then m / 2 + m / 2 % 2 else m / 2 + 1 := by
  have hstep (accuracy : Accuracy) : ExtendedMantissa.ofMantissaAndAccuracy m accuracy >>> 1 =
      (ExtendedMantissa.ofMantissaAndAccuracy m accuracy).shiftRightOne := rfl
  rw [rounded, hstep]
  rcases Nat.mod_two_eq_zero_or_one m with h | h <;> by_cases hrest : rest = 0 <;>
    rcases hcompare : compare (2 * rest) n <;>
    simp [accuracyOfFraction, ExtendedMantissa.ofMantissaAndAccuracy,
      ExtendedMantissa.shiftRightOne, ExtendedMantissa.roundedMantissa, ExtendedMantissa.accuracy,
      Accuracy.roundToNearestEven, h, hrest, hcompare]

section

variable {m n : Nat} (hm : m.log2 = 52) (hn : n.log2 = 52)
include hm hn

/-- A quotient below one half of its range is rounded away from the power of two below it. -/
theorem rounded_quotient_of_lt (h : m < n) :
    (m * 2 ^ 53 / n).log2 = 52 ∧
      2 ^ 52 < rounded (m * 2 ^ 53 / n) (accuracyOfFraction (m * 2 ^ 53 % n) n) 0 ∧
      rounded (m * 2 ^ 53 / n) (accuracyOfFraction (m * 2 ^ 53 % n) n) 0 < 2 ^ 53 := by
  have hbm := bounds_of_log2 (s := 0) hm
  have hbn := bounds_of_log2 (s := 0) hn
  have hpos : 0 < n := by omega
  have hlow : 2 ^ 52 ≤ m * 2 ^ 53 / n := (Nat.le_div_iff_mul_le hpos).2 (by omega)
  have hhigh : m * 2 ^ 53 / n < 2 ^ 53 - 1 := (Nat.div_lt_iff_lt_mul hpos).2 (by omega)
  have hbounds := rounded_bounds (m * 2 ^ 53 / n) (accuracyOfFraction (m * 2 ^ 53 % n) n) 0
  rw [pow_zero, Nat.div_one] at hbounds
  refine ⟨(Nat.log2_eq_iff (by omega)).2 ⟨hlow, by omega⟩, ?_, by omega⟩
  by_cases hleast : m * 2 ^ 53 / n = 2 ^ 52
  · have hrest := Nat.div_add_mod (m * 2 ^ 53) n
    rw [hleast] at hrest ⊢
    rw [rounded_zero (by omega)]
    omega
  · omega

/-- A quotient from one on is rounded to the power of two only if it is one. -/
theorem rounded_quotient_of_le (h : n ≤ m) :
    (m * 2 ^ 53 / n).log2 = 53 ∧
      2 ^ 52 ≤ rounded (m * 2 ^ 53 / n) (accuracyOfFraction (m * 2 ^ 53 % n) n) 1 ∧
      rounded (m * 2 ^ 53 / n) (accuracyOfFraction (m * 2 ^ 53 % n) n) 1 < 2 ^ 53 ∧
      (rounded (m * 2 ^ 53 / n) (accuracyOfFraction (m * 2 ^ 53 % n) n) 1 = 2 ^ 52 ↔ m = n) := by
  have hbm := bounds_of_log2 (s := 0) hm
  have hbn := bounds_of_log2 (s := 0) hn
  have hpos : 0 < n := by omega
  have hlow : 2 ^ 53 ≤ m * 2 ^ 53 / n := (Nat.le_div_iff_mul_le hpos).2 (by omega)
  have hhigh : m * 2 ^ 53 / n < 2 ^ 54 - 1 := (Nat.div_lt_iff_lt_mul hpos).2 (by omega)
  have hrest := Nat.div_add_mod (m * 2 ^ 53) n
  have hless := Nat.mod_lt (m * 2 ^ 53) hpos
  have hone : m * 2 ^ 53 / n = 2 ^ 53 ↔ m = n := by
    constructor
    · intro heq
      rw [heq] at hrest
      omega
    · rintro rfl
      exact Nat.mul_div_cancel_left _ hpos
  -- an odd quotient is never exact, so that there is no tie
  have hodd : (m * 2 ^ 53 / n) % 2 = 1 → m * 2 ^ 53 % n ≠ 0 := by
    intro hodd hzero
    rw [hzero, add_zero] at hrest
    have hcoprime : Nat.Coprime (2 ^ 53) (m * 2 ^ 53 / n) :=
      (Nat.coprime_two_left.2 (Nat.odd_iff.2 hodd)).pow_left 53
    have hdvd : 2 ^ 53 ∣ n := hcoprime.dvd_of_dvd_mul_right ⟨m, by rw [hrest, mul_comm]⟩
    exact absurd (Nat.le_of_dvd hpos hdvd) (by omega)
  refine ⟨(Nat.log2_eq_iff (by omega)).2 ⟨hlow, by omega⟩, ?_⟩
  rw [rounded_one]
  split
  · omega
  · rw [if_neg (hodd (by omega))]
    omega

end

/-- Rounding the quotient of two full significands gives one only if they are the same. -/
theorem exists_round_quotient (sign : Sign) {m n : Nat} (hm : m.log2 = 52) (hn : n.log2 = 52)
    {d e : Int} (he : -1021 ≤ d - e) :
    ∃ k f, ∃ hpos : 0 < k,
      roundWithAccuracy Format.binary64 sign (m * 2 ^ 53 / n) (d - e - 53)
        (accuracyOfFraction (m * 2 ^ 53 % n) n) = .finite sign k f hpos ∧
      k.log2 = 52 ∧ d - e - 53 ≤ f ∧ f ≤ d - e - 52 ∧
      (k = 2 ^ 52 ∧ f = -52 ↔ m = n ∧ d = e) := by
  rcases Nat.lt_or_ge m n with hlt | hge
  · obtain ⟨hlog, hlow, hhigh⟩ := rounded_quotient_of_lt hm hn hlt
    obtain ⟨hpos, hround⟩ :=
      roundWithAccuracy_eq sign (s := 0) hlog (e := d - e - 53) (by omega) hlow.le hhigh
    exact ⟨_, _, hpos, hround, (Nat.log2_eq_iff (by omega)).2 ⟨by omega, hhigh⟩, by omega,
      by omega, by omega⟩
  · obtain ⟨hlog, hlow, hhigh, hone⟩ := rounded_quotient_of_le hm hn hge
    obtain ⟨hpos, hround⟩ :=
      roundWithAccuracy_eq sign (s := 1) hlog (e := d - e - 53) (by omega) hlow hhigh
    exact ⟨_, _, hpos, hround, (Nat.log2_eq_iff (by omega)).2 ⟨hlow, hhigh⟩, by omega, by omega,
      and_congr hone (by omega)⟩

/-- The parts of two words other than zero and of their quotient. -/
theorem exists_parts {p q : Int} (hp : Word.Fits p) (hq : Word.Fits q) (hp0 : p ≠ 0)
    (hq0 : q ≠ 0) :
    ∃ s m d, ∃ hm : 0 < m, (ofInt p).toModel.unpack = .finite s m d hm ∧
    ∃ t n e, ∃ hn : 0 < n, (ofInt q).toModel.unpack = .finite t n e hn ∧
    ∃ k f, ∃ hk : 0 < k, (ofInt p / ofInt q).toModel.unpack = .finite (s / t) k f hk ∧
      (k = 2 ^ 52 ∧ f = -52 ↔ m = n ∧ d = e) := by
  obtain ⟨s, m, d, hmpos, hu, hm, hdlow, hdhigh⟩ := wordParts_ofInt hp hp0
  obtain ⟨t, n, e, hnpos, hv, hn, helow, hehigh⟩ := wordParts_ofInt hq hq0
  have hcore := divCore_full hm hn (d := d) (e := e) (by omega)
  obtain ⟨k, f, hkpos, hround, hk, hflow, hfhigh, hone⟩ :=
    exists_round_quotient (s / t) hm hn (d := d) (e := e) (by omega)
  refine ⟨s, m, d, hmpos, hu, t, n, e, hnpos, hv, k, f, hkpos, ?_, hone⟩
  change (Float.Model.pack (UnpackedFloat.div Format.binary64 (ofInt p).toModel.unpack
    (ofInt q).toModel.unpack)).unpack = _
  rw [hu, hv]
  simp only [UnpackedFloat.div, hcore, hround]
  exact unpack_pack_normal (s / t) hk hkpos (by omega) (by omega)

/-- The quotient of two words other than zero is finite and not zero. -/
theorem unpack_div_ofInt {p q : Int} (hp : Word.Fits p) (hq : Word.Fits q) (hp0 : p ≠ 0)
    (hq0 : q ≠ 0) :
    ∃ sign m e, ∃ hpos : 0 < m, (ofInt p / ofInt q).toModel.unpack = .finite sign m e hpos := by
  obtain ⟨s, _, _, _, -, t, _, _, _, -, k, f, hk, hparts, -⟩ := exists_parts hp hq hp0 hq0
  exact ⟨s / t, k, f, hk, hparts⟩

/-- The quotient of two words that are not zero does not underflow to zero. -/
theorem div_ofInt_beq_zero {p q : Int} (hp : Word.Fits p) (hq : Word.Fits q) (hp0 : p ≠ 0)
    (hq0 : q ≠ 0) : (ofInt p / ofInt q == 0) = false := by
  obtain ⟨s, m, e, hpos, hparts⟩ := unpack_div_ofInt hp hq hp0 hq0
  obtain ⟨z, hz, -⟩ := is_zero
  have hdef : (ofInt p / ofInt q == 0) =
      ((ofInt p / ofInt q).toModel.unpack.compare (0 : Float).toModel.unpack == some .eq) := rfl
  rw [hdef, hparts, hz]
  cases s <;> rfl

/-- Finite doubles are equal if and only if their parts are. -/
theorem beq_finite {v w : Float} {s t : Sign} {m n : Nat} {d e : Int} {hm : 0 < m} {hn : 0 < n}
    (hv : v.toModel.unpack = .finite s m d hm) (hw : w.toModel.unpack = .finite t n e hn) :
    (v == w) = true ↔ s = t ∧ m = n ∧ d = e := by
  have hdef : (v == w) = (v.toModel.unpack.compare w.toModel.unpack == some .eq) := rfl
  rw [hdef, hv, hw]
  cases s <;> cases t <;> simp [UnpackedFloat.compare, Ordering.then_eq_eq, and_comm]

/-- The quotient of two words is one if and only if their doubles are the same. -/
theorem div_ofInt_beq_one {p q : Int} (hp : Word.Fits p) (hq : Word.Fits q) (hp0 : p ≠ 0)
    (hq0 : q ≠ 0) : (ofInt p / ofInt q == 1) = (ofInt p == ofInt q) := by
  obtain ⟨s, m, d, hm, hu, t, n, e, hn, hv, k, f, hk, hparts, hone⟩ := exists_parts hp hq hp0 hq0
  have hunit : (1 : Float).toModel.unpack = .finite .positive (2 ^ 52) (-52) (by decide) := by
    obtain ⟨sign, hsign, -, hpositive⟩ := is_one
    rw [hsign, hpositive (by decide)]
    rfl
  have hsigns : s / t = .positive ↔ s = t := by
    cases s <;> cases t <;> constructor <;> intro h <;> first | rfl | cases h
  rw [Bool.eq_iff_iff, beq_finite hparts hunit, beq_finite hu hv, hone, hsigns]

end Formulary.Double

namespace Formulary.Number

/-- A fraction of words is zero exactly if the double it stands for is. -/
theorem isZero_exact {r : ℚ} (hr : (exact r).Fits) : (exact r).isZero = decide (r = 0) := by
  by_cases h : r = 0
  · rw [h, decide_eq_true rfl]
    exact isZero_zero
  · rw [decide_eq_false h]
    exact Double.div_ofInt_beq_zero hr.1 hr.2 (Rat.num_ne_zero.2 h)
      (Int.natCast_ne_zero.2 r.den_nz)

/-- A fraction of words is taken for one exactly if its parts have the same double. -/
theorem isOne_exact {r : ℚ} (hr : (exact r).Fits) :
    (exact r).isOne = (Double.ofInt r.num == Double.ofInt r.den) := by
  by_cases h : r = 0
  · have hzero : (Double.ofInt 0 == Double.ofInt 1) = false :=
      Double.beq_of_is (Double.is_ofInt (k := 0) (by decide)) (Double.is_ofInt (by decide))
    subst h
    exact (isOne_ofInt (k := 0) (by decide)).trans hzero.symm
  · exact Double.div_ofInt_beq_one hr.1 hr.2 (Rat.num_ne_zero.2 h)
      (Int.natCast_ne_zero.2 r.den_nz)

/-- The test for one is exact on fractions whose parts are below `2 ^ 53`. -/
theorem isOne_exact_of_small {r : ℚ} (hnum : r.num.natAbs < 2 ^ 53) (hden : r.den < 2 ^ 53) :
    (exact r).isOne = decide (r = 1) := by
  have hfits {n : Int} (h : n.natAbs < 2 ^ 53) : Word.Fits n := by
    unfold Word.Fits Word.least Word.greatest
    omega
  have hone : r = 1 ↔ r.num = r.den := by
    constructor
    · rintro rfl
      rfl
    · intro h
      calc r = (r.num : ℚ) / r.den := (Rat.num_div_den r).symm
        _ = 1 := by rw [h, Int.cast_natCast, div_self (Nat.cast_ne_zero.2 r.den_nz)]
  rw [isOne_exact ⟨hfits hnum, hfits (by omega)⟩,
    Double.beq_of_is (Double.is_ofInt hnum) (Double.is_ofInt (by omega))]
  exact decide_eq_decide.2 hone.symm

end Formulary.Number
