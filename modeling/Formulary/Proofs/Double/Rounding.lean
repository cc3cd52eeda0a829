import Formulary.Proofs.Double.Large
import Formulary.Proofs.Double.Ratio

/-!
# Rounding to whole numbers

The functions on doubles that end in a whole number, against the fractions: the conversion to a word
cuts the fraction off and saturates, `floor` is the floor, and `round` is the nearest whole number,
a half going away from zero. All of them are exact for every finite double.

Inside them only small doubles are taken apart, since from `2 ^ 52` on a double has no fraction, and
what is cut off from a small one is a double again (`representable_sub_floor`).
-/

namespace Formulary

namespace Exact

/-- The whole part of a fraction. -/
def wholePart (x : ℚ) : ℤ := if x < 0 then ⌈x⌉ else ⌊x⌋

/-- The nearest whole number; a half goes away from zero. -/
def nearest (x : ℚ) : ℤ := if x < 0 then -round (-x) else round x

theorem abs_nearest_sub (x : ℚ) : |nearest x - x| ≤ 1 / 2 := by
  unfold nearest
  split_ifs
  · have hneg : ((-round (-x) : ℤ) : ℚ) - x = -x - round (-x) := by
      push_cast
      ring
    rw [hneg]
    exact abs_sub_round (-x)
  · rw [abs_sub_comm]
    exact abs_sub_round x

/-- A magnitude is rounded up from a half on. -/
theorem round_eq_ite (x : ℚ) : round x = if x - ⌊x⌋ < 1 / 2 then ⌊x⌋ else ⌊x⌋ + 1 := by
  have hlow := Int.floor_le x
  have hhigh := Int.lt_floor_add_one x
  rw [round_eq, Int.floor_eq_iff]
  split_ifs <;>
  · push_cast
    constructor <;> linarith

theorem nearest_intCast (k : ℤ) : nearest k = k := by
  unfold nearest
  split_ifs
  · rw [← Int.cast_neg, round_intCast, neg_neg]
  · exact round_intCast k

theorem nearest_neg (x : ℚ) : nearest (-x) = -nearest x := by
  unfold nearest
  rcases lt_trichotomy x 0 with h | rfl | h
  · rw [if_neg (by linarith), if_pos h, neg_neg]
  · simp
  · rw [if_pos (by linarith), if_neg (by linarith), neg_neg]

end Exact

namespace Double

open Float.Model Float.Model.UnpackedFloat Exact

variable {v : Float} {x : ℚ}

/-! ## What is cut off -/

/-- A double of magnitude `2 ^ (52 + n)` or more is a multiple of `2 ^ n`. -/
theorem exists_eq_mul_pow (n : Nat) (hx : ratio? v = some x) (h : 2 ^ (52 + n) ≤ |x|) :
    ∃ k : ℤ, x = k * 2 ^ n := by
  obtain ⟨s, -, rfl⟩ | ⟨s, m, e, hm, -, rfl, hbits, -, -, -⟩ := cases_of_ratio? hx
  · exact ⟨0, by simp⟩
  by_cases he : (n : ℤ) ≤ e
  · refine ⟨s.apply m * 2 ^ (e - n).toNat, ?_⟩
    rw [← two_zpow_toNat he, zpow_natCast]
    push_cast
    rw [mul_assoc]
  · rw [abs_fraction] at h
    have hsmall : (m : ℚ) * 2 ^ e < 2 ^ (52 + n) := by
      calc (m : ℚ) * 2 ^ e
        _ < 2 ^ 53 * 2 ^ e := mul_lt_mul_of_pos_right (by exact_mod_cast hbits) (two_zpow_pos e)
        _ ≤ 2 ^ 53 * 2 ^ (n - 1 : ℤ) := by
          refine mul_le_mul_of_nonneg_left ?_ (by norm_num)
          exact zpow_le_zpow_right₀ one_le_two (by omega)
        _ = 2 ^ (52 + n) := by
          rw [zpow_sub_one₀ two_ne_zero, zpow_natCast, pow_add]
          ring
    exact absurd h (not_le.2 hsmall)

/-- A double of magnitude `2 ^ 52` or more has no fraction. -/
theorem exists_eq_intCast (hx : ratio? v = some x) (h : 2 ^ 52 ≤ |x|) : ∃ k : ℤ, x = k := by
  simpa using exists_eq_mul_pow 0 hx h

/-- The whole part of a magnitude, on its significand. -/
theorem floor_fraction_of_neg (m : Nat) {e : Int} (he : e ≤ 0) :
    ⌊(m : ℚ) * 2 ^ e⌋₊ = m / 2 ^ (-e).toNat := by
  have hpow : (2 : ℚ) ^ e = ((2 ^ (-e).toNat : ℕ) : ℚ)⁻¹ := by
    push_cast
    rw [← zpow_natCast, Int.toNat_of_nonneg (by omega), zpow_neg, inv_inv]
  rw [hpow, ← div_eq_mul_inv, Nat.floor_div_natCast, Nat.floor_natCast]

/-- What is left of a double without its whole part is a double. -/
theorem representable_sub_floor (hx : ratio? v = some x) (h : 0 ≤ x) : Representable (x - ⌊x⌋) := by
  obtain ⟨s, -, rfl⟩ | ⟨s, m, e, hm, -, hfraction, hbits, hlow, hhigh, -⟩ := cases_of_ratio? hx
  · simpa using representable_intCast (k := 0) (by decide)
  have hx' : x = m * 2 ^ e := by rw [← abs_of_nonneg h, hfraction, abs_fraction]
  by_cases he : 0 ≤ e
  · have hwhole : x = (m * 2 ^ e.toNat : ℤ) := by
      rw [hx', ← two_zpow_toNat he, sub_zero, zpow_zero, mul_one]
      push_cast
      rfl
    rw [hwhole, Int.floor_intCast, sub_self]
    exact_mod_cast representable_intCast (k := 0) (by decide)
  · have hscale := two_zpow_toNat (d := e) (e := 0) (by omega)
    rw [zero_sub, zpow_zero] at hscale
    have hfloor : (⌊x⌋ : ℚ) = (m / 2 ^ (-e).toNat : ℕ) := by
      rw [← natCast_floor_eq_intCast_floor h, hx', floor_fraction_of_neg m (by omega)]
    refine ⟨(m % 2 ^ (-e).toNat : ℕ), e, ?_, ?_, hlow, hhigh⟩
    · have hsplit : (m : ℚ) = 2 ^ (-e).toNat * (m / 2 ^ (-e).toNat : ℕ) +
          (m % 2 ^ (-e).toNat : ℕ) := by exact_mod_cast (Nat.div_add_mod m _).symm
      calc x - ⌊x⌋
        _ = m * 2 ^ e - (m / 2 ^ (-e).toNat : ℕ) := by rw [hfloor, hx']
        _ = (m % 2 ^ (-e).toNat : ℕ) * 2 ^ e := by
          rw [hsplit]
          linear_combination (m / 2 ^ (-e).toNat : ℕ) * hscale
        _ = ((m % 2 ^ (-e).toNat : ℕ) : ℤ) * 2 ^ e := by rw [Int.cast_natCast]
    · have hless := Nat.mod_le m (2 ^ (-e).toNat)
      omega

/-! ## Conversion to words -/

/-- Conversion to an integer cuts off the digits behind the point. -/
theorem roundToInt_eq (sign : Sign) (m : Nat) (e : Int) :
    roundToInt sign m e = sign.apply ⌊(m : ℚ) * 2 ^ e⌋₊ := by
  simp only [roundToInt, decreaseExponent, shiftToExponent, shiftRight_mantissa,
    ExtendedMantissa.ofMantissaAndAccuracy, sub_zero]
  congr 2
  by_cases he : 0 ≤ e
  · have hnone : (0 - (e - (e.toNat : ℤ))).toNat = 0 := by omega
    have hwhole : (m : ℚ) * 2 ^ e = (m * 2 ^ e.toNat : ℕ) := by
      rw [← two_zpow_toNat he, sub_zero, zpow_zero, mul_one]
      push_cast
      rfl
    rw [hnone, pow_zero, Nat.div_one, Nat.shiftLeft_eq, hwhole, Nat.floor_natCast]
  · have hnone : e.toNat = 0 := by omega
    rw [floor_fraction_of_neg m (by omega), hnone, Nat.shiftLeft_zero, Nat.cast_zero, sub_zero,
      zero_sub]

/-- Conversion to a word cuts off the digits behind the point and saturates. -/
theorem toNat_toUInt64 (hx : ratio? v = some x) (h : 0 ≤ x) :
    v.toUInt64.toNat = min ⌊x⌋₊ (UInt64.size - 1) := by
  have hpart : UnpackedFloat.toInt 0 (UInt64.size - 1) v.toModel.unpack = ⌊x⌋₊ := by
    obtain ⟨s, hu, rfl⟩ | ⟨s, m, e, hm, hu, rfl, -⟩ := cases_of_ratio? hx
    · rw [hu, Nat.floor_zero]
      rfl
    · rw [hu, UnpackedFloat.toInt, roundToInt_eq]
      cases s with
      | positive => simp [Sign.apply]
      | negative =>
        have hpos : (0 : ℚ) < m * 2 ^ e := mul_pos (Nat.cast_pos.2 hm) (two_zpow_pos e)
        simp only [Sign.apply, Int.cast_neg, Int.cast_natCast] at h
        linarith
  have hdef : v.toUInt64 =
      UInt64.ofNatClamp (UnpackedFloat.toInt 0 (UInt64.size - 1) v.toModel.unpack).toNat := rfl
  rw [hdef, hpart, Int.toNat_natCast]
  rcases Nat.lt_or_ge ⌊x⌋₊ UInt64.size with hlt | hge
  · rw [UInt64.toNat_ofNatClamp_of_lt hlt]
    omega
  · rw [UInt64.toNat_ofNatClamp_of_le hge]
    omega

theorem ratio?_zero : ratio? 0 = some 0 :=
  (ratio?_of_is is_zero (by decide)).trans (congrArg some Int.cast_zero)

theorem lt_zero_iff_of_ratio? (hx : ratio? v = some x) : v < 0 ↔ x < 0 :=
  lt_iff_of_ratio? hx ratio?_zero

/-- The conversion to a signed word cuts off the fraction and saturates. -/
theorem toInt_of_ratio? (hx : ratio? v = some x) : toInt v = Word.clamp (wholePart x) := by
  unfold toInt wholePart Word.clamp Word.least Word.greatest
  by_cases hneg : x < 0
  · have hnat : ((⌊-x⌋₊ : ℕ) : ℤ) = -⌈x⌉ := by
      rw [Int.natCast_floor_eq_floor (by linarith), Int.floor_neg]
    rw [if_pos ((lt_zero_iff_of_ratio? hx).2 hneg), if_pos hneg,
      toNat_toUInt64 (ratio?_neg hx) (by linarith), UInt64.size]
    omega
  · have hnonneg : 0 ≤ x := le_of_not_gt hneg
    have hnat := Int.natCast_floor_eq_floor hnonneg
    rw [if_neg (fun h => hneg ((lt_zero_iff_of_ratio? hx).1 h)), if_neg hneg,
      toNat_toUInt64 hx hnonneg, UInt64.size]
    omega

/-! ## Whole doubles -/

/-- The bound is `2 ^ 52`, from where on all doubles are whole numbers. -/
theorem ratio?_wholeFrom : ratio? wholeFrom = some (2 ^ 52) := by
  have h := ratio?_of_is (is_ofScientific (n := 4503599627370496) (by decide)) (by decide)
  refine h.trans (congrArg some ?_)
  norm_num

theorem abs_lt_wholeFrom_iff (hx : ratio? v = some x) : v.abs < wholeFrom ↔ |x| < 2 ^ 52 :=
  lt_iff_of_ratio? (ratio?_abs hx) ratio?_wholeFrom

theorem wholePart_intCast (k : ℤ) : wholePart k = k := by
  unfold wholePart
  split_ifs
  · exact Int.ceil_intCast k
  · exact Int.floor_intCast k

theorem natAbs_wholePart_le (h : |x| < 2 ^ 52) : (wholePart x).natAbs ≤ 2 ^ 52 := by
  obtain ⟨hlow, hhigh⟩ := abs_lt.1 h
  unfold wholePart
  split_ifs with hneg
  · have h1 : -(2 ^ 52 : ℤ) ≤ ⌈x⌉ := by
      have hceil := Int.le_ceil x
      have : (-(2 ^ 52 : ℤ) : ℚ) ≤ ⌈x⌉ := by
        push_cast
        linarith
      exact_mod_cast this
    have h2 : ⌈x⌉ ≤ 0 := Int.ceil_le.2 (by rw [Int.cast_zero]; exact hneg.le)
    omega
  · have h1 : 0 ≤ ⌊x⌋ := Int.floor_nonneg.2 (le_of_not_gt hneg)
    have h2 : ⌊x⌋ < 2 ^ 52 := Int.floor_lt.2 (by push_cast; exact hhigh)
    omega

theorem ratio?_truncate (hx : ratio? v = some x) :
    ratio? (truncate v) = some (wholePart x : ℚ) := by
  unfold truncate
  split_ifs with hsmall
  · have hbits := natAbs_wholePart_le ((abs_lt_wholeFrom_iff hx).1 hsmall)
    rw [toInt_of_ratio? hx, Word.clamp_eq_self]
    · exact ratio?_ofInt (by omega)
    · unfold Word.Fits Word.least Word.greatest
      omega
  · rw [abs_lt_wholeFrom_iff hx, not_lt] at hsmall
    obtain ⟨k, rfl⟩ := exists_eq_intCast hx hsmall
    rw [hx, wholePart_intCast]

theorem ratio?_one : ratio? 1 = some 1 :=
  (ratio?_of_is is_one (by decide)).trans (congrArg some Int.cast_one)

theorem ratio?_floor (hx : ratio? v = some x) : ratio? (floor v) = some (⌊x⌋ : ℚ) := by
  have htruncate := ratio?_truncate hx
  unfold floor
  simp only [lt_iff_of_ratio? hx htruncate]
  by_cases hneg : x < 0
  · rw [wholePart, if_pos hneg] at htruncate ⊢
    split_ifs with hlt
    · -- below its ceiling `x` has a fraction, so it is small
      have hfloor : ⌊x⌋ = ⌈x⌉ - 1 := by
        rw [Int.floor_eq_iff]
        push_cast
        have hceil := Int.ceil_lt_add_one x
        constructor <;> linarith
      have hsmall : |x| < 2 ^ 52 := by
        by_contra hlarge
        obtain ⟨k, rfl⟩ := exists_eq_intCast hx (not_lt.1 hlarge)
        rw [Int.ceil_intCast] at hlt
        exact lt_irrefl _ hlt
      have hbits := natAbs_wholePart_le hsmall
      rw [wholePart, if_pos hneg] at hbits
      have hbelow : ((⌈x⌉ : ℤ) : ℚ) - 1 = (⌈x⌉ - 1 : ℤ) := by push_cast; rfl
      rw [hfloor, ← hbelow]
      refine ratio?_sub htruncate ratio?_one ?_
      rw [hbelow]
      exact representable_intCast (by omega)
    · have hwhole : x = ⌈x⌉ := le_antisymm (Int.le_ceil x) (not_lt.1 hlt)
      have hfloor : ⌊x⌋ = ⌈x⌉ := by
        conv_lhs => rw [hwhole]
        exact Int.floor_intCast _
      rw [hfloor]
      exact htruncate
  · rw [wholePart, if_neg hneg] at htruncate ⊢
    rw [if_neg (not_lt.2 (Int.floor_le x))]
    exact htruncate

theorem ratio?_half : ratio? 0.5 = some (1 / 2) := by
  have hparts : (0.5 : Float).toModel.unpack = .finite .positive (2 ^ 52) (-53) (by decide) := rfl
  rw [ratio?, hparts]
  norm_num [fraction?, Sign.apply]

/-- A small magnitude is rounded by its whole part and the rest, both exact. -/
theorem ratio?_roundMagnitude (hx : ratio? v = some x) (h0 : 0 ≤ x) (hsmall : x < 2 ^ 52) :
    ratio? (if v - truncate v < 0.5 then truncate v else truncate v + 1) =
      some ((Exact.nearest x : ℤ) : ℚ) := by
  have htruncate := ratio?_truncate hx
  have hbits := natAbs_wholePart_le (by rwa [abs_of_nonneg h0])
  rw [wholePart, if_neg (not_lt.2 h0)] at htruncate hbits
  have hrest := ratio?_sub hx htruncate (representable_sub_floor hx h0)
  simp only [lt_iff_of_ratio? hrest ratio?_half]
  rw [nearest, if_neg (not_lt.2 h0), round_eq_ite]
  split_ifs
  · exact htruncate
  · have hnext : (⌊x⌋ : ℚ) + 1 = (⌊x⌋ + 1 : ℤ) := by push_cast; rfl
    rw [← hnext]
    refine ratio?_add htruncate ratio?_one ?_
    rw [hnext]
    exact representable_intCast (by omega)

/-- Rounding to the nearest whole number is exact, halves going away from zero. -/
theorem ratio?_round (hx : ratio? v = some x) :
    ratio? (round v) = some ((Exact.nearest x : ℤ) : ℚ) := by
  unfold round
  rw [beq_of_ratio? hx ratio?_zero]
  simp only [abs_lt_wholeFrom_iff hx, lt_zero_iff_of_ratio? hx, decide_eq_true_eq]
  by_cases hzero : x = 0
  · subst hzero
    rw [if_pos rfl, hx, show nearest 0 = 0 from nearest_intCast 0, Int.cast_zero]
  rw [if_neg hzero]
  by_cases hsmall : |x| < 2 ^ 52
  · have hmagnitude := ratio?_roundMagnitude (ratio?_abs hx) (abs_nonneg x) hsmall
    rw [if_pos hsmall]
    by_cases hneg : x < 0
    · rw [if_pos hneg, ratio?_neg hmagnitude, abs_of_neg hneg, nearest_neg]
      push_cast
      exact congrArg some (InvolutiveNeg.neg_neg _)
    · rw [if_neg hneg, hmagnitude, abs_of_nonneg (le_of_not_gt hneg)]
  · obtain ⟨k, rfl⟩ := exists_eq_intCast hx (not_lt.1 hsmall)
    rw [if_neg hsmall, hx, nearest_intCast]

end Double

end Formulary
