import Formulary.Proofs.Double.Quotient
import Formulary.Proofs.Double.Ratio

/-!
# Rounding to 53 bits

The double of a word, and the quotient of two such doubles, is the exact result rounded to 53
significant bits (`ratio?_ofInt_of_fits`, `ratio?_div`). The rounding is `Exact.nearestDouble`, an
operation on fractions that knows nothing of significands and exponents.

While a result is rounded, its significand is followed by a round bit and a sticky bit. They tell
enough about the fraction that is meant (`Describes`): shifting by one bit keeps the description, so
every shift does, and in the end the rounded significand is the nearest whole number of the fraction.
-/

namespace Formulary

namespace Exact

/-! ## Nearest fractions -/

/-- The nearest whole number; a half goes to the even one of its neighbours. -/
def nearestEven (x : ℚ) : ℤ :=
  if x - ⌊x⌋ < 1 / 2 then ⌊x⌋
  else if x - ⌊x⌋ = 1 / 2 then ⌊x⌋ + ⌊x⌋ % 2
  else ⌊x⌋ + 1

/-- The weight of the last of 53 significant bits. -/
def lastBit (x : ℚ) : ℚ := 2 ^ (Int.log 2 |x| - 52)

/-- The nearest fraction with 53 significant bits; a tie goes to the one whose last bit is zero. -/
def nearestDouble (x : ℚ) : ℚ := nearestEven (x / lastBit x) * lastBit x

/-- Rounding looks at the whole part and at what is left. -/
theorem nearestEven_add {k : ℤ} {y : ℚ} (hlow : 0 ≤ y) (hhigh : y < 1) :
    nearestEven (k + y) = if y < 1 / 2 then k else if y = 1 / 2 then k + k % 2 else k + 1 := by
  have hfloor : ⌊(k : ℚ) + y⌋ = k := Int.floor_eq_iff.2 ⟨by linarith, by linarith⟩
  rw [nearestEven, hfloor, add_sub_cancel_left]

theorem nearestEven_intCast (k : ℤ) : nearestEven k = k := by
  rw [← add_zero (k : ℚ), nearestEven_add le_rfl one_pos, if_pos (by norm_num)]

/-- Ties go to the even number on both sides of zero. -/
theorem nearestEven_neg (x : ℚ) : nearestEven (-x) = -nearestEven x := by
  obtain ⟨k, y, hlow, hhigh, rfl⟩ : ∃ (k : ℤ) (y : ℚ), 0 ≤ y ∧ y < 1 ∧ x = k + y :=
    ⟨⌊x⌋, x - ⌊x⌋, by linarith [Int.floor_le x], by linarith [Int.lt_floor_add_one x], by ring⟩
  rcases hlow.eq_or_lt with rfl | hpos
  · rw [add_zero, ← Int.cast_neg, nearestEven_intCast, nearestEven_intCast]
  · have hneg : -((k : ℚ) + y) = (-k - 1 : ℤ) + (1 - y) := by
      push_cast
      ring
    rw [hneg, nearestEven_add (by linarith) (by linarith), nearestEven_add hlow hhigh]
    rcases lt_trichotomy y (1 / 2) with h | rfl | h
    · rw [if_neg (by linarith), if_neg (by linarith), if_pos h]
      omega
    · norm_num
      omega
    · rw [if_pos (by linarith), if_neg (by linarith), if_neg (by linarith)]
      omega

theorem nearestDouble_neg (x : ℚ) : nearestDouble (-x) = -nearestDouble x := by
  have hbit : lastBit (-x) = lastBit x := by rw [lastBit, lastBit, abs_neg]
  rw [nearestDouble, nearestDouble, hbit, neg_div, nearestEven_neg, Int.cast_neg, neg_mul]

theorem nearestDouble_zero : nearestDouble 0 = 0 := by
  rw [nearestDouble, zero_div, ← Int.cast_zero, nearestEven_intCast, Int.cast_zero, zero_mul]

theorem log_eq {x : ℚ} {k : ℤ} (hlow : 2 ^ k ≤ x) (hhigh : x < 2 ^ (k + 1)) :
    Int.log 2 x = k := by
  have hpos : 0 < x := lt_of_lt_of_le (by positivity) hlow
  have hle := (Int.zpow_le_iff_le_log one_lt_two hpos).1 (by exact_mod_cast hlow)
  have hlt := (Int.lt_zpow_iff_log_lt one_lt_two hpos).1 (by exact_mod_cast hhigh)
  omega

/-- Rounding at a known weight of the last bit. -/
theorem nearestDouble_eq {x : ℚ} {k : ℤ} (hlow : 2 ^ (52 + k) ≤ |x|) (hhigh : |x| < 2 ^ (53 + k)) :
    nearestDouble x = nearestEven (x / 2 ^ k) * 2 ^ k := by
  have hlog : Int.log 2 |x| = 52 + k := log_eq hlow (by rwa [show 52 + k + 1 = 53 + k by ring])
  rw [nearestDouble, lastBit, hlog, add_sub_cancel_left]

end Exact

namespace Double

open Float.Model Float.Model.UnpackedFloat Exact

/-! ## Residual bits -/

/-- The significand and its residual bits stand for the fraction: the round bit for one half, and
the sticky bit for a rest below one half. -/
def Describes (em : ExtendedMantissa) (x : ℚ) : Prop :=
  ∃ rest : ℚ, x = em.mantissa + (if em.roundBit then 1 / 2 else 0) + rest ∧ 0 ≤ rest ∧
    rest < 1 / 2 ∧ (em.stickyBit = true ↔ rest ≠ 0)

theorem describes_exact (m : ℕ) : Describes (.ofMantissaAndAccuracy m .exact) m :=
  ⟨0, by simp [ExtendedMantissa.ofMantissaAndAccuracy], le_rfl, by norm_num,
    by simp [ExtendedMantissa.ofMantissaAndAccuracy]⟩

/-- The whole part of a quotient and the comparison of twice its remainder with the divisor. -/
theorem describes_quotient (a : ℕ) {b : ℕ} (hb : 0 < b) :
    Describes (.ofMantissaAndAccuracy (a / b) (accuracyOfFraction (a % b) b)) (a / b) := by
  have hbq : (0 : ℚ) < b := Nat.cast_pos.2 hb
  have hsplit : (a : ℚ) / b = (a / b : ℕ) + ((a % b : ℕ) : ℚ) / b := by
    rw [div_eq_iff hbq.ne', add_mul, div_mul_cancel₀ _ hbq.ne']
    exact_mod_cast (Nat.div_add_mod' a b).symm
  have hnonneg : (0 : ℚ) ≤ ((a % b : ℕ) : ℚ) / b := by positivity
  have hless : ((a % b : ℕ) : ℚ) / b < 1 := by
    rw [div_lt_one hbq]
    exact_mod_cast Nat.mod_lt a hb
  have hcompare (c : ℕ) : ((c : ℚ) / b < 1 / 2 ↔ 2 * c < b) ∧ ((c : ℚ) / b = 1 / 2 ↔ 2 * c = b) := by
    rw [div_lt_div_iff₀ hbq two_pos, div_eq_div_iff hbq.ne' two_ne_zero]
    constructor <;> norm_cast <;> omega
  rw [hsplit]
  unfold accuracyOfFraction
  split_ifs with hzero
  · rw [hzero, Nat.cast_zero, zero_div, add_zero]
    exact describes_exact _
  · have hne : ((a % b : ℕ) : ℚ) / b ≠ 0 := div_ne_zero (Nat.cast_ne_zero.2 hzero) hbq.ne'
    rcases Nat.lt_trichotomy (2 * (a % b)) b with h | h | h
    · rw [Nat.compare_eq_lt.2 h]
      exact ⟨_, by simp [ExtendedMantissa.ofMantissaAndAccuracy], hnonneg, (hcompare _).1.2 h,
        by simpa [ExtendedMantissa.ofMantissaAndAccuracy] using hne⟩
    · rw [Nat.compare_eq_eq.2 h, (hcompare _).2.2 h]
      exact ⟨0, by simp [ExtendedMantissa.ofMantissaAndAccuracy], le_rfl, by norm_num,
        by simp [ExtendedMantissa.ofMantissaAndAccuracy]⟩
    · have hhalf : 1 / 2 < ((a % b : ℕ) : ℚ) / b :=
        lt_of_le_of_ne (not_lt.1 fun hlt => by have := (hcompare _).1.1 hlt; omega)
          fun heq => by have := (hcompare _).2.1 heq.symm; omega
      rw [Nat.compare_eq_gt.2 h]
      refine ⟨((a % b : ℕ) : ℚ) / b - 1 / 2, ?_, by linarith, by linarith, ?_⟩
      · simp [ExtendedMantissa.ofMantissaAndAccuracy]
      · simpa [ExtendedMantissa.ofMantissaAndAccuracy, sub_eq_zero] using hhalf.ne'

section

variable {em : ExtendedMantissa} {x : ℚ}

/-- The significand is the whole part of the fraction. -/
theorem Describes.bounds {m : ℕ} {accuracy : Accuracy}
    (h : Describes (.ofMantissaAndAccuracy m accuracy) x) : (m : ℚ) ≤ x ∧ x < m + 1 := by
  have hm : (ExtendedMantissa.ofMantissaAndAccuracy m accuracy).mantissa = m := by
    unfold ExtendedMantissa.ofMantissaAndAccuracy
    split <;> rfl
  obtain ⟨rest, rfl, hlow, hhigh, -⟩ := h
  rw [hm]
  constructor <;> split_ifs <;> linarith

/-- A shift by one bit halves the fraction. -/
theorem Describes.shiftRightOne (h : Describes em x) : Describes em.shiftRightOne (x / 2) := by
  obtain ⟨rest, rfl, hlow, hhigh, hsticky⟩ := h
  obtain ⟨m, roundBit, stickyBit⟩ := em
  have hm : (m : ℚ) = 2 * (m / 2 : ℕ) + (m % 2 : ℕ) := by exact_mod_cast (Nat.div_add_mod m 2).symm
  refine ⟨((if roundBit then 1 / 2 else 0) + rest) / 2, ?_, ?_, ?_, ?_⟩
  · rcases Nat.mod_two_eq_zero_or_one m with hbit | hbit <;>
    · simp only [ExtendedMantissa.shiftRightOne, hm, hbit]
      norm_num
      ring
  · split_ifs <;> linarith
  · split_ifs <;> linarith
  · cases roundBit with
    | false => simpa [ExtendedMantissa.shiftRightOne] using hsticky
    | true =>
      have hpos : (1 / 2 + rest) / 2 ≠ 0 := by linarith
      simpa [ExtendedMantissa.shiftRightOne] using hpos

/-- Bits that are cut off go into the residual bits, so that nothing is forgotten. -/
theorem Describes.shiftRight (h : Describes em x) (s : ℕ) : Describes (em >>> s) (x / 2 ^ s) := by
  induction s with
  | zero => simpa [HShiftRight.hShiftRight, Nat.repeat] using h
  | succ s ih =>
    rw [pow_succ, ← div_div]
    exact ih.shiftRightOne

/-- The rounded significand is the nearest whole number. -/
theorem Describes.roundedMantissa (h : Describes em x) :
    (em.roundedMantissa : ℤ) = nearestEven x := by
  obtain ⟨rest, rfl, hlow, hhigh, hsticky⟩ := h
  obtain ⟨m, roundBit, stickyBit⟩ := em
  have hround := nearestEven_add (k := m) (y := (if roundBit then 1 / 2 else 0) + rest)
    (by split_ifs <;> linarith) (by split_ifs <;> linarith)
  rw [Int.cast_natCast, ← add_assoc] at hround
  rw [hround]
  cases roundBit <;> cases stickyBit <;>
    simp_all [ExtendedMantissa.roundedMantissa, ExtendedMantissa.accuracy,
      Accuracy.roundToNearestEven]

end

/-! ## Rounding a significand -/

section

variable {m s : ℕ} {e : ℤ} {accuracy : Accuracy} {x : ℚ}

theorem rounded_eq_nearestEven (hx : Describes (.ofMantissaAndAccuracy m accuracy) x) :
    (rounded m accuracy s : ℤ) = nearestEven (x / 2 ^ s) := (hx.shiftRight s).roundedMantissa

/-- A significand that a carry has filled up is halved. -/
theorem roundWithAccuracy_carry (sign : Sign) (hm : m.log2 = 52 + s) (he : -1074 ≤ e + s)
    (hcarry : rounded m accuracy s = 2 ^ 53) :
    roundWithAccuracy Format.binary64 sign m e accuracy =
      .finite sign (2 ^ 52) (e + s + 1) (by positivity) := by
  have hagain := shiftToTargetExponent_shifted (m := 2 ^ 52) Nat.log2_two_pow 1 (e := e + s + 1)
    (by omega)
  rw [Nat.cast_one, add_sub_cancel_right, ← Nat.pow_add, ← hcarry, rounded] at hagain
  simp only [roundWithAccuracy, shiftToTargetExponent_long hm he, hagain]
  rw [dif_neg (by positivity)]

variable (accuracy) in
/-- Rounding a significand of 53 bits or more gives the rounded one under the exponent of the last
bit that was kept, carry or not. -/
theorem fraction?_rounded (sign : Sign) (hm : m.log2 = 52 + s) (hlow : -1074 ≤ e + s)
    (hhigh : e + s ≤ 970) :
    Canonical (roundWithAccuracy Format.binary64 sign m e accuracy) ∧
      fraction? (roundWithAccuracy Format.binary64 sign m e accuracy) =
        some (((sign.apply (rounded m accuracy s) : ℤ) : ℚ) * 2 ^ (e + s)) := by
  have hkept := kept_bounds hm
  have hbounds := rounded_bounds m accuracy s
  rcases Nat.lt_or_eq_of_le (show rounded m accuracy s ≤ 2 ^ 53 by omega) with hlt | hcarry
  · obtain ⟨hpos, hround⟩ := roundWithAccuracy_eq sign hm hlow (by omega) hlt
    rw [hround]
    exact ⟨⟨hlt, hlow, by omega, .inl (by omega)⟩, rfl⟩
  · rw [roundWithAccuracy_carry sign hm hlow hcarry]
    refine ⟨⟨by norm_num, by omega, by omega, .inl le_rfl⟩, congrArg some ?_⟩
    rw [hcarry, zpow_add_one₀ two_ne_zero]
    cases sign <;>
    · simp only [Sign.apply]
      push_cast
      ring

theorem apply_eq_mul (sign : Sign) (k : ℤ) : sign.apply k = sign.apply 1 * k := by
  cases sign <;> simp [Sign.apply]

theorem nearestDouble_apply (sign : Sign) (x : ℚ) :
    nearestDouble (sign.apply 1 * x) = sign.apply 1 * nearestDouble x := by
  cases sign <;> simp [Sign.apply, nearestDouble_neg]

/-- What a significand of 53 bits or more is rounded to is the nearest double of the fraction that
it stands for. -/
theorem fraction?_roundWithAccuracy (sign : Sign) (hm : m.log2 = 52 + s) (hlow : -1074 ≤ e + s)
    (hhigh : e + s ≤ 970) (hx : Describes (.ofMantissaAndAccuracy m accuracy) x) :
    Canonical (roundWithAccuracy Format.binary64 sign m e accuracy) ∧
      fraction? (roundWithAccuracy Format.binary64 sign m e accuracy) =
        some (nearestDouble (sign.apply 1 * (x * 2 ^ e))) := by
  obtain ⟨hcanonical, hfraction⟩ := fraction?_rounded accuracy sign hm hlow hhigh
  refine ⟨hcanonical, hfraction.trans (congrArg some ?_)⟩
  have hbits := bounds_of_log2 hm
  obtain ⟨hleast, hless⟩ := hx.bounds
  have hfirst : (2 : ℚ) ^ (52 + s) ≤ x := le_trans (by exact_mod_cast hbits.1) hleast
  have hnext : x < 2 ^ (53 + s) := hless.trans_le (by exact_mod_cast hbits.2)
  have hpos : 0 < x := lt_of_lt_of_le (by positivity) hfirst
  have hnearest : nearestDouble (x * 2 ^ e) = nearestEven (x / 2 ^ s) * 2 ^ (e + s) := by
    have hshift (k : ℕ) : (2 : ℚ) ^ (k + (e + s)) = 2 ^ (k + s) * 2 ^ e := by
      rw [← zpow_natCast, ← zpow_add₀ two_ne_zero]
      congr 1
      omega
    rw [nearestDouble_eq (k := e + s)]
    · rw [zpow_add₀ two_ne_zero, zpow_natCast, mul_comm x, mul_div_mul_left _ _ (two_zpow_pos e).ne']
    all_goals rw [abs_of_pos (mul_pos hpos (two_zpow_pos e))]
    · exact (hshift 52).trans_le (mul_le_mul_of_nonneg_right hfirst (two_zpow_pos e).le)
    · exact (mul_lt_mul_of_pos_right hnext (two_zpow_pos e)).trans_eq (hshift 53).symm
  rw [nearestDouble_apply, hnearest, ← rounded_eq_nearestEven hx, apply_eq_mul]
  push_cast
  ring

end

/-! ## Words and their quotients -/

/-- A whole number below `2 ^ 53` needs no rounding. -/
theorem nearestDouble_intCast {k : ℤ} (hk : k.natAbs < 2 ^ 53) : nearestDouble k = k := by
  rcases eq_or_ne k 0 with rfl | hne
  · rw [Int.cast_zero, nearestDouble_zero]
  have hnat : k.natAbs ≠ 0 := Int.natAbs_ne_zero.2 hne
  have hbits := (Nat.log2_eq_iff hnat).1 rfl
  have hlog := log2_le_of_lt hk
  obtain ⟨s, hs⟩ : ∃ s, k.natAbs.log2 + s = 52 := ⟨52 - k.natAbs.log2, by omega⟩
  have habs : |(k : ℚ)| = k.natAbs := by rw [Nat.cast_natAbs, Int.cast_abs]
  have hscale : (k : ℚ) / 2 ^ (-s : ℤ) = (k * 2 ^ s : ℤ) := by
    rw [zpow_neg, div_inv_eq_mul, zpow_natCast]
    push_cast
    rfl
  have hpow (i : ℕ) : (2 : ℚ) ^ (52 + i + (-s : ℤ)) = (2 ^ (k.natAbs.log2 + i) : ℕ) := by
    rw [Nat.cast_pow, ← zpow_natCast]
    congr 1
    omega
  rw [nearestDouble_eq (k := -s), hscale, nearestEven_intCast, ← hscale,
    div_mul_cancel₀ _ (two_zpow_pos _).ne']
  · rw [habs, show (52 : ℤ) + -s = 52 + (0 : ℕ) + -s by simp, hpow]
    exact_mod_cast hbits.1
  · rw [habs, show (53 : ℤ) + -s = 52 + (1 : ℕ) + -s by push_cast; ring, hpow]
    exact_mod_cast hbits.2

/-- The double of a word is the word rounded to 53 bits. -/
theorem ratio?_ofInt_of_fits {k : ℤ} (hk : Word.Fits k) :
    ratio? (ofInt k) = some (nearestDouble k) := by
  rcases Nat.lt_or_ge k.natAbs (2 ^ 53) with hsmall | hlarge
  · rw [ratio?_ofInt hsmall, nearestDouble_intCast hsmall]
  have hword : k.natAbs < 2 ^ 64 := by
    unfold Word.Fits Word.least Word.greatest at hk
    omega
  obtain ⟨s, hs, hshort⟩ := exists_log2 hlarge hword
  obtain ⟨hcanonical, hfraction⟩ := fraction?_roundWithAccuracy .positive hs (e := 0)
    (by omega) (by omega) (describes_exact k.natAbs)
  have hmagnitude : ratio? k.natAbs.toUInt64.toFloat = some (nearestDouble k.natAbs) := by
    rw [toFloat_eq (by omega) hword, round_long .positive hlarge, ratio?_ofModel hcanonical,
      hfraction]
    simp [Sign.apply]
  unfold ofInt
  split_ifs with hneg
  · rw [ratio?_neg hmagnitude, ← nearestDouble_neg]
    congr 2
    rw [Nat.cast_natAbs, abs_of_neg hneg, Int.cast_neg, InvolutiveNeg.neg_neg]
  · rw [hmagnitude, Nat.cast_natAbs, abs_of_nonneg (by omega)]

theorem apply_div (s t : Sign) : ((s / t).apply 1 : ℚ) = s.apply 1 / t.apply 1 := by
  have hdiv : ∀ s t : Sign, (s / t).apply 1 * t.apply 1 = s.apply 1 := by
    intro s t
    cases s <;> cases t <;> rfl
  have hne : (t.apply 1 : ℚ) ≠ 0 := by cases t <;> simp [Sign.apply]
  rw [eq_div_iff hne]
  exact_mod_cast hdiv s t

/-- The quotient of the doubles of two words is their exact quotient rounded to 53 bits. -/
theorem ratio?_div {v w : Float} {x y : ℚ} (hv : WordParts v.toModel.unpack)
    (hw : WordParts w.toModel.unpack) (hx : ratio? v = some x) (hy : ratio? w = some y) :
    ratio? (v / w) = some (nearestDouble (x / y)) := by
  obtain ⟨s, m, d, hmpos, hu, hm, hdlow, hdhigh⟩ := hv
  obtain ⟨t, n, e, hnpos, hu', hn, helow, hehigh⟩ := hw
  unfold ratio? at hx hy
  rw [hu] at hx
  rw [hu'] at hy
  obtain rfl := Option.some.inj hx
  obtain rfl := Option.some.inj hy
  obtain ⟨k, hk, hlog⟩ := log2_quotient hm hn
  obtain ⟨hcanonical, hfraction⟩ := fraction?_roundWithAccuracy (s / t) hlog (e := d - e - 53)
    (by omega) (by omega) (describes_quotient (m * 2 ^ 53) hnpos)
  have hdef : v / w =
      .ofModel (.pack (UnpackedFloat.div Format.binary64 v.toModel.unpack w.toModel.unpack)) := rfl
  have hscale : (2 : ℚ) ^ (d - e - 53) = 2 ^ d / 2 ^ e / 2 ^ 53 := by
    rw [zpow_sub₀ two_ne_zero, zpow_sub₀ two_ne_zero]
    rfl
  rw [hdef, hu, hu']
  simp only [UnpackedFloat.div, divCore_full hm hn (d := d) (e := e) (by omega)]
  rw [ratio?_ofModel hcanonical, hfraction, apply_div, hscale, apply_eq_mul s m, apply_eq_mul t n]
  congr 2
  have hne : (t.apply 1 : ℚ) ≠ 0 := by cases t <;> simp [Sign.apply]
  push_cast
  field_simp
  norm_num

end Double

end Formulary
