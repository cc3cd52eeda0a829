import Formulary.Proofs.Double.Whole

/-!
# Doubles of large integers

From `2 ^ 53` on an integer is rounded to a double, and rounding may carry into one more bit. All
that matters about the result is that its exponent is positive: such a double is `Large`, and it is
never a whole number below `2 ^ 53`. The tests for zero and one are therefore exact on all integers
of 64 bits, and a large integer is never taken for a small one.
-/

namespace Formulary.Double

open Float.Model Float.Model.UnpackedFloat

/-! ## Rounding a long significand -/

/-- Cutting off bits divides the significand, whatever happens to the residual bits. -/
theorem shiftRight_mantissa (em : ExtendedMantissa) (s : Nat) :
    (em >>> s).mantissa = em.mantissa / 2 ^ s := by
  induction s with
  | zero => simp [HShiftRight.hShiftRight, Nat.repeat]
  | succ s ih =>
    have hstep : (em >>> (s + 1)).mantissa = (em >>> s).mantissa / 2 := rfl
    rw [hstep, ih, Nat.div_div_eq_div_mul, pow_succ]

theorem bounds_of_log2 {m s : Nat} (hm : m.log2 = 52 + s) :
    2 ^ (52 + s) ≤ m ∧ m < 2 ^ (53 + s) := by
  have hne : m ≠ 0 := by
    rintro rfl
    rw [Nat.log2_zero] at hm
    omega
  have hb := (Nat.log2_eq_iff hne).1 hm
  exact ⟨hb.1, hb.2.trans_eq (congrArg (2 ^ ·) (by omega))⟩

/-- What is left of a long significand has 53 bits. -/
theorem kept_bounds {m s : Nat} (hm : m.log2 = 52 + s) :
    2 ^ 52 ≤ m / 2 ^ s ∧ m / 2 ^ s < 2 ^ 53 := by
  rw [Nat.le_div_iff_mul_le (by positivity), Nat.div_lt_iff_lt_mul (by positivity), ← Nat.pow_add,
    ← Nat.pow_add]
  exact bounds_of_log2 hm

/-- A significand rounded after cutting off some bits. -/
def rounded (m : Nat) (accuracy : Accuracy) (s : Nat) : Nat :=
  (ExtendedMantissa.ofMantissaAndAccuracy m accuracy >>> s).roundedMantissa

theorem rounded_bounds (m : Nat) (accuracy : Accuracy) (s : Nat) :
    m / 2 ^ s ≤ rounded m accuracy s ∧ rounded m accuracy s ≤ m / 2 ^ s + 1 := by
  have hmantissa : (ExtendedMantissa.ofMantissaAndAccuracy m accuracy >>> s).mantissa =
      m / 2 ^ s := by
    rw [shiftRight_mantissa]
    congr 1
    unfold ExtendedMantissa.ofMantissaAndAccuracy
    split <;> rfl
  rw [← hmantissa]
  unfold rounded ExtendedMantissa.roundedMantissa Accuracy.roundToNearestEven
  split <;> omega

/-- The float has a full significand and a positive exponent. -/
def LargeParts (f : UnpackedFloat) : Prop :=
  ∃ sign m e, ∃ hpos : 0 < m, f = .finite sign m e hpos ∧ m.log2 = 52 ∧ 0 < e ∧ e ≤ 12

/-- The last shift, after rounding: it takes the carry. -/
theorem shiftToTargetExponent_rounded {r : Nat} (hlow : 2 ^ 52 ≤ r) (hhigh : r ≤ 2 ^ 53) {e : Int}
    (he : -1074 ≤ e) :
    ∃ n, n.log2 = 52 ∧ ∃ e', e ≤ e' ∧ e' ≤ e + 1 ∧
      shiftToTargetExponent Format.binary64 r e .exact = (⟨n, false, false⟩, e') := by
  rcases Nat.lt_or_eq_of_le hhigh with hlt | rfl
  · have hlog : r.log2 = 52 := (Nat.log2_eq_iff (by omega)).2 ⟨hlow, hlt⟩
    have hshift := shiftToTargetExponent_shifted hlog 0 (e := e) he
    simp only [pow_zero, mul_one, Nat.cast_zero, sub_zero] at hshift
    exact ⟨r, hlog, e, by omega, by omega, hshift⟩
  · have hshift := shiftToTargetExponent_shifted (m := 2 ^ 52) (Nat.log2_two_pow) 1 (e := e + 1)
      (by omega)
    rw [show e + 1 - ((1 : Nat) : Int) = e by omega] at hshift
    exact ⟨2 ^ 52, Nat.log2_two_pow, e + 1, by omega, by omega, hshift⟩

/-- The first shift, before rounding: it leaves 53 bits. -/
theorem shiftToTargetExponent_long {m s : Nat} (hm : m.log2 = 52 + s) {e : Int}
    (he : -1074 ≤ e + s) (accuracy : Accuracy) :
    shiftToTargetExponent Format.binary64 m e accuracy =
      (ExtendedMantissa.ofMantissaAndAccuracy m accuracy >>> s, e + s) := by
  have htarget : Format.binary64.targetExponent (totalExponent m e) = e + s := by
    simp only [Format.targetExponent, totalExponent, hm, Format.mantissaBits, Format.minExponent]
    omega
  have hshift : (e + s - e).toNat = s := by omega
  simp only [shiftToTargetExponent, htarget, shiftToExponent, hshift]

/-- Rounding a significand of 53 bits or more. -/
theorem exists_roundWithAccuracy (sign : Sign) {m s : Nat} (hm : m.log2 = 52 + s) {e : Int}
    (he : -1074 ≤ e + s) (accuracy : Accuracy) :
    ∃ n e', ∃ hpos : 0 < n,
      roundWithAccuracy Format.binary64 sign m e accuracy = .finite sign n e' hpos ∧
        n.log2 = 52 ∧ e + s ≤ e' ∧ e' ≤ e + s + 1 := by
  have hkept := kept_bounds hm
  obtain ⟨hdown, hup⟩ := rounded_bounds m accuracy s
  obtain ⟨n, hn, e', hle, hge, hagain⟩ :=
    shiftToTargetExponent_rounded (r := rounded m accuracy s) (by omega) (by omega) he
  have hpos : 0 < n := Nat.pos_of_ne_zero (by rintro rfl; simp at hn)
  refine ⟨n, e', hpos, ?_, hn, hle, hge⟩
  rw [rounded] at hagain
  simp only [roundWithAccuracy, shiftToTargetExponent_long hm he, hagain]
  rw [dif_neg (by omega)]

/-- Without a carry the rounded significand is the result. -/
theorem roundWithAccuracy_eq (sign : Sign) {m s : Nat} (hm : m.log2 = 52 + s) {e : Int}
    (he : -1074 ≤ e + s) {accuracy : Accuracy} (hlow : 2 ^ 52 ≤ rounded m accuracy s)
    (hhigh : rounded m accuracy s < 2 ^ 53) :
    ∃ hpos, roundWithAccuracy Format.binary64 sign m e accuracy =
      .finite sign (rounded m accuracy s) (e + s) hpos := by
  have hlog : (rounded m accuracy s).log2 = 52 := (Nat.log2_eq_iff (by omega)).2 ⟨hlow, hhigh⟩
  have hagain := shiftToTargetExponent_shifted hlog 0 he
  rw [pow_zero, mul_one, Nat.cast_zero, sub_zero, rounded] at hagain
  refine ⟨by omega, ?_⟩
  simp only [roundWithAccuracy, shiftToTargetExponent_long hm he, hagain]
  rw [dif_neg (by rw [rounded] at hlow; omega)]
  rfl

/-- The bits that a long word has beyond 53. -/
theorem exists_log2 {m : Nat} (hlow : 2 ^ 53 ≤ m) (hhigh : m < 2 ^ 64) :
    ∃ s, m.log2 = 52 + s ∧ 0 < s ∧ s ≤ 11 := by
  have hlog : 53 ≤ m.log2 := (Nat.le_log2 (by omega)).2 hlow
  have hshort : m.log2 < 64 := (Nat.log2_lt (by omega)).2 hhigh
  exact ⟨m.log2 - 52, by omega, by omega, by omega⟩

/-- A long significand is not filled up before it is rounded. -/
theorem round_long (sign : Sign) {m : Nat} (hlow : 2 ^ 53 ≤ m) :
    UnpackedFloat.round Format.binary64 sign m 0 =
      roundWithAccuracy Format.binary64 sign m 0 .exact := by
  have hlog : 53 ≤ m.log2 := (Nat.le_log2 (by omega)).2 hlow
  have hnone : (0 - Format.binary64.targetExponent (totalExponent m 0)).toNat = 0 := by
    simp only [Format.targetExponent, totalExponent, Format.mantissaBits, Format.minExponent]
    omega
  simp only [UnpackedFloat.round, decreaseExponent, hnone, Nat.shiftLeft_zero, Nat.cast_zero,
    sub_zero]

/-- An integer with at least 54 bits is rounded to a full significand with a positive exponent. -/
theorem largeParts_round (sign : Sign) {m : Nat} (hlow : 2 ^ 53 ≤ m) (hhigh : m < 2 ^ 64) :
    LargeParts (UnpackedFloat.round Format.binary64 sign m 0) := by
  obtain ⟨s, hs, hpositive, hshort⟩ := exists_log2 hlow hhigh
  obtain ⟨n, e, hpos, hround, hn, hle, hge⟩ :=
    exists_roundWithAccuracy sign hs (e := 0) (by omega) .exact
  exact ⟨sign, n, e, hpos, (round_long sign hlow).trans hround, hn, by omega, by omega⟩

/-! ## Large doubles -/

/-- The double is at least `2 ^ 53` away from zero. -/
def Large (v : Float) : Prop := LargeParts v.toModel.unpack

theorem large_ofModel {f : UnpackedFloat} (h : LargeParts f) : Large (.ofModel (.pack f)) := by
  obtain ⟨sign, m, e, hpos, rfl, hm, hlow, hhigh⟩ := h
  exact ⟨sign, m, e, hpos, unpack_pack_normal sign hm hpos (by omega) (by omega), hm, hlow, hhigh⟩

theorem large_toFloat {m : Nat} (hlow : 2 ^ 53 ≤ m) (hhigh : m < 2 ^ 64) :
    Large m.toUInt64.toFloat := by
  rw [toFloat_eq (by omega) hhigh]
  exact large_ofModel (largeParts_round .positive hlow hhigh)

theorem large_neg {v : Float} (hv : Large v) : Large (-v) := by
  obtain ⟨sign, m, e, hpos, hu, hm, hlow, hhigh⟩ := hv
  change Large (.ofModel (.pack v.toModel.unpack.neg))
  rw [hu]
  exact large_ofModel ⟨-sign, m, e, hpos, rfl, hm, hlow, hhigh⟩

theorem large_ofInt {k : Int} (hk : Word.Fits k) (hlarge : 2 ^ 53 ≤ k.natAbs) :
    Large (ofInt k) := by
  have hfloat : Large k.natAbs.toUInt64.toFloat := by
    refine large_toFloat hlarge ?_
    unfold Word.Fits Word.least Word.greatest at hk
    omega
  unfold ofInt
  split
  · exact large_neg hfloat
  · exact hfloat

/-- A large double stays large when it is divided by one. -/
theorem large_div_one {v w : Float} (hv : Large v) (hw : Is w 1) : Large (v / w) := by
  obtain ⟨s, m, e, hpos, hu, hm, hlow, hhigh⟩ := hv
  obtain ⟨t, ht, -, htp⟩ := hw
  cases htp (by decide)
  have hone : wholeParts .positive 1 = .finite .positive (2 ^ 52) (-52) (by decide) := rfl
  have hround := roundWithAccuracy_shifted s hm 1 (e := e) (by omega) hpos
  change Large (.ofModel (.pack (UnpackedFloat.div _ v.toModel.unpack w.toModel.unpack)))
  rw [hu, ht, show (1 : Int).natAbs = 1 from rfl, hone]
  simp only [UnpackedFloat.div, divCore_one hm (e := e) (by omega)]
  rw [show s / Sign.positive = s by cases s <;> rfl, hround]
  exact large_ofModel ⟨s, m, e, hpos, rfl, hm, hlow, hhigh⟩

/-- A large double is no whole number below `2 ^ 53`: its exponent is greater. -/
theorem beq_of_large {v w : Float} {l : Int} (hv : Large v) (hw : Is w l) (hl : l.natAbs < 2 ^ 53) :
    (v == w) = false := by
  obtain ⟨s, m, e, hpos, hu, -, hlow, -⟩ := hv
  obtain ⟨t, ht, -, -⟩ := hw
  have hdef : (v == w) = (v.toModel.unpack.compare w.toModel.unpack == some .eq) := rfl
  rw [hdef, hu, ht, wholeParts]
  split
  · cases s <;> rfl
  · have hlog := log2_le_of_lt hl
    have hgt : compare e ((l.natAbs.log2 : Int) - 52) = .gt := Int.compare_eq_gt.2 (by omega)
    cases s <;> cases t <;> simp [UnpackedFloat.compare, hgt]

/-- A large double without a sign is at least `2 ^ 53` as a word. -/
theorem toUInt64_of_large {v : Float} {m : Nat} {e : Int} {hpos : 0 < m}
    (hu : v.toModel.unpack = .finite .positive m e hpos) (hm : m.log2 = 52) (he : 0 < e) :
    2 ^ 53 ≤ v.toUInt64.toNat := by
  have hleast : 2 ^ 53 ≤ m <<< e.toNat := by
    have hb := ((Nat.log2_eq_iff (by omega)).1 hm).1
    have htwo : 2 ≤ 2 ^ e.toNat := by
      calc 2 = 2 ^ 1 := rfl
        _ ≤ 2 ^ e.toNat := Nat.pow_le_pow_right (by decide) (by omega)
    rw [Nat.shiftLeft_eq]
    exact Nat.mul_le_mul hb htwo
  have hparts : UnpackedFloat.toInt 0 (UInt64.size - 1) v.toModel.unpack = m <<< e.toNat := by
    have hexp : e - ((e.toNat : Nat) : Int) = 0 := by omega
    rw [hu]
    simp only [UnpackedFloat.toInt, roundToInt, decreaseExponent, sub_zero, hexp, shiftToExponent,
      Int.toNat_zero, ExtendedMantissa.ofMantissaAndAccuracy, Sign.apply]
    rfl
  have hdef : v.toUInt64 =
      UInt64.ofNatClamp (UnpackedFloat.toInt 0 (UInt64.size - 1) v.toModel.unpack).toNat := rfl
  rw [hdef, hparts, Int.toNat_natCast]
  rcases Nat.lt_or_ge (m <<< e.toNat) UInt64.size with hlt | hge
  · rw [UInt64.toNat_ofNatClamp_of_lt hlt]
    exact hleast
  · rw [UInt64.toNat_ofNatClamp_of_le hge]
    decide

/-- A large double is cut to a large integer. -/
theorem toInt_of_large {v : Float} (hv : Large v) : 2 ^ 53 ≤ (toInt v).natAbs := by
  obtain ⟨s, m, e, hpos, hu, hm, hlow, hhigh⟩ := hv
  obtain ⟨t, ht, -, -⟩ := is_zero
  have hdef : v < 0 ↔ (v.toModel.unpack.compare (0 : Float).toModel.unpack == some .lt) = true :=
    ⟨of_decide_eq_true, decide_eq_true⟩
  have hsign : v < 0 ↔ s = .negative := by
    rw [hdef, hu, ht]
    cases s <;> simp [wholeParts, UnpackedFloat.compare]
  unfold toInt Word.least Word.greatest
  cases s with
  | positive =>
    rw [if_neg (by simp [hsign])]
    have := toUInt64_of_large hu hm hlow
    omega
  | negative =>
    rw [if_pos (by simp [hsign])]
    have hneg : (-v).toModel.unpack = .finite .positive m e hpos := by
      change (Float.ofModel (.pack v.toModel.unpack.neg)).toModel.unpack = _
      rw [hu]
      exact unpack_pack_normal .positive hm hpos (by omega) (by omega)
    have := toUInt64_of_large hneg hm hlow
    omega

end Formulary.Double

namespace Formulary.Number

variable {k : Int}

theorem large_value_ofInt (hk : Word.Fits k) (hlarge : 2 ^ 53 ≤ k.natAbs) :
    Double.Large (ofInt k).value :=
  Double.large_div_one (Double.large_ofInt hk hlarge) (Double.is_ofInt (k := 1) (by decide))

/-- An integer of 64 bits has the same double as a small whole number only if it is that number. -/
theorem value_ofInt_beq (hk : Word.Fits k) {w : Float} {l : Int} (hw : Double.Is w l)
    (hl : l.natAbs < 2 ^ 53) : ((ofInt k).value == w) = decide (k = l) := by
  rcases Nat.lt_or_ge k.natAbs (2 ^ 53) with hsmall | hlarge
  · exact Double.beq_of_is (value_ofInt hsmall) hw
  · rw [Double.beq_of_large (large_value_ofInt hk hlarge) hw hl, decide_eq_false (by omega)]

/-- The test for zero is exact on integers. -/
theorem isZero_ofInt (hk : Word.Fits k) : (ofInt k).isZero = decide (k = 0) :=
  value_ofInt_beq hk Double.is_zero (by decide)

theorem isZero_zero : (0 : Number).isZero = true := (isZero_ofInt (by decide)).trans (by decide)

theorem isOne_ofInt (hk : Word.Fits k) : (ofInt k).isOne = decide (k = 1) :=
  value_ofInt_beq hk Double.is_one (by decide)

/-- An integer is read back from its double, unless it is large, and then so is what is read. -/
theorem toInt_value_ofInt (hk : Word.Fits k) :
    Double.toInt (ofInt k).value = k ∨ 2 ^ 53 ≤ (Double.toInt (ofInt k).value).natAbs := by
  rcases Nat.lt_or_ge k.natAbs (2 ^ 53) with hsmall | hlarge
  · exact .inl (Double.toInt_of_is (value_ofInt hsmall) hsmall)
  · exact .inr (Double.toInt_of_large (large_value_ofInt hk hlarge))

end Formulary.Number
