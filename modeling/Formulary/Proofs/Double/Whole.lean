import Formulary.Decimal.Reading
import Formulary.Number
import Mathlib

/-!
# Whole doubles

A whole number below `2 ^ 53` is a double, and the operations on doubles are exact on it: the
conversions from and to integers, the sign, the comparisons, and a quotient by one. `Is v k` says
that the double `v` is the whole number `k`; a zero of either sign is the number zero.

The proofs follow the significand. A whole number `m` is kept as `m * 2 ^ s` with `s` chosen so that
the significand fills its 53 bits, and an operation that only appends zeros to a full significand
is undone by rounding without any loss (`roundWithAccuracy_shifted`).
-/

namespace Formulary.Double

open Float.Model Float.Model.UnpackedFloat

/-! ## Rounding a significand with zeros at its end -/

theorem shiftRight_shifted (m s : Nat) :
    (⟨m * 2 ^ s, false, false⟩ : ExtendedMantissa) >>> s = ⟨m, false, false⟩ := by
  induction s generalizing m with
  | zero => simp [HShiftRight.hShiftRight, Nat.repeat]
  | succ s ih =>
    have hstep : (⟨m * 2 ^ (s + 1), false, false⟩ : ExtendedMantissa) >>> (s + 1) =
        ((⟨m * 2 * 2 ^ s, false, false⟩ : ExtendedMantissa) >>> s).shiftRightOne := by
      rw [show m * 2 * 2 ^ s = m * 2 ^ (s + 1) by ring]
      rfl
    rw [hstep, ih]
    simp [ExtendedMantissa.shiftRightOne]

theorem log2_shifted {m : Nat} (hm : m.log2 = 52) (s : Nat) : (m * 2 ^ s).log2 = 52 + s := by
  have hpos : m ≠ 0 := by rintro rfl; simp at hm
  have hb := (Nat.log2_eq_iff hpos).1 hm
  refine (Nat.log2_eq_iff (by positivity)).2 ⟨?_, ?_⟩
  · rw [Nat.pow_add]
    exact Nat.mul_le_mul_right _ hb.1
  · rw [show 52 + s + 1 = 53 + s by omega, Nat.pow_add]
    exact Nat.mul_lt_mul_of_pos_right hb.2 (by positivity)

/-- A whole number that was shifted up to full length is shifted back without residual bits. -/
theorem shiftToTargetExponent_shifted {m : Nat} (hm : m.log2 = 52) (s : Nat) {e : Int}
    (he : -1074 ≤ e) :
    shiftToTargetExponent Format.binary64 (m * 2 ^ s) (e - s) .exact =
      (⟨m, false, false⟩, e) := by
  have htarget :
      Format.binary64.targetExponent (totalExponent (m * 2 ^ s) (e - s)) = e := by
    simp only [Format.targetExponent, totalExponent, log2_shifted hm, Format.mantissaBits,
      Format.minExponent]
    omega
  have hshift : (e - (e - s)).toNat = s := by omega
  simp only [shiftToTargetExponent, htarget, shiftToExponent, hshift,
    ExtendedMantissa.ofMantissaAndAccuracy, shiftRight_shifted]
  congr 1
  omega

/-- A full significand with zeros behind it is rounded to the significand. -/
theorem roundWithAccuracy_shifted (sign : Sign) {m : Nat} (hm : m.log2 = 52) (s : Nat) {e : Int}
    (he : -1074 ≤ e) (hpos : 0 < m) :
    roundWithAccuracy Format.binary64 sign (m * 2 ^ s) (e - s) .exact =
      .finite sign m e hpos := by
  have hfirst := shiftToTargetExponent_shifted hm s he
  have hagain := shiftToTargetExponent_shifted hm 0 he
  simp only [pow_zero, mul_one, Nat.cast_zero, sub_zero] at hagain
  simp only [roundWithAccuracy, hfirst, ExtendedMantissa.roundedMantissa,
    ExtendedMantissa.accuracy, Accuracy.roundToNearestEven, hagain]
  rw [dif_neg (by omega)]

/-! ## Packing a full significand -/

theorem unpackSign_packComponents (sign : Sign) (e : BitVec 11) (m : BitVec 52) :
    unpackSign (packComponents Format.binary64 sign e m) = sign.toBitVec := by
  change (sign.toBitVec ++ e ++ m).extractLsb' 63 1 = sign.toBitVec
  rw [BitVec.extractLsb'_append_eq_of_le (by decide),
    BitVec.extractLsb'_append_eq_of_le (by decide)]
  cases sign <;> rfl

/-- A normal double keeps its parts. -/
theorem unpack_pack_normal (sign : Sign) {m : Nat} (hm : m.log2 = 52) (hpos : 0 < m) {e : Int}
    (hlow : -1074 ≤ e) (hhigh : e ≤ 971) :
    (Float.Model.pack (.finite sign m e hpos)).unpack = .finite sign m e hpos := by
  have hb := (Nat.log2_eq_iff (by omega)).1 hm
  obtain ⟨b, hbiased⟩ : ∃ b : Nat, e + 1023 + 52 = b := ⟨(e + 1023 + 52).toNat, by omega⟩
  have hfit : b < 2 ^ 11 := by omega
  have hpack : UnpackedFloat.pack Format.binary64 (.finite sign m e hpos) =
      packComponents Format.binary64 sign (BitVec.ofNat 11 b) (BitVec.ofNat 52 m) := by
    have hexp : (e + (Format.binary64.exponentBias : Nat) +
        (Format.binary64.mantissaBitsWithoutImplicit : Nat)).toNat = b := by
      change (e + 1023 + 52).toNat = b
      omega
    have hbits : m.log2 + 1 = Format.binary64.mantissaBits := by rw [hm]; rfl
    simp only [UnpackedFloat.pack, hexp, if_pos hbits]
    rw [if_neg (by omega)]
  have hne (c : Nat) (hc : c < 2 ^ 11) (h : b ≠ c) : BitVec.ofNat 11 b ≠ BitVec.ofNat 11 c := by
    intro heq
    have := congrArg BitVec.toNat heq
    simp only [BitVec.toNat_ofNat, Nat.mod_eq_of_lt hfit, Nat.mod_eq_of_lt hc] at this
    exact h this
  have hsig : (1#1 ++ BitVec.ofNat 52 m).toNat = m := by
    simp only [BitVec.toNat_append, BitVec.toNat_ofNat, Nat.shiftLeft_eq]
    change 2 ^ 52 ||| m % 2 ^ 52 = m
    rw [Nat.or_comm, Nat.or_two_pow_eq_add_of_lt (Nat.mod_lt _ (by positivity))]
    omega
  have hsign : Sign.ofBitVec sign.toBitVec = sign := by cases sign <;> rfl
  change UnpackedFloat.unpack Format.binary64
    (UnpackedFloat.pack Format.binary64 (.finite sign m e hpos)) = _
  rw [hpack]
  simp only [UnpackedFloat.unpack, unpackMantissa_packComponents, unpackExponent_packComponents,
    unpackSign_packComponents, hsign]
  rw [if_neg (show BitVec.ofNat 11 b ≠ -1#11 from hne 2047 (by decide) (by omega)),
    if_neg (hne 0 (by decide) (by omega))]
  simp only [hsig, BitVec.toNat_ofNat, Nat.mod_eq_of_lt hfit]
  congr 1
  change (b : Int) - (1023 + 52) = e
  omega

/-! ## Whole numbers -/

/-- The parts of a whole number below `2 ^ 53`. -/
def wholeParts (sign : Sign) (m : Nat) : UnpackedFloat :=
  if h : m = 0 then .zero sign
  else .finite sign (m * 2 ^ (52 - m.log2)) (m.log2 - 52) (by positivity)

/-- The double is the whole number. -/
def Is (v : Float) (k : Int) : Prop :=
  ∃ sign, v.toModel.unpack = wholeParts sign k.natAbs ∧
    (k < 0 → sign = .negative) ∧ (0 < k → sign = .positive)

theorem log2_le_of_lt {m : Nat} (hm : m < 2 ^ 53) : m.log2 ≤ 52 := by
  by_cases h : m = 0
  · simp [h]
  · have := (Nat.log2_lt h).2 hm
    omega

theorem log2_filled {m : Nat} (hpos : m ≠ 0) (hm : m < 2 ^ 53) :
    (m * 2 ^ (52 - m.log2)).log2 = 52 := by
  have hb := (Nat.log2_eq_iff hpos).1 rfl
  have hl := log2_le_of_lt hm
  refine (Nat.log2_eq_iff (by positivity)).2 ⟨?_, ?_⟩
  · calc 2 ^ 52 = 2 ^ m.log2 * 2 ^ (52 - m.log2) := by rw [← Nat.pow_add]; congr 1; omega
      _ ≤ m * 2 ^ (52 - m.log2) := Nat.mul_le_mul_right _ hb.1
  · calc m * 2 ^ (52 - m.log2) < 2 ^ (m.log2 + 1) * 2 ^ (52 - m.log2) :=
          Nat.mul_lt_mul_of_pos_right hb.2 (by positivity)
      _ = 2 ^ (52 + 1) := by rw [← Nat.pow_add]; congr 1; omega

theorem unpack_pack_wholeParts (sign : Sign) {m : Nat} (hm : m < 2 ^ 53) :
    (Float.Model.pack (wholeParts sign m)).unpack = wholeParts sign m := by
  unfold wholeParts
  split
  · cases sign <;> rfl
  · rename_i h
    exact unpack_pack_normal sign (log2_filled h hm) _ (by omega)
      (by have := log2_le_of_lt hm; omega)

theorem is_ofModel {sign : Sign} {k : Int} (hk : k.natAbs < 2 ^ 53)
    (hneg : k < 0 → sign = .negative) (hpos : 0 < k → sign = .positive) :
    Is (.ofModel (.pack (wholeParts sign k.natAbs))) k :=
  ⟨sign, unpack_pack_wholeParts sign hk, hneg, hpos⟩

/-- Rounding a whole number fills its significand. -/
theorem round_whole (sign : Sign) {m : Nat} (hpos : m ≠ 0) (hm : m < 2 ^ 53) :
    UnpackedFloat.round Format.binary64 sign m 0 = wholeParts sign m := by
  have hl := log2_le_of_lt hm
  have htarget : Format.binary64.targetExponent (totalExponent m 0) = (m.log2 : Int) - 52 := by
    simp only [Format.targetExponent, totalExponent, Format.mantissaBits, Format.minExponent]
    omega
  have hshift : (0 - ((m.log2 : Int) - 52)).toNat = 52 - m.log2 := by omega
  have hexp : (0 : Int) - ((52 - m.log2 : Nat) : Int) = (m.log2 : Int) - 52 := by omega
  simp only [UnpackedFloat.round, htarget, decreaseExponent, hshift, hexp, Nat.shiftLeft_eq]
  have h := roundWithAccuracy_shifted sign (log2_filled hpos hm) 0 (e := (m.log2 : Int) - 52)
    (by omega) (by positivity)
  simp only [pow_zero, mul_one, Nat.cast_zero, sub_zero] at h
  rw [h, wholeParts, dif_neg hpos]

theorem toFloat_eq {m : Nat} (hpos : 0 < m) (hm : m < 2 ^ 64) :
    m.toUInt64.toFloat = .ofModel (.pack (UnpackedFloat.round Format.binary64 .positive m 0)) := by
  have hword : m.toUInt64.toNat = m := by
    simp only [Nat.toUInt64]
    exact Nat.mod_eq_of_lt hm
  have hgt : compare (m : Int) 0 = .gt := Int.compare_eq_gt.2 (by omega)
  have hparts : UnpackedFloat.ofUInt64 Format.binary64 m.toUInt64 =
      UnpackedFloat.round Format.binary64 .positive m 0 := by
    simp only [UnpackedFloat.ofUInt64, UnpackedFloat.ofNat, UnpackedFloat.ofInt, hword,
      UnpackedFloat.normalize, hgt, Int.toNat_natCast]
  rw [← hparts]
  rfl

theorem is_toFloat {m : Nat} (hm : m < 2 ^ 53) : Is m.toUInt64.toFloat m := by
  have his : Is (.ofModel (.pack (wholeParts .positive m))) m :=
    is_ofModel (k := m) (by simpa using hm) (by omega) (fun _ => rfl)
  rcases Nat.eq_zero_or_pos m with rfl | hpos
  · exact his
  · rwa [toFloat_eq hpos (by omega), round_whole .positive hpos.ne' hm]

/-! ## Operations on whole numbers -/

section Operations

variable {v w : Float} {k l : Int}

/-- The negative of a whole double is the negative number. -/
theorem is_neg (hv : Is v k) (hk : k.natAbs < 2 ^ 53) : Is (-v) (-k) := by
  obtain ⟨sign, hu, hneg, hpos⟩ := hv
  have hparts : UnpackedFloat.neg (wholeParts sign k.natAbs) = wholeParts (-sign) k.natAbs := by
    unfold wholeParts
    split <;> rfl
  have hmodel : -v = .ofModel (.pack (wholeParts (-sign) k.natAbs)) := by
    change Float.ofModel (.pack v.toModel.unpack.neg) = _
    rw [hu, hparts]
  rw [hmodel, ← Int.natAbs_neg k]
  refine is_ofModel (by simpa using hk) (fun h => ?_) (fun h => ?_)
  · rw [hpos (by omega)]; rfl
  · rw [hneg (by omega)]; rfl

theorem is_ofInt (hk : k.natAbs < 2 ^ 53) : Is (ofInt k) k := by
  unfold ofInt
  split
  · have h := is_neg (is_toFloat hk) (by omega)
    rwa [show -(k.natAbs : Int) = k by omega] at h
  · have h := is_toFloat hk
    rwa [show (k.natAbs : Int) = k by omega] at h

theorem is_abs (hv : Is v k) (hk : k.natAbs < 2 ^ 53) : Is v.abs k.natAbs := by
  obtain ⟨sign, hu, -, -⟩ := hv
  have hparts : UnpackedFloat.abs (wholeParts sign k.natAbs) = wholeParts .positive k.natAbs := by
    unfold wholeParts
    split <;> rfl
  have hmodel : v.abs = .ofModel (.pack (wholeParts .positive k.natAbs)) := by
    change Float.ofModel (.pack v.toModel.unpack.abs) = _
    rw [hu, hparts]
  rw [hmodel]
  exact is_ofModel (k := k.natAbs) (by omega) (by omega) (fun _ => rfl)

/-- The significands of two whole numbers compare as the numbers do. -/
theorem compare_filled {m n : Nat} (hm : m ≠ 0) (hn : n ≠ 0) :
    (compare ((m.log2 : Int) - 52) ((n.log2 : Int) - 52)).then
      (compare (m * 2 ^ (52 - m.log2)) (n * 2 ^ (52 - n.log2))) = compare m n := by
  have bm := (Nat.log2_eq_iff hm).1 rfl
  have bn := (Nat.log2_eq_iff hn).1 rfl
  rcases Nat.lt_trichotomy m.log2 n.log2 with h | h | h
  · have hlt : m < n :=
      Nat.lt_of_lt_of_le bm.2 ((Nat.pow_le_pow_right (by decide) h).trans bn.1)
    rw [Int.compare_eq_lt.2 (by omega), Nat.compare_eq_lt.2 hlt]
    rfl
  · rw [Int.compare_eq_eq.2 (by omega), h]
    have hpos : 0 < 2 ^ (52 - n.log2) := by positivity
    rcases Nat.lt_trichotomy m n with h | h | h
    · rw [Nat.compare_eq_lt.2 h, Nat.compare_eq_lt.2 (Nat.mul_lt_mul_of_pos_right h hpos)]; rfl
    · rw [h, Nat.compare_eq_eq.2 rfl, Nat.compare_eq_eq.2 rfl]; rfl
    · rw [Nat.compare_eq_gt.2 h, Nat.compare_eq_gt.2 (Nat.mul_lt_mul_of_pos_right h hpos)]; rfl
  · have hlt : n < m :=
      Nat.lt_of_lt_of_le bn.2 ((Nat.pow_le_pow_right (by decide) h).trans bm.1)
    rw [Int.compare_eq_gt.2 (by omega), Nat.compare_eq_gt.2 hlt]
    rfl

/-- Whole doubles compare like the whole numbers. -/
theorem compare_is (hv : Is v k) (hw : Is w l) :
    v.toModel.unpack.compare w.toModel.unpack = some (compare k l) := by
  obtain ⟨s, hs, hsn, hsp⟩ := hv
  obtain ⟨t, ht, htn, htp⟩ := hw
  rw [hs, ht]
  unfold wholeParts
  rcases Int.lt_trichotomy k 0 with hk0 | rfl | hk0
  · cases hsn hk0
    rw [dif_neg (by omega : k.natAbs ≠ 0)]
    rcases Int.lt_trichotomy l 0 with hl0 | rfl | hl0
    · cases htn hl0
      rw [dif_neg (by omega : l.natAbs ≠ 0)]
      simp only [UnpackedFloat.compare]
      rw [compare_filled (by omega) (by omega)]
      rcases Int.lt_trichotomy k l with h | rfl | h
      · rw [Int.compare_eq_lt.2 h, Nat.compare_eq_gt.2 (by omega)]; rfl
      · rw [Int.compare_eq_eq.2 rfl, Nat.compare_eq_eq.2 rfl]; rfl
      · rw [Int.compare_eq_gt.2 h, Nat.compare_eq_lt.2 (by omega)]; rfl
    · rw [Int.compare_eq_lt.2 hk0]; rfl
    · cases htp hl0
      rw [dif_neg (by omega : l.natAbs ≠ 0), Int.compare_eq_lt.2 (by omega)]; rfl
  · rcases Int.lt_trichotomy l 0 with hl0 | rfl | hl0
    · cases htn hl0
      rw [dif_neg (by omega : l.natAbs ≠ 0), Int.compare_eq_gt.2 hl0]; rfl
    · rfl
    · cases htp hl0
      rw [dif_neg (by omega : l.natAbs ≠ 0), Int.compare_eq_lt.2 hl0]; rfl
  · cases hsp hk0
    rw [dif_neg (by omega : k.natAbs ≠ 0)]
    rcases Int.lt_trichotomy l 0 with hl0 | rfl | hl0
    · cases htn hl0
      rw [dif_neg (by omega : l.natAbs ≠ 0), Int.compare_eq_gt.2 (by omega)]; rfl
    · rw [Int.compare_eq_gt.2 hk0]; rfl
    · cases htp hl0
      rw [dif_neg (by omega : l.natAbs ≠ 0)]
      simp only [UnpackedFloat.compare]
      rw [compare_filled (by omega) (by omega)]
      rcases Int.lt_trichotomy k l with h | rfl | h
      · rw [Int.compare_eq_lt.2 h, Nat.compare_eq_lt.2 (by omega)]
      · rw [Int.compare_eq_eq.2 rfl, Nat.compare_eq_eq.2 rfl]
      · rw [Int.compare_eq_gt.2 h, Nat.compare_eq_gt.2 (by omega)]

theorem lt_iff_of_is (hv : Is v k) (hw : Is w l) : v < w ↔ k < l := by
  have hdef : v < w ↔ (v.toModel.unpack.compare w.toModel.unpack == some .lt) = true :=
    ⟨of_decide_eq_true, decide_eq_true⟩
  rw [hdef, compare_is hv hw, ← Int.compare_eq_lt]
  simp

theorem beq_of_is (hv : Is v k) (hw : Is w l) : (v == w) = decide (k = l) := by
  have hdef : (v == w) = (v.toModel.unpack.compare w.toModel.unpack == some .eq) := rfl
  rw [hdef, compare_is hv hw, Bool.eq_iff_iff]
  simp

/-- A double less itself is zero, as long as it is a whole number. -/
theorem sub_beq_zero (hv : Is v k) (hw : Is w k) : (v - w == 0) = true := by
  obtain ⟨s, hs, hsn, hsp⟩ := hv
  obtain ⟨t, ht, htn, htp⟩ := hw
  have hzero : ∃ sign, UnpackedFloat.sub Format.binary64 (wholeParts s k.natAbs)
      (wholeParts t k.natAbs) = .zero sign := by
    by_cases hk : k = 0
    · subst hk
      cases s <;> cases t <;> exact ⟨_, rfl⟩
    · have hst : s = t := by
        rcases Int.lt_or_gt_of_ne hk with h | h
        · rw [hsn h, htn h]
        · rw [hsp h, htp h]
      subst hst
      have hz (a b : Int) (h : a = b) :
          UnpackedFloat.normalize Format.binary64 (a - b) ((k.natAbs.log2 : Int) - 52) .positive =
            .zero .positive := by
        rw [h, sub_self]; rfl
      refine ⟨.positive, ?_⟩
      rw [wholeParts, dif_neg (by omega : k.natAbs ≠ 0)]
      simp only [UnpackedFloat.sub, min_self]
      exact hz _ _ rfl
  obtain ⟨sign, hsign⟩ := hzero
  have hsub : v - w = .ofModel (.pack (.zero sign)) := by
    change Float.ofModel (.pack (UnpackedFloat.sub _ v.toModel.unpack w.toModel.unpack)) = _
    rw [hs, ht, hsign]
  rw [hsub]
  cases sign <;> decide +kernel

theorem mantissa_toInt {m : Nat} (hm : m < 2 ^ 53) :
    UnpackedFloat.toInt 0 (UInt64.size - 1) (wholeParts .positive m) = m := by
  by_cases h : m = 0
  · subst h; rfl
  have hl := log2_le_of_lt hm
  have hexp : ((m.log2 : Int) - 52 - 0).toNat = 0 := by omega
  have hshift : (0 - ((m.log2 : Int) - 52 - ((0 : Nat) : Int))).toNat = 52 - m.log2 := by omega
  simp only [wholeParts, dif_neg h, UnpackedFloat.toInt, roundToInt, decreaseExponent, hexp,
    shiftToExponent, hshift, Nat.shiftLeft_zero, ExtendedMantissa.ofMantissaAndAccuracy,
    shiftRight_shifted, Sign.apply]

/-- A whole double is converted back without loss. -/
theorem toUInt64_of_is (hv : Is v k) (hk : k.natAbs < 2 ^ 53) (h0 : 0 ≤ k) :
    v.toUInt64.toNat = k.natAbs := by
  obtain ⟨s, hs, -, hsp⟩ := hv
  have hparts : UnpackedFloat.toInt 0 (UInt64.size - 1) v.toModel.unpack = k.natAbs := by
    rw [hs]
    by_cases hz : k = 0
    · subst hz; cases s <;> rfl
    · rw [hsp (by omega)]
      exact mantissa_toInt hk
  have hdef : v.toUInt64 =
      UInt64.ofNatClamp (UnpackedFloat.toInt 0 (UInt64.size - 1) v.toModel.unpack).toNat := rfl
  rw [hdef, hparts, Int.toNat_natCast, UInt64.toNat_ofNatClamp_of_lt]
  simp only [UInt64.size]
  omega

/-- A double that is a whole number is truncated to that number. -/
theorem toInt_of_is (hv : Is v k) (hk : k.natAbs < 2 ^ 53) : toInt v = k := by
  have hzero : Is 0 0 := ⟨.positive, rfl, by omega, by omega⟩
  have hlt := lt_iff_of_is hv hzero
  unfold toInt Word.least Word.greatest
  split
  · rename_i h
    have h0 := hlt.1 h
    rw [toUInt64_of_is (is_neg hv hk) (by omega) (by omega)]
    omega
  · rename_i h
    have h0 : 0 ≤ k := by
      by_contra hn
      exact h (hlt.2 (by omega))
    rw [toUInt64_of_is hv hk h0]
    omega

theorem truncate_of_is (hv : Is v k) (hk : k.natAbs < 2 ^ 53) : Is (truncate v) k := by
  unfold truncate
  split
  · rw [toInt_of_is hv hk]
    exact is_ofInt hk
  · exact hv

theorem isWhole_of_is (hv : Is v k) (hk : k.natAbs < 2 ^ 53) : isWhole v = true :=
  sub_beq_zero hv (truncate_of_is hv hk)

/-- A product with one is the other factor, rounding included. -/
theorem is_mul_one (hv : Is v k) (hk : k.natAbs < 2 ^ 53) (hw : Is w 1) : Is (v * w) k := by
  obtain ⟨s, hs, hsn, hsp⟩ := hv
  obtain ⟨t, ht, -, htp⟩ := hw
  cases htp (by decide)
  have hparts : UnpackedFloat.mul Format.binary64 (wholeParts s k.natAbs) (wholeParts .positive 1) =
      wholeParts s k.natAbs := by
    by_cases h : k = 0
    · subst h; cases s <;> rfl
    · have hne : k.natAbs ≠ 0 := by omega
      have hl := log2_le_of_lt hk
      have hround := roundWithAccuracy_shifted s (log2_filled hne hk) 52
        (e := (k.natAbs.log2 : Int) - 52) (by omega) (by positivity)
      have hone : wholeParts .positive 1 = .finite .positive (2 ^ 52) (-52) (by decide) := rfl
      rw [hone, wholeParts, dif_neg hne]
      simp only [UnpackedFloat.mul]
      rw [show s * Sign.positive = s by cases s <;> rfl]
      exact hround
  have hmul : v * w = .ofModel (.pack (wholeParts s k.natAbs)) := by
    change Float.ofModel (.pack (UnpackedFloat.mul _ v.toModel.unpack w.toModel.unpack)) = _
    rw [hs, ht]
    exact congrArg _ (congrArg _ hparts)
  rw [hmul]
  exact is_ofModel hk hsn hsp

/-- A full significand is divided by one exactly. The quotient is formed with one bit more than the
significand has. -/
theorem divCore_one {m : Nat} (hm : m.log2 = 52) {e : Int} (he : -1073 ≤ e) :
    divCore Format.binary64 m e (2 ^ 52) (-52) = (m * 2 ^ 1, e - (1 : Nat), .exact) := by
  have htarget : min (e - -52)
      (Format.binary64.targetExponent (totalExponent m e - totalExponent (2 ^ 52) (-52))) =
        e - (1 : Nat) := by
    simp only [Format.targetExponent, totalExponent, hm, Nat.log2_two_pow,
      Format.mantissaBits, Format.minExponent]
    omega
  have hshift : (e - -52 - (e - (1 : Nat))).toNat = 53 := by omega
  have hsplit : m <<< 53 = m * 2 ^ 1 * 2 ^ 52 := by
    rw [Nat.shiftLeft_eq, Nat.mul_assoc, ← Nat.pow_add]
  simp only [divCore, htarget, hshift, hsplit]
  rw [Nat.mul_div_cancel _ (by positivity), Nat.mul_mod_left]
  rfl

/-- A quotient by one is the dividend, rounding included. -/
theorem is_div_one (hv : Is v k) (hk : k.natAbs < 2 ^ 53) (hw : Is w 1) : Is (v / w) k := by
  obtain ⟨s, hs, hsn, hsp⟩ := hv
  obtain ⟨t, ht, -, htp⟩ := hw
  cases htp (by decide)
  have hparts : UnpackedFloat.div Format.binary64 (wholeParts s k.natAbs) (wholeParts .positive 1) =
      wholeParts s k.natAbs := by
    by_cases h : k = 0
    · subst h; cases s <;> rfl
    · have hne : k.natAbs ≠ 0 := by omega
      have hl := log2_le_of_lt hk
      have hlog := log2_filled hne hk
      have hround := roundWithAccuracy_shifted s hlog 1
        (e := (k.natAbs.log2 : Int) - 52) (by omega) (by positivity)
      have hone : wholeParts .positive 1 = .finite .positive (2 ^ 52) (-52) (by decide) := rfl
      rw [hone, wholeParts, dif_neg hne]
      simp only [UnpackedFloat.div, divCore_one hlog (e := (k.natAbs.log2 : Int) - 52) (by omega)]
      rw [show s / Sign.positive = s by cases s <;> rfl]
      exact hround
  have hdiv : v / w = .ofModel (.pack (wholeParts s k.natAbs)) := by
    change Float.ofModel (.pack (UnpackedFloat.div _ v.toModel.unpack w.toModel.unpack)) = _
    rw [hs, ht]
    exact congrArg _ (congrArg _ hparts)
  rw [hdiv]
  exact is_ofModel hk hsn hsp

end Operations

/-! ## Literals -/

/-- A whole number literal is that number. -/
theorem is_ofScientific {n : Nat} (hn : n < 2 ^ 53) : Is (Float.ofScientific n false 0) n := by
  have hone : Is Float.exactlyRepresentablePowersOfTen[0] 1 :=
    ⟨.positive, rfl, by omega, fun _ => rfl⟩
  have hmul : Float.ofScientific n false 0 =
      n.toUInt64.toFloat * Float.exactlyRepresentablePowersOfTen[0] := by
    rw [Float.ofScientific, dif_pos ⟨hn, by decide⟩]
    rfl
  rw [hmul]
  exact is_mul_one (is_toFloat hn) (by simpa using hn) hone

theorem is_zero : Is 0 (0 : Nat) := is_ofScientific (by decide)

theorem is_one : Is 1 (1 : Nat) := is_ofScientific (by decide)

end Formulary.Double

namespace Formulary.Number

variable {k : Int}

/-- A double that is a small whole number is made exact again. -/
theorem ofDouble_of_is {v : Float} (hv : Double.Is v k) (hk : k.natAbs < 9000000000000000) :
    ofDouble v = ofInt k := by
  have hlimit : Double.Is 9000000000000000 (9000000000000000 : Nat) :=
    Double.is_ofScientific (by decide)
  have hbound : v.abs < 9000000000000000 :=
    (Double.lt_iff_of_is (Double.is_abs hv (by omega)) hlimit).2 (by omega)
  rw [ofDouble, Double.isWhole_of_is hv (by omega), Double.toInt_of_is hv (by omega)]
  simp [hbound]

theorem value_ofInt (hk : k.natAbs < 2 ^ 53) : Double.Is (ofInt k).value k :=
  Double.is_div_one (Double.is_ofInt hk) hk (Double.is_ofInt (k := 1) (by decide))

theorem isNegative_ofInt (hk : k.natAbs < 2 ^ 53) : (ofInt k).isNegative = decide (k < 0) :=
  decide_eq_decide.2 (Double.lt_iff_of_is (value_ofInt hk) Double.is_zero)

end Formulary.Number
