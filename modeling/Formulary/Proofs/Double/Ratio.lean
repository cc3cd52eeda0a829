import Formulary.Proofs.Double.Sign

/-!
# The fraction that a double is

A finite double is a fraction, its significand times a power of two. `ratio?` gives this fraction,
and here is what it says about the operations: comparisons are those of the fractions, and a sum or
a difference is exact whenever the exact result can be written with 53 bits (`Representable`). So
nothing of the format is left once a program only forms such results.

A double keeps its significand as long as its exponent allows (`Canonical`). That is what makes the
comparison of exponents before significands right, and what leaves no fraction in a large double.
-/

namespace Formulary.Double

open Float.Model Float.Model.UnpackedFloat

/-! ## Canonical floats -/

/-- The significand has at most 53 bits, and fewer only under the least exponent. -/
def Canonical : UnpackedFloat → Prop
  | .finite _ m e _ => m < 2 ^ 53 ∧ -1074 ≤ e ∧ e ≤ 971 ∧ (2 ^ 52 ≤ m ∨ e = -1074)
  | _ => True

/-- The fraction of a float that is finite. -/
def fraction? : UnpackedFloat → Option ℚ
  | .zero _ => some 0
  | .finite sign m e _ => some (sign.apply m * 2 ^ e)
  | _ => none

/-- The fraction of a double that is finite. -/
def ratio? (v : Float) : Option ℚ := fraction? v.toModel.unpack

/-- Every pattern of bits has a canonical significand. -/
theorem canonical_ofFields (sign : Sign) (e : BitVec 11) (m : BitVec 52) :
    Canonical (ofFields sign e m) := by
  have he := e.isLt
  have hm := m.isLt
  rw [ofFields_eq]
  split_ifs with hfull hempty hsmall hzero
  · trivial
  · trivial
  · trivial
  · subst hsmall
    exact ⟨by omega, by decide, by decide, .inr rfl⟩
  · have hnotfull : e.toNat ≠ 2047 := fun h => hfull (BitVec.eq_of_toNat_eq h)
    have hnotsmall : e.toNat ≠ 0 := fun h => hsmall (BitVec.eq_of_toNat_eq h)
    have himplicit := toNat_implicit m
    exact ⟨by omega, by omega, by omega, .inl (by omega)⟩

theorem canonical_unpack (v : Float) : Canonical v.toModel.unpack := by
  obtain ⟨⟨bits, hvalid⟩⟩ := v
  obtain ⟨sign, e, m, hfields⟩ := exists_fields bits.toBitVec
  change Canonical (UnpackedFloat.unpack Format.binary64 bits.toBitVec)
  rw [hfields]
  exact canonical_ofFields sign e m

/-- A canonical float is kept by packing. -/
theorem unpack_pack {f : UnpackedFloat} (h : Canonical f) : (Float.Model.pack f).unpack = f := by
  cases f with
  | notANumber => rfl
  | infinity sign | zero sign => cases sign <;> rfl
  | finite sign m e hpos =>
    obtain ⟨hm, hlow, hhigh, hfull⟩ := h
    by_cases hlong : 2 ^ 52 ≤ m
    · exact unpack_pack_normal sign ((Nat.log2_eq_iff (by omega)).2 ⟨hlong, hm⟩) hpos hlow hhigh
    · obtain rfl : e = -1074 := hfull.resolve_left hlong
      -- a short significand is stored as it is, under the exponent zero
      have hlog : m.log2 < 52 := (Nat.log2_lt (by omega)).2 (by omega)
      have hbits : ¬m.log2 + 1 = Format.binary64.mantissaBits := by
        change ¬m.log2 + 1 = 53
        omega
      have hword : (BitVec.ofNat 52 m).toNat = m := by
        rw [BitVec.toNat_ofNat, Nat.mod_eq_of_lt (by omega)]
      have hstored : BitVec.ofNat 52 m ≠ 0#52 := by
        intro hzero
        rw [hzero] at hword
        exact hpos.ne hword
      have hpack : UnpackedFloat.pack Format.binary64 (.finite sign m (-1074) hpos) =
          packComponents Format.binary64 sign 0#11 (BitVec.ofNat 52 m) := by
        simp only [UnpackedFloat.pack, if_neg hbits]
        rw [if_neg (by decide)]
      change UnpackedFloat.unpack Format.binary64 (UnpackedFloat.pack Format.binary64 _) = _
      rw [hpack]
      change ofFields sign 0#11 (BitVec.ofNat 52 m) = _
      rw [ofFields_eq, if_neg (by decide), if_pos rfl, dif_neg hstored]
      simp only [hword]
      rfl

/-- A finite double is zero, or its significand times a power of two. -/
theorem cases_of_ratio? {v : Float} {x : ℚ} (h : ratio? v = some x) :
    (∃ sign, v.toModel.unpack = .zero sign ∧ x = 0) ∨
      ∃ sign m e hm, v.toModel.unpack = .finite sign m e hm ∧ x = sign.apply m * 2 ^ e ∧
        Canonical (.finite sign m e hm) := by
  have hcanonical := canonical_unpack v
  unfold ratio? at h
  cases hu : v.toModel.unpack with
  | notANumber | infinity sign => simp [hu, fraction?] at h
  | zero sign =>
    rw [hu] at h
    exact .inl ⟨sign, rfl, (Option.some.inj h).symm⟩
  | finite sign m e hm =>
    rw [hu] at h hcanonical
    exact .inr ⟨sign, m, e, hm, rfl, (Option.some.inj h).symm, hcanonical⟩

theorem two_zpow_pos (e : Int) : (0 : ℚ) < 2 ^ e := by positivity

theorem abs_fraction (sign : Sign) (m : Nat) (e : Int) :
    |((sign.apply m : ℤ) : ℚ) * 2 ^ e| = m * 2 ^ e := by
  rw [abs_mul, abs_of_pos (two_zpow_pos e)]
  cases sign <;> simp [Sign.apply]

theorem ratio?_ofModel {f : UnpackedFloat} (h : Canonical f) :
    ratio? (.ofModel (.pack f)) = fraction? f := congrArg fraction? (unpack_pack h)

/-- A double without a fraction is infinite or not a number. -/
theorem eq_of_ratio?_eq_none {v : Float} (h : ratio? v = none) :
    v = nan ∨ v = infinity ∨ v = -infinity := by
  rw [← pack_unpack v]
  unfold ratio? at h
  cases hu : v.toModel.unpack with
  | notANumber => exact .inl rfl
  | infinity sign =>
    cases sign with
    | positive => exact .inr (.inl rfl)
    | negative => exact .inr (.inr rfl)
  | zero sign | finite sign m e hpos => simp [hu, fraction?] at h

/-! ## Comparisons -/

/-- The exponents of two canonical significands are compared first. -/
theorem lt_of_exponent_lt {m n : Nat} {d e : Int} (hm : m < 2 ^ 53) (hd : -1074 ≤ d)
    (hn : 2 ^ 52 ≤ n ∨ e = -1074) (h : d < e) : (m : ℚ) * 2 ^ d < n * 2 ^ e := by
  have hlong : 2 ^ 52 ≤ n := hn.resolve_right (by omega)
  calc (m : ℚ) * 2 ^ d
    _ < 2 ^ 53 * 2 ^ d := by
      refine mul_lt_mul_of_pos_right ?_ (two_zpow_pos d)
      exact_mod_cast hm
    _ = 2 ^ 52 * 2 ^ (d + 1) := by
      rw [zpow_add_one₀ two_ne_zero]
      ring
    _ ≤ n * 2 ^ e := by
      refine mul_le_mul ?_ (zpow_le_zpow_right₀ one_le_two (by omega)) (two_zpow_pos _).le
        (Nat.cast_nonneg n)
      exact_mod_cast hlong

/-- Exponents decide first which of two canonical magnitudes is greater, then significands. -/
theorem compare_magnitudes {m n : Nat} {d e : Int} (hm : m < 2 ^ 53) (hn : n < 2 ^ 53)
    (hd : -1074 ≤ d) (he : -1074 ≤ e) (hm' : 2 ^ 52 ≤ m ∨ d = -1074)
    (hn' : 2 ^ 52 ≤ n ∨ e = -1074) :
    (compare d e).then (compare m n) = compare ((m : ℚ) * 2 ^ d) (n * 2 ^ e) := by
  rcases Int.lt_trichotomy d e with h | rfl | h
  · rw [Int.compare_eq_lt.2 h, compare_lt_iff_lt.2 (lt_of_exponent_lt hm hd hn' h)]
    rfl
  · rw [Int.compare_eq_eq.2 rfl, Ordering.then]
    rcases Nat.lt_trichotomy m n with h | rfl | h
    · rw [Nat.compare_eq_lt.2 h, compare_lt_iff_lt.2]
      exact mul_lt_mul_of_pos_right (Nat.cast_lt.2 h) (two_zpow_pos d)
    · rw [Nat.compare_eq_eq.2 rfl, compare_eq_iff_eq.2 rfl]
    · rw [Nat.compare_eq_gt.2 h, compare_gt_iff_gt.2]
      exact mul_lt_mul_of_pos_right (Nat.cast_lt.2 h) (two_zpow_pos d)
  · rw [Int.compare_eq_gt.2 h, compare_gt_iff_gt.2 (lt_of_exponent_lt hn he hm' h)]
    rfl

theorem compare_neg_neg (x y : ℚ) : compare (-x) (-y) = (compare x y).swap := by
  rcases lt_trichotomy x y with h | rfl | h
  · rw [compare_lt_iff_lt.2 h, compare_gt_iff_gt.2 (neg_lt_neg h)]
    rfl
  · rw [compare_eq_iff_eq.2 rfl, compare_eq_iff_eq.2 rfl]
    rfl
  · rw [compare_gt_iff_gt.2 h, compare_lt_iff_lt.2 (neg_lt_neg h)]
    rfl

/-- Finite canonical floats compare as their fractions do. -/
theorem compare_of_fraction? {f g : UnpackedFloat} (hf : Canonical f) (hg : Canonical g) {x y : ℚ}
    (hx : fraction? f = some x) (hy : fraction? g = some y) :
    f.compare g = some (compare x y) := by
  cases f with
  | notANumber | infinity s => simp [fraction?] at hx
  | zero s =>
    obtain rfl := Option.some.inj hx
    cases g with
    | notANumber | infinity t => simp [fraction?] at hy
    | zero t =>
      obtain rfl := Option.some.inj hy
      rfl
    | finite t n e hn =>
      obtain rfl := Option.some.inj hy
      have hpos : (0 : ℚ) < n * 2 ^ e := mul_pos (Nat.cast_pos.2 hn) (two_zpow_pos e)
      cases t with
      | positive =>
        rw [compare_lt_iff_lt.2 (by simpa [Sign.apply] using hpos)]
        rfl
      | negative =>
        rw [compare_gt_iff_gt.2 (by simpa [Sign.apply] using hpos)]
        rfl
  | finite s m d hm =>
    obtain rfl := Option.some.inj hx
    obtain ⟨hm53, hd, -, hm'⟩ := hf
    have hmpos : (0 : ℚ) < m * 2 ^ d := mul_pos (Nat.cast_pos.2 hm) (two_zpow_pos d)
    cases g with
    | notANumber | infinity t => simp [fraction?] at hy
    | zero t =>
      obtain rfl := Option.some.inj hy
      cases s with
      | positive =>
        rw [compare_gt_iff_gt.2 (by simpa [Sign.apply] using hmpos)]
        rfl
      | negative =>
        rw [compare_lt_iff_lt.2 (by simpa [Sign.apply] using hmpos)]
        rfl
    | finite t n e hn =>
      obtain rfl := Option.some.inj hy
      obtain ⟨hn53, he, -, hn'⟩ := hg
      have hnpos : (0 : ℚ) < n * 2 ^ e := mul_pos (Nat.cast_pos.2 hn) (two_zpow_pos e)
      have hcompare := compare_magnitudes hm53 hn53 hd he hm' hn'
      cases s with
      | positive =>
        cases t with
        | positive => exact congrArg some hcompare
        | negative =>
          rw [compare_gt_iff_gt.2]
          · rfl
          · simp only [Sign.apply, Int.cast_neg, Int.cast_natCast]
            linarith
      | negative =>
        cases t with
        | positive =>
          rw [compare_lt_iff_lt.2]
          · rfl
          · simp only [Sign.apply, Int.cast_neg, Int.cast_natCast]
            linarith
        | negative =>
          simp only [Sign.apply, Int.cast_neg, Int.cast_natCast, neg_mul, compare_neg_neg]
          exact congrArg (fun o => some (Ordering.swap o)) hcompare

section Comparisons

variable {v w : Float} {x y : ℚ}

/-- Finite doubles compare like their fractions. -/
theorem compare_of_ratio? (hx : ratio? v = some x) (hy : ratio? w = some y) :
    v.toModel.unpack.compare w.toModel.unpack = some (compare x y) :=
  compare_of_fraction? (canonical_unpack v) (canonical_unpack w) hx hy

theorem lt_iff_of_ratio? (hx : ratio? v = some x) (hy : ratio? w = some y) : v < w ↔ x < y := by
  have hdef : v < w ↔ (v.toModel.unpack.compare w.toModel.unpack == some .lt) = true :=
    ⟨of_decide_eq_true, decide_eq_true⟩
  rw [hdef, compare_of_ratio? hx hy, ← compare_lt_iff_lt]
  simp

theorem le_iff_of_ratio? (hx : ratio? v = some x) (hy : ratio? w = some y) : v ≤ w ↔ x ≤ y := by
  have hdef : v ≤ w ↔ (v.toModel.unpack.compare w.toModel.unpack).any (·.isLE) = true :=
    ⟨of_decide_eq_true, decide_eq_true⟩
  rw [hdef, compare_of_ratio? hx hy, ← compare_le_iff_le]
  cases compare x y <;> decide

theorem beq_of_ratio? (hx : ratio? v = some x) (hy : ratio? w = some y) :
    (v == w) = decide (x = y) := by
  have hdef : (v == w) = (v.toModel.unpack.compare w.toModel.unpack == some .eq) := rfl
  rw [hdef, compare_of_ratio? hx hy, Bool.eq_iff_iff, decide_eq_true_eq, ← compare_eq_iff_eq]
  simp

end Comparisons

/-! ## Rounding what needs no rounding -/

/-- The fraction has at most 53 bits and an exponent in the range of the doubles. -/
def Representable (x : ℚ) : Prop :=
  ∃ k e : ℤ, x = k * 2 ^ e ∧ k.natAbs < 2 ^ 53 ∧ -1074 ≤ e ∧ e ≤ 971

theorem representable_intCast {k : ℤ} (hk : k.natAbs < 2 ^ 53) : Representable k :=
  ⟨k, 0, by simp, hk, by decide, by decide⟩

theorem two_zpow_toNat {d e : Int} (h : d ≤ e) : (2 : ℚ) ^ (e - d).toNat * 2 ^ d = 2 ^ e := by
  rw [← zpow_natCast, ← zpow_add₀ two_ne_zero, Int.toNat_of_nonneg (by omega), Int.sub_add_cancel]

/-- The same magnitude under a smaller exponent has zeros at the end of its significand. -/
theorem eq_mul_two_pow {m n : Nat} {d e : Int} (h : (m : ℚ) * 2 ^ d = n * 2 ^ e) (hde : d ≤ e) :
    m = n * 2 ^ (e - d).toNat := by
  rw [← two_zpow_toNat hde, ← mul_assoc] at h
  exact_mod_cast mul_right_cancel₀ (two_zpow_pos d).ne' h

theorem log2_mul_two_pow {n : Nat} (hn : n ≠ 0) (s : Nat) : (n * 2 ^ s).log2 = n.log2 + s := by
  induction s with
  | zero => simp
  | succ s ih =>
    have hne : n * 2 ^ s ≠ 0 := by positivity
    rw [pow_succ, ← mul_assoc, mul_comm _ 2, Nat.log2_two_mul hne, ih, Nat.add_assoc]

theorem totalExponent_shifted {n : Nat} (hn : n ≠ 0) (s : Nat) (e : Int) :
    totalExponent (n * 2 ^ s) (e - s) = totalExponent n e := by
  unfold totalExponent
  rw [log2_mul_two_pow hn]
  omega

/-- Zeros behind a significand that is short enough are cut off again. -/
theorem roundWithAccuracy_short (sign : Sign) {n : Nat} (hn : 0 < n) {e : Int}
    (he : Format.binary64.targetExponent (totalExponent n e) = e) (s : Nat) :
    roundWithAccuracy Format.binary64 sign (n * 2 ^ s) (e - s) .exact = .finite sign n e hn := by
  have hshift (s : Nat) : shiftToTargetExponent Format.binary64 (n * 2 ^ s) (e - s) .exact =
      (⟨n, false, false⟩, e) := by
    have hamount : (e - (e - s)).toNat = s := by omega
    have hexponent : e - s + (s : Int) = e := by omega
    simp only [shiftToTargetExponent, totalExponent_shifted hn.ne', he, shiftToExponent, hamount,
      hexponent, ExtendedMantissa.ofMantissaAndAccuracy, shiftRight_shifted]
  have hagain := hshift 0
  rw [pow_zero, mul_one, Nat.cast_zero, sub_zero] at hagain
  simp only [roundWithAccuracy, hshift, ExtendedMantissa.roundedMantissa,
    ExtendedMantissa.accuracy, Accuracy.roundToNearestEven, hagain]
  rw [dif_neg hn.ne']

/-- A magnitude under its own exponent is what it is rounded to. -/
theorem round_eq_finite (sign : Sign) {m n : Nat} (hn : 0 < n) {d e : Int}
    (he : Format.binary64.targetExponent (totalExponent n e) = e)
    (h : (m : ℚ) * 2 ^ d = n * 2 ^ e) :
    UnpackedFloat.round Format.binary64 sign m d = .finite sign n e hn := by
  rcases Int.le_total d e with hle | hle
  · obtain rfl : m = n * 2 ^ (e - d).toNat := eq_mul_two_pow h hle
    obtain ⟨s, rfl⟩ : ∃ s : Nat, d = e - s := ⟨(e - d).toNat, by omega⟩
    have hnone : (e - s - e).toNat = 0 := by omega
    have hamount : (e - (e - s)).toNat = s := by omega
    simp only [hamount, UnpackedFloat.round, totalExponent_shifted hn.ne', he, decreaseExponent,
      hnone, Nat.shiftLeft_zero, Nat.cast_zero, sub_zero]
    exact roundWithAccuracy_short sign hn he s
  · have hm := eq_mul_two_pow h.symm hle
    obtain ⟨s, rfl⟩ : ∃ s : Nat, d = e + s := ⟨(d - e).toNat, by omega⟩
    have hamount : (e + s - e).toNat = s := by omega
    have hexponent : e + s - (s : Int) = e := by omega
    rw [hamount] at hm
    subst hm
    have htarget : Format.binary64.targetExponent (totalExponent m (e + s)) = e := by
      rw [← totalExponent_shifted (n := m) (by rintro rfl; simp at hn) s, hexponent]
      exact he
    have hround := roundWithAccuracy_short sign hn he 0
    rw [pow_zero, mul_one, Nat.cast_zero, sub_zero] at hround
    simp only [UnpackedFloat.round, htarget, decreaseExponent, hamount, hexponent,
      Nat.shiftLeft_eq]
    exact hround

/-- Every magnitude of at most 53 bits has a canonical form. -/
theorem exists_canonical {k : Nat} (hk : 0 < k) (hbits : k < 2 ^ 53) {d : Int} (hlow : -1074 ≤ d)
    (hhigh : d ≤ 971) :
    ∃ (n : Nat) (e : Int) (hn : 0 < n), (k : ℚ) * 2 ^ d = n * 2 ^ e ∧
      Format.binary64.targetExponent (totalExponent n e) = e ∧
      ∀ sign, Canonical (.finite sign n e hn) := by
  have hlog := log2_le_of_lt hbits
  obtain ⟨e, he⟩ : ∃ e : Int, e = max (k.log2 + d - 52) (-1074) := ⟨_, rfl⟩
  obtain ⟨s, hs⟩ : ∃ s : Nat, d = e + s := ⟨(d - e).toNat, by omega⟩
  have hpos : 0 < k * 2 ^ s := by positivity
  have hlog' : (k * 2 ^ s).log2 = k.log2 + s := log2_mul_two_pow hk.ne' s
  refine ⟨k * 2 ^ s, e, hpos, ?_, ?_, fun sign => ⟨?_, by omega, by omega, ?_⟩⟩
  · rw [hs, zpow_add₀ two_ne_zero, zpow_natCast]
    push_cast
    ring
  · simp only [Format.targetExponent, totalExponent, hlog', Format.mantissaBits,
      Format.minExponent]
    omega
  · exact (Nat.log2_lt hpos.ne').1 (by omega)
  · by_cases hleast : e = -1074
    · exact .inr hleast
    · exact .inl ((Nat.le_log2 hpos.ne').1 (by omega))

/-- A representable magnitude is rounded to itself. -/
theorem fraction?_round (sign : Sign) {m : Nat} (hm : 0 < m) {d : Int}
    (h : Representable (((sign.apply m : ℤ) : ℚ) * 2 ^ d)) :
    Canonical (UnpackedFloat.round Format.binary64 sign m d) ∧
      fraction? (UnpackedFloat.round Format.binary64 sign m d) =
        some (((sign.apply m : ℤ) : ℚ) * 2 ^ d) := by
  obtain ⟨k, c, hk, hbits, hlow, hhigh⟩ := h
  have hmagnitude : (m : ℚ) * 2 ^ d = k.natAbs * 2 ^ c := by
    have habs : |((sign.apply m : ℤ) : ℚ) * 2 ^ d| = |(k : ℚ) * 2 ^ c| := by rw [hk]
    rw [abs_fraction, abs_mul, abs_of_pos (two_zpow_pos c)] at habs
    rw [habs, Nat.cast_natAbs, Int.cast_abs]
  have hpos : 0 < k.natAbs := by
    rcases Nat.eq_zero_or_pos k.natAbs with hzero | hpos
    · rw [hzero, Nat.cast_zero, zero_mul] at hmagnitude
      exact absurd hmagnitude (mul_pos (Nat.cast_pos.2 hm) (two_zpow_pos d)).ne'
    · exact hpos
  obtain ⟨n, e, hn, hform, htarget, hcanonical⟩ := exists_canonical hpos hbits hlow hhigh
  rw [round_eq_finite sign hn htarget (hmagnitude.trans hform)]
  refine ⟨hcanonical sign, congrArg some ?_⟩
  have hequal := hmagnitude.trans hform
  cases sign with
  | positive => simpa [Sign.apply] using hequal.symm
  | negative => simpa [Sign.apply] using hequal.symm

/-- Normalizing a representable fraction loses nothing. -/
theorem fraction?_normalize {k d : Int} (zeroSign : Sign) (h : Representable ((k : ℚ) * 2 ^ d)) :
    Canonical (UnpackedFloat.normalize Format.binary64 k d zeroSign) ∧
      fraction? (UnpackedFloat.normalize Format.binary64 k d zeroSign) =
        some ((k : ℚ) * 2 ^ d) := by
  rcases Int.lt_trichotomy k 0 with hk | rfl | hk
  · have happly : Sign.apply .negative (-k).toNat = k := by
      simp only [Sign.apply]
      omega
    rw [← happly] at h
    have hround := fraction?_round .negative (by omega) h
    rw [happly] at hround
    simpa only [UnpackedFloat.normalize, Int.compare_eq_lt.2 hk] using hround
  · rw [Int.cast_zero, zero_mul]
    exact ⟨trivial, rfl⟩
  · have happly : Sign.apply .positive k.toNat = k := by
      simp only [Sign.apply]
      omega
    rw [← happly] at h
    have hround := fraction?_round .positive (by omega) h
    rw [happly] at hround
    simpa only [UnpackedFloat.normalize, Int.compare_eq_gt.2 hk] using hround

/-! ## Exact sums and differences -/

theorem apply_neg (sign : Sign) (k : ℤ) : (-sign).apply k = -sign.apply k := by
  cases sign with
  | positive => rfl
  | negative => exact (Int.neg_neg k).symm

theorem fraction?_neg (f : UnpackedFloat) : fraction? f.neg = (fraction? f).map (-·) := by
  cases f with
  | notANumber | infinity sign => rfl
  | zero sign => simp [UnpackedFloat.neg, fraction?]
  | finite sign m e hpos => simp [UnpackedFloat.neg, fraction?, apply_neg]

theorem sub_eq_add (f g : UnpackedFloat) :
    UnpackedFloat.sub Format.binary64 f g = UnpackedFloat.add Format.binary64 f g.neg := by
  cases f <;> cases g <;>
    simp [UnpackedFloat.sub, UnpackedFloat.add, UnpackedFloat.neg, apply_neg, Int.sub_eq_add_neg]

/-- Decreasing an exponent keeps the fraction. -/
theorem apply_shiftLeft (sign : Sign) (m : Nat) {d e : Int} (h : d ≤ e) :
    ((sign.apply (m <<< (e - d).toNat : Nat) : ℤ) : ℚ) * 2 ^ d = (sign.apply m : ℤ) * 2 ^ e := by
  rw [← two_zpow_toNat h, Nat.shiftLeft_eq]
  cases sign <;>
  · simp only [Sign.apply]
    push_cast
    ring

/-- The sum of two floats is exact if it is representable. -/
theorem fraction?_add {f g : UnpackedFloat} (hf : Canonical f) (hg : Canonical g) {x y : ℚ}
    (hx : fraction? f = some x) (hy : fraction? g = some y) (h : Representable (x + y)) :
    Canonical (UnpackedFloat.add Format.binary64 f g) ∧
      fraction? (UnpackedFloat.add Format.binary64 f g) = some (x + y) := by
  cases f with
  | notANumber | infinity s => simp [fraction?] at hx
  | zero s =>
    obtain rfl := Option.some.inj hx
    rw [zero_add]
    cases g with
    | notANumber | infinity t => simp [fraction?] at hy
    | zero t => cases s <;> cases t <;> exact ⟨trivial, hy⟩
    | finite t n e hn => exact ⟨hg, hy⟩
  | finite s m d hm =>
    cases g with
    | notANumber | infinity t => simp [fraction?] at hy
    | zero t =>
      obtain rfl := Option.some.inj hy
      rw [add_zero]
      exact ⟨hf, hx⟩
    | finite t n e hn =>
      obtain rfl := Option.some.inj hx
      obtain rfl := Option.some.inj hy
      have hsum : ((s.apply (m <<< (d - min d e).toNat : Nat) +
          t.apply (n <<< (e - min d e).toNat : Nat) : ℤ) : ℚ) * 2 ^ min d e =
            (s.apply m : ℤ) * 2 ^ d + (t.apply n : ℤ) * 2 ^ e := by
        rw [Int.cast_add, add_mul, apply_shiftLeft s m (Int.min_le_left d e),
          apply_shiftLeft t n (Int.min_le_right d e)]
      rw [← hsum] at h ⊢
      exact fraction?_normalize .positive h

section Operations

variable {v w : Float} {x y : ℚ}

theorem ratio?_neg (hx : ratio? v = some x) : ratio? (-v) = some (-x) := by
  unfold ratio? at *
  rw [unpack_neg, fraction?_neg, hx]
  rfl

theorem ratio?_add (hx : ratio? v = some x) (hy : ratio? w = some y) (h : Representable (x + y)) :
    ratio? (v + w) = some (x + y) := by
  obtain ⟨hcanonical, hsum⟩ :=
    fraction?_add (canonical_unpack v) (canonical_unpack w) hx hy h
  exact (ratio?_ofModel hcanonical).trans hsum

/-- The difference of two doubles is exact if it is representable. -/
theorem ratio?_sub (hx : ratio? v = some x) (hy : ratio? w = some y) (h : Representable (x - y)) :
    ratio? (v - w) = some (x - y) := by
  have hcanonical : Canonical w.toModel.unpack.neg := by
    rw [← unpack_neg]
    exact canonical_unpack (-w)
  have hneg : fraction? w.toModel.unpack.neg = some (-y) := by
    rw [← unpack_neg]
    exact ratio?_neg hy
  rw [sub_eq_add_neg] at h ⊢
  obtain ⟨hsub, hdifference⟩ := fraction?_add (canonical_unpack v) hcanonical hx hneg h
  rw [← sub_eq_add] at hsub hdifference
  exact (ratio?_ofModel hsub).trans hdifference

theorem ratio?_abs (hx : ratio? v = some x) : ratio? v.abs = some |x| := by
  have hpack (h : Canonical v.toModel.unpack.abs) : ratio? v.abs = fraction? v.toModel.unpack.abs :=
    ratio?_ofModel h
  obtain ⟨s, hu, rfl⟩ | ⟨s, m, e, hm, hu, rfl, hcanonical⟩ := cases_of_ratio? hx
  · rw [hu] at hpack
    rw [hpack trivial, abs_zero]
    rfl
  · rw [hu] at hpack
    rw [hpack hcanonical, abs_fraction]
    rfl

/-- A small whole number is the double of it. -/
theorem ratio?_of_is {k : ℤ} (hv : Is v k) (hk : k.natAbs < 2 ^ 53) : ratio? v = some (k : ℚ) := by
  obtain ⟨sign, hu, hneg, hpos⟩ := hv
  unfold ratio?
  rw [hu, wholeParts]
  split_ifs with hzero
  · rw [Int.natAbs_eq_zero.1 hzero]
    rfl
  · have hlog : k.natAbs.log2 ≤ 52 := log2_le_of_lt hk
    have hmagnitude : ((k.natAbs * 2 ^ (52 - k.natAbs.log2) : Nat) : ℚ) *
        2 ^ ((k.natAbs.log2 : ℤ) - 52) = k.natAbs := by
      have hzeros := two_zpow_toNat (d := (k.natAbs.log2 : ℤ) - 52) (e := 0) (by omega)
      rw [show (0 - ((k.natAbs.log2 : ℤ) - 52)).toNat = 52 - k.natAbs.log2 by omega,
        zpow_zero] at hzeros
      push_cast
      rw [mul_assoc, hzeros, mul_one]
    have hsign : sign.apply k.natAbs = k := by
      rcases Int.lt_or_gt_of_ne (fun h : k = 0 => hzero (Int.natAbs_eq_zero.2 h)) with h | h
      · rw [hneg h, Sign.apply]
        omega
      · rw [hpos h, Sign.apply]
        omega
    refine congrArg some ?_
    cases sign with
    | positive =>
      simp only [Sign.apply] at hsign ⊢
      rw [Int.cast_natCast, hmagnitude, ← Int.cast_natCast, hsign]
    | negative =>
      simp only [Sign.apply] at hsign ⊢
      rw [Int.cast_neg, Int.cast_natCast, neg_mul, hmagnitude, ← Int.cast_natCast, ← Int.cast_neg,
        hsign]

theorem ratio?_ofInt {k : ℤ} (hk : k.natAbs < 2 ^ 53) : ratio? (ofInt k) = some (k : ℚ) :=
  ratio?_of_is (is_ofInt hk) hk

end Operations

end Formulary.Double
