import Formulary.Double
import Formulary.Proofs.Double.Whole

/-!
# The sign of a double

A double is stored as a sign, an exponent and a significand, and its sign can be changed without
looking at the other two. So negation passes through packing (`neg_pack`), it is undone by a second
negation, and it passes through a quotient. What is not a number has no sign in this model: there is
a single such double, negation leaves it alone, and every operation on it gives it back.

`Unsigned` says that a double does not carry the negative sign. Doubles of words without a sign are
unsigned, so are their products and quotients, and with them the doubles of decimals. An unsigned
double is not below zero.
-/

namespace Formulary.Double

open Float.Model Float.Model.UnpackedFloat

/-! ## The fields of a double -/

/-- The float with these fields. -/
def ofFields (sign : Sign) (e : BitVec 11) (m : BitVec 52) : UnpackedFloat :=
  UnpackedFloat.unpack Format.binary64 (packComponents Format.binary64 sign e m)

/-- The fields are those of what is not a number. -/
def Undefined (e : BitVec 11) (m : BitVec 52) : Prop := e = -1#11 ∧ m ≠ 0#52

theorem ofBitVec_toBitVec (sign : Sign) : Sign.ofBitVec sign.toBitVec = sign := by
  cases sign <;> rfl

theorem toNat_implicit (m : BitVec 52) : (1#1 ++ m).toNat = 2 ^ 52 + m.toNat := by
  have hor := Nat.or_two_pow_eq_add_of_lt m.isLt
  rw [BitVec.toNat_append, Nat.or_comm]
  change m.toNat ||| 2 ^ 52 = _
  omega

theorem ofFields_eq (sign : Sign) (e : BitVec 11) (m : BitVec 52) :
    ofFields sign e m =
      if e = -1#11 then if m = 0#52 then .infinity sign else .notANumber
      else if e = 0#11 then
        if h : m = 0#52 then .zero sign
        else .finite sign m.toNat (e.toNat - 1075 + 1)
          (by simpa [BitVec.toNat_pos, BitVec.pos_iff_ne_zero])
      else .finite sign (1#1 ++ m).toNat (e.toNat - 1075) (by rw [toNat_implicit]; omega) := by
  simp only [ofFields, UnpackedFloat.unpack, unpackMantissa_packComponents,
    unpackExponent_packComponents, unpackSign_packComponents, ofBitVec_toBitVec]
  rfl

theorem neg_ofFields (sign : Sign) (e : BitVec 11) (m : BitVec 52) :
    (ofFields sign e m).neg = ofFields (-sign) e m := by
  rw [ofFields_eq, ofFields_eq]
  split_ifs <;> rfl

theorem ofFields_undefined {sign : Sign} {e : BitVec 11} {m : BitVec 52} (h : Undefined e m) :
    ofFields sign e m = .notANumber := by
  rw [ofFields_eq, if_pos h.1, if_neg h.2]

/-- Packing a float gives its fields back. -/
theorem pack_ofFields {sign : Sign} {e : BitVec 11} {m : BitVec 52} (h : ¬Undefined e m) :
    UnpackedFloat.pack Format.binary64 (ofFields sign e m) =
      packComponents Format.binary64 sign e m := by
  have he := e.isLt
  have hm := m.isLt
  rw [ofFields_eq]
  split_ifs with hfull hzero hsmall hempty
  · subst hfull hzero
    rfl
  · exact absurd ⟨hfull, hzero⟩ h
  · subst hsmall hempty
    rfl
  · -- a subnormal double has fewer bits than a significand
    subst hsmall
    have hpos : m.toNat ≠ 0 := by simpa [BitVec.toNat_eq] using hempty
    have hlog : m.toNat.log2 < 52 := (Nat.log2_lt hpos).2 hm
    have hbits : ¬m.toNat.log2 + 1 = Format.binary64.mantissaBits := by
      change ¬m.toNat.log2 + 1 = 53
      omega
    simp only [UnpackedFloat.pack, if_neg hbits]
    rw [if_neg (by decide), BitVec.ofNat_toNat, BitVec.setWidth_eq]
  · have hlog : (1#1 ++ m).toNat.log2 = 52 := by
      rw [toNat_implicit]
      exact (Nat.log2_eq_iff (by omega)).2 ⟨by omega, by omega⟩
    have hbits : (1#1 ++ m).toNat.log2 + 1 = Format.binary64.mantissaBits := by
      rw [hlog]
      rfl
    have hexponent : ((e.toNat : Int) - 1075 + (Format.binary64.exponentBias : Nat) +
        (Format.binary64.mantissaBitsWithoutImplicit : Nat)).toNat = e.toNat := by
      change ((e.toNat : Int) - 1075 + 1023 + 52).toNat = e.toNat
      omega
    have hnotfull : e.toNat ≠ 2047 := fun hfull' => hfull (BitVec.eq_of_toNat_eq hfull')
    simp only [UnpackedFloat.pack, hexponent, if_pos hbits]
    rw [if_neg (by omega)]
    congr 1
    · rw [BitVec.ofNat_toNat, BitVec.setWidth_eq]
    · refine BitVec.eq_of_toNat_eq ?_
      rw [BitVec.toNat_ofNat, toNat_implicit]
      omega

/-- A double is what its fields say. -/
theorem exists_fields (b : BitVec Format.binary64.numBits) :
    ∃ sign e m, b = packComponents Format.binary64 sign e m := by
  refine ⟨Sign.ofBitVec (unpackSign b), unpackExponent b, unpackMantissa b, ?_⟩
  have hsign (v : BitVec 1) : (Sign.ofBitVec v).toBitVec = v := by
    revert v
    decide
  simp only [packComponents, hsign, unpackSign, unpackExponent, unpackMantissa, BitVec.extractLsb]
  ext i hi
  grind

/-- The sign of a float, unless it is not a number. -/
def sign? : UnpackedFloat → Option Sign
  | .notANumber => none
  | .infinity sign | .zero sign | .finite sign _ _ _ => some sign

theorem sign?_ofFields {sign : Sign} {e : BitVec 11} {m : BitVec 52} (h : ¬Undefined e m) :
    sign? (ofFields sign e m) = some sign := by
  rw [ofFields_eq]
  split_ifs with hfull hzero
  · rfl
  · exact absurd ⟨hfull, hzero⟩ h
  all_goals rfl

/-- A float with a sign is packed into fields with that sign, and so is its negation. -/
theorem pack_of_sign? {f : UnpackedFloat} {sign : Sign} (h : sign? f = some sign) :
    ∃ e m, ¬Undefined e m ∧
      UnpackedFloat.pack Format.binary64 f = packComponents Format.binary64 sign e m ∧
      UnpackedFloat.pack Format.binary64 f.neg = packComponents Format.binary64 (-sign) e m := by
  cases f with
  | notANumber => cases h
  | infinity sign =>
    cases h
    exact ⟨-1#11, 0#52, fun h => h.2 rfl, rfl, rfl⟩
  | zero sign =>
    cases h
    exact ⟨0#11, 0#52, fun h => h.2 rfl, rfl, rfl⟩
  | finite sign m e hpos =>
    cases h
    simp only [UnpackedFloat.neg, UnpackedFloat.pack]
    split_ifs with hlarge hnormal
    · exact ⟨-1#11, 0#52, fun h => h.2 rfl, rfl, rfl⟩
    · refine ⟨_, _, fun h => ?_, rfl, rfl⟩
      have hexponent := congrArg BitVec.toNat h.1
      rw [BitVec.toNat_ofNat, Nat.mod_eq_of_lt (by omega)] at hexponent
      change _ = 2047 at hexponent
      omega
    · exact ⟨0#11, _, fun h => absurd h.1 (by decide), rfl, rfl⟩

/-- Packing keeps the sign. -/
theorem sign?_pack (f : UnpackedFloat) : sign? (Float.Model.pack f).unpack = sign? f := by
  cases h : sign? f with
  | none =>
    cases f with
    | notANumber => rfl
    | _ => cases h
  | some sign =>
    obtain ⟨e, m, hdefined, hpack, -⟩ := pack_of_sign? h
    change sign? (UnpackedFloat.unpack Format.binary64 (UnpackedFloat.pack Format.binary64 f)) = _
    rw [hpack]
    exact sign?_ofFields hdefined

/-! ## Negation -/

/-- Negation passes through packing. -/
theorem neg_pack (f : UnpackedFloat) :
    -Float.ofModel (.pack f) = Float.ofModel (.pack f.neg) := by
  cases h : sign? f with
  | none =>
    cases f with
    | notANumber => rfl
    | _ => cases h
  | some sign =>
    obtain ⟨e, m, hdefined, hpack, hneg⟩ := pack_of_sign? h
    have hmiddle : UnpackedFloat.unpack Format.binary64 (UnpackedFloat.pack Format.binary64 f) =
        ofFields sign e m := by rw [hpack, ofFields]
    have hboth : UnpackedFloat.pack Format.binary64
        (UnpackedFloat.unpack Format.binary64 (UnpackedFloat.pack Format.binary64 f)).neg =
          UnpackedFloat.pack Format.binary64 f.neg := by
      rw [hmiddle, neg_ofFields, pack_ofFields hdefined, hneg]
    change Float.ofModel ⟨UInt64.ofBitVec _, _⟩ = Float.ofModel ⟨UInt64.ofBitVec _, _⟩
    congr 3

/-- Packing gives a double back: what is not a number has a single pattern of bits. -/
theorem pack_unpack (v : Float) : Float.ofModel (.pack v.toModel.unpack) = v := by
  obtain ⟨⟨bits, hvalid⟩⟩ := v
  have hbits : UnpackedFloat.pack Format.binary64
      (UnpackedFloat.unpack Format.binary64 bits.toBitVec) = bits.toBitVec := by
    obtain ⟨sign, e, m, hfields⟩ := exists_fields bits.toBitVec
    have hunpack : UnpackedFloat.unpack Format.binary64 bits.toBitVec = ofFields sign e m := by
      rw [hfields, ofFields]
    rw [hunpack]
    by_cases h : Undefined e m
    · have hnan := hvalid.eq_packedNaN
      rw [hfields, unpackExponent_packComponents, unpackMantissa_packComponents] at hnan
      rw [hfields, ofFields_undefined h, hnan h.1 h.2]
      rfl
    · rw [pack_ofFields h, hfields]
  exact congrArg Float.ofModel (by simp only [Float.Model.pack, Float.Model.unpack, hbits])

/-- Negating twice gives the same double, the one that is no number included. -/
theorem neg_neg (v : Float) : - -v = v := by
  have hneg (f : UnpackedFloat) : f.neg.neg = f := by
    cases f with
    | notANumber => rfl
    | infinity sign | zero sign | finite sign => cases sign <;> rfl
  rw [← pack_unpack v, neg_pack, neg_pack, hneg]

theorem unpack_neg (v : Float) : (-v).toModel.unpack = v.toModel.unpack.neg := by
  obtain ⟨⟨bits, hvalid⟩⟩ := v
  obtain ⟨sign, e, m, hfields⟩ := exists_fields bits.toBitVec
  have hunpack : UnpackedFloat.unpack Format.binary64 bits.toBitVec = ofFields sign e m := by
    rw [hfields, ofFields]
  change UnpackedFloat.unpack Format.binary64 (UnpackedFloat.pack Format.binary64
    (UnpackedFloat.unpack Format.binary64 bits.toBitVec).neg) =
      (UnpackedFloat.unpack Format.binary64 bits.toBitVec).neg
  rw [hunpack]
  by_cases h : Undefined e m
  · rw [ofFields_undefined h]
    rfl
  · rw [neg_ofFields, pack_ofFields h, ofFields]

/-- A sign passes through rounding. -/
theorem neg_roundWithAccuracy (sign : Sign) (m : Nat) (e : Int) (accuracy : Accuracy) :
    (roundWithAccuracy Format.binary64 sign m e accuracy).neg =
      roundWithAccuracy Format.binary64 (-sign) m e accuracy := by
  simp only [roundWithAccuracy]
  split_ifs <;> rfl

/-- Negation passes through a quotient. -/
theorem neg_div (v w : Float) : -v / w = -(v / w) := by
  have hdiv (f g : UnpackedFloat) : UnpackedFloat.div Format.binary64 f.neg g =
      (UnpackedFloat.div Format.binary64 f g).neg := by
    have hsign (s t : Sign) : -s / t = -(s / t) := by cases s <;> cases t <;> rfl
    cases f with
    | finite s m e hpos =>
      cases g with
      | finite t n k hpos' =>
        simp only [UnpackedFloat.div, neg_roundWithAccuracy]
        exact congrArg (roundWithAccuracy _ · _ _ _) (hsign s t)
      | _ => simp only [UnpackedFloat.div, UnpackedFloat.neg, hsign]
    | _ => cases g <;> simp only [UnpackedFloat.div, UnpackedFloat.neg, hsign]
  change Float.ofModel (.pack (UnpackedFloat.div _ (-v).toModel.unpack w.toModel.unpack)) =
    -Float.ofModel (.pack (UnpackedFloat.div _ v.toModel.unpack w.toModel.unpack))
  rw [neg_pack, unpack_neg, hdiv]

/-! ## What is not a number -/

section

variable {v w : Float}

theorem add_nan (h : v = nan ∨ w = nan) : v + w = nan := by
  obtain rfl | rfl := h
  · rfl
  · change Float.ofModel (.pack (UnpackedFloat.add _ v.toModel.unpack .notANumber)) = nan
    cases v.toModel.unpack <;> rfl

theorem sub_nan (h : v = nan ∨ w = nan) : v - w = nan := by
  obtain rfl | rfl := h
  · rfl
  · change Float.ofModel (.pack (UnpackedFloat.sub _ v.toModel.unpack .notANumber)) = nan
    cases v.toModel.unpack <;> rfl

theorem mul_nan (h : v = nan ∨ w = nan) : v * w = nan := by
  obtain rfl | rfl := h
  · rfl
  · change Float.ofModel (.pack (UnpackedFloat.mul _ v.toModel.unpack .notANumber)) = nan
    cases v.toModel.unpack <;> rfl

theorem div_nan (h : v = nan ∨ w = nan) : v / w = nan := by
  obtain rfl | rfl := h
  · rfl
  · change Float.ofModel (.pack (UnpackedFloat.div _ v.toModel.unpack .notANumber)) = nan
    cases v.toModel.unpack <;> rfl

end

/-! ## Doubles without a sign -/

/-- The double does not carry the negative sign. -/
def Unsigned (v : Float) : Prop := sign? v.toModel.unpack ≠ some .negative

theorem unsigned_ofWord (w : UInt64) : Unsigned w.toFloat := by
  change sign? (Float.Model.pack (UnpackedFloat.ofUInt64 Format.binary64 w)).unpack ≠ _
  rw [sign?_pack]
  simp only [UnpackedFloat.ofUInt64, UnpackedFloat.ofNat, UnpackedFloat.ofInt,
    UnpackedFloat.normalize]
  split
  · rename_i hlt
    exact absurd (Int.compare_eq_lt.1 hlt) (by omega)
  · simp [sign?]
  · simp only [UnpackedFloat.round, roundWithAccuracy]
    split_ifs <;> simp [sign?]

theorem sign?_roundWithAccuracy (sign : Sign) (m : Nat) (e : Int) (accuracy : Accuracy) :
    sign? (roundWithAccuracy Format.binary64 sign m e accuracy) = some sign := by
  simp only [roundWithAccuracy]
  split_ifs <;> rfl

/-- A quotient that is a number has the sign of its operands put together. -/
theorem sign?_div {f g : UnpackedFloat} {sign : Sign}
    (h : sign? (UnpackedFloat.div Format.binary64 f g) = some sign) :
    ∃ s t, sign? f = some s ∧ sign? g = some t ∧ sign = s / t := by
  cases f with
  | notANumber => simp [UnpackedFloat.div, sign?] at h
  | infinity s =>
    cases g with
    | notANumber | infinity t => simp [UnpackedFloat.div, sign?] at h
    | zero t | finite t => exact ⟨s, t, rfl, rfl, (Option.some.inj h).symm⟩
  | zero s =>
    cases g with
    | notANumber | zero t => simp [UnpackedFloat.div, sign?] at h
    | infinity t | finite t => exact ⟨s, t, rfl, rfl, (Option.some.inj h).symm⟩
  | finite s m e hpos =>
    cases g with
    | notANumber => simp [UnpackedFloat.div, sign?] at h
    | infinity t | zero t => exact ⟨s, t, rfl, rfl, (Option.some.inj h).symm⟩
    | finite t n k hpos' =>
      simp only [UnpackedFloat.div] at h
      rw [sign?_roundWithAccuracy] at h
      exact ⟨s, t, rfl, rfl, (Option.some.inj h).symm⟩

theorem unsigned_div {v w : Float} (hv : Unsigned v) (hw : Unsigned w) : Unsigned (v / w) := by
  intro h
  change sign? (Float.Model.pack (UnpackedFloat.div Format.binary64 v.toModel.unpack
    w.toModel.unpack)).unpack = _ at h
  rw [sign?_pack] at h
  obtain ⟨s, t, hs, ht, hsign⟩ := sign?_div h
  cases s with
  | negative => exact hv hs
  | positive =>
    cases t with
    | negative => exact hw ht
    | positive => cases hsign

/-- A product that is a number has the sign of its operands put together. -/
theorem sign?_mul {f g : UnpackedFloat} {sign : Sign}
    (h : sign? (UnpackedFloat.mul Format.binary64 f g) = some sign) :
    ∃ s t, sign? f = some s ∧ sign? g = some t ∧ sign = s * t := by
  cases f with
  | notANumber => simp [UnpackedFloat.mul, sign?] at h
  | infinity s =>
    cases g with
    | notANumber | zero t => simp [UnpackedFloat.mul, sign?] at h
    | infinity t | finite t => exact ⟨s, t, rfl, rfl, (Option.some.inj h).symm⟩
  | zero s =>
    cases g with
    | notANumber | infinity t => simp [UnpackedFloat.mul, sign?] at h
    | zero t | finite t => exact ⟨s, t, rfl, rfl, (Option.some.inj h).symm⟩
  | finite s m e hpos =>
    cases g with
    | notANumber => simp [UnpackedFloat.mul, sign?] at h
    | infinity t | zero t => exact ⟨s, t, rfl, rfl, (Option.some.inj h).symm⟩
    | finite t n k hpos' =>
      simp only [UnpackedFloat.mul] at h
      rw [sign?_roundWithAccuracy] at h
      exact ⟨s, t, rfl, rfl, (Option.some.inj h).symm⟩

theorem unsigned_mul {v w : Float} (hv : Unsigned v) (hw : Unsigned w) : Unsigned (v * w) := by
  intro h
  change sign? (Float.Model.pack (UnpackedFloat.mul Format.binary64 v.toModel.unpack
    w.toModel.unpack)).unpack = _ at h
  rw [sign?_pack] at h
  obtain ⟨s, t, hs, ht, hsign⟩ := sign?_mul h
  cases s with
  | negative => exact hv hs
  | positive =>
    cases t with
    | negative => exact hw ht
    | positive => cases hsign

/-! ## Powers of ten -/

theorem unsigned_powerOfTen {e : Nat} (h : e < Float.exactlyRepresentablePowersOfTen.size) :
    Unsigned Float.exactlyRepresentablePowersOfTen[e] := by
  have hall : ∀ v ∈ Float.exactlyRepresentablePowersOfTen.toList,
      (sign? v.toModel.unpack).any (·.toBitVec == 1#1) = false := by
    decide +kernel
  intro hneg
  have hsign := hall _ (Array.getElem_mem_toList h)
  rw [hneg] at hsign
  cases hsign

/-- What is read from digits is positive, by every path of the conversion. -/
theorem sign?_ofScientific (m : Nat) (e : Int) :
    sign? (UnpackedFloat.ofScientific Format.binary64 m e) = some .positive := by
  unfold UnpackedFloat.ofScientific
  split_ifs
  · rfl
  · rfl
  · rfl
  · rw [UnpackedFloat.mul]
    exact sign?_roundWithAccuracy _ _ _ _
  · rw [UnpackedFloat.div]
    exact sign?_roundWithAccuracy _ _ _ _

theorem unsigned_ofScientific (m : Nat) (s : Bool) (e : Nat) :
    Unsigned (Float.ofScientific m s e) := by
  rw [Float.ofScientific]
  split
  · dsimp only
    split
    · exact unsigned_div (unsigned_ofWord _) (unsigned_powerOfTen _)
    · exact unsigned_mul (unsigned_ofWord _) (unsigned_powerOfTen _)
  · intro h
    change sign? (Float.Model.pack _).unpack = _ at h
    rw [sign?_pack, sign?_ofScientific] at h
    cases h

/-! ## Comparisons -/

theorem lt_zero_iff {v : Float} :
    v < 0 ↔ v.toModel.unpack.compare (.zero .positive) = some .lt := by
  have hdef : v < 0 ↔ (v.toModel.unpack.compare (.zero .positive) == some .lt) = true :=
    ⟨of_decide_eq_true, decide_eq_true⟩
  rw [hdef, beq_iff_eq]

theorem sign?_of_lt_zero {v : Float} (h : v < 0) : sign? v.toModel.unpack = some .negative := by
  rw [lt_zero_iff] at h
  cases hu : v.toModel.unpack with
  | notANumber => simp [hu, UnpackedFloat.compare] at h
  | zero sign => simp [hu, UnpackedFloat.compare] at h
  | infinity sign | finite sign => cases sign <;> simp_all [UnpackedFloat.compare, sign?]

theorem not_lt_zero {v : Float} (h : Unsigned v) : ¬v < 0 := fun hlt => h (sign?_of_lt_zero hlt)

theorem unsigned_neg {v : Float} (h : v < 0) : Unsigned (-v) := by
  have hsign := sign?_of_lt_zero h
  unfold Unsigned
  rw [unpack_neg]
  cases hu : v.toModel.unpack <;> simp_all [UnpackedFloat.neg, sign?]

/-! ## Integers -/

theorem ofInt_neg {k : Int} (hk : k ≠ 0) : ofInt (-k) = -ofInt k := by
  unfold ofInt
  rw [Int.natAbs_neg]
  rcases Int.lt_or_gt_of_ne hk with hneg | hpos
  · rw [if_neg (by omega), if_pos hneg, neg_neg]
  · rw [if_pos (by omega), if_neg (by omega)]

theorem unsigned_ofInt {k : Int} (hk : 0 ≤ k) : Unsigned (ofInt k) := by
  unfold ofInt
  rw [if_neg (by omega)]
  exact unsigned_ofWord _

end Formulary.Double
