import Formulary.Proofs.Double.Quotient
import Formulary.Proofs.Number.Sign

/-!
# The doubles of fractions

The double of a fraction of 64-bit words is a number, and has the sign of the fraction. It is made
exact again only if the fraction is an integer below the bound up to which whole doubles are.
-/

namespace Formulary

namespace Double

open Float.Model Float.Model.UnpackedFloat

variable {v w : Float}

theorem isNaN_of_is {k : Int} (hv : Is v k) : v.isNaN = false := by
  obtain ⟨sign, hparts, -⟩ := hv
  change v.toModel.unpack.isNaN = false
  rw [hparts, wholeParts]
  split <;> rfl

/-- The sign of a finite double. -/
theorem lt_zero_iff_of_finite {sign : Sign} {m : Nat} {e : Int} {hpos : 0 < m}
    (hv : v.toModel.unpack = .finite sign m e hpos) : v < 0 ↔ sign = .negative := by
  obtain ⟨t, ht, -, -⟩ := is_zero
  have hdef : v < 0 ↔ (v.toModel.unpack.compare (0 : Float).toModel.unpack == some .lt) = true :=
    ⟨of_decide_eq_true, decide_eq_true⟩
  rw [hdef, hv, ht]
  cases sign <;> simp [wholeParts, UnpackedFloat.compare]

/-- A large double is above every whole number below `2 ^ 53`. -/
theorem not_abs_lt_of_large (hv : Large v) {k : Int} (hw : Is w k) (hk : k.natAbs < 2 ^ 53) :
    ¬v.abs < w := by
  obtain ⟨s, m, e, hpos, hu, hm, hlow, hhigh⟩ := hv
  obtain ⟨t, ht, -, -⟩ := hw
  have habs : v.abs.toModel.unpack = .finite .positive m e hpos := by
    change (Float.ofModel (.pack v.toModel.unpack.abs)).toModel.unpack = _
    rw [hu]
    exact unpack_pack_normal .positive hm hpos (by omega) (by omega)
  have hdef : v.abs < w ↔ (v.abs.toModel.unpack.compare w.toModel.unpack == some .lt) = true :=
    ⟨of_decide_eq_true, decide_eq_true⟩
  rw [hdef, habs, ht, wholeParts]
  split
  · simp [UnpackedFloat.compare]
  · have hlog := log2_le_of_lt hk
    have hgt : compare e ((k.natAbs.log2 : Int) - 52) = .gt := Int.compare_eq_gt.2 (by omega)
    cases t <;> simp [UnpackedFloat.compare, hgt]

end Double

namespace Number

variable {r : ℚ}

theorem isNaN_exact (hr : (exact r).Fits) : (exact r).isNaN = false := by
  by_cases h : r = 0
  · subst h
    exact Double.isNaN_of_is (value_ofInt (k := 0) (by decide))
  · obtain ⟨s, m, e, hpos, hparts⟩ := Double.unpack_div_ofInt hr.1 hr.2 (Rat.num_ne_zero.2 h)
      (Int.natCast_ne_zero.2 r.den_nz)
    change (Double.ofInt r.num / Double.ofInt r.den).toModel.unpack.isNaN = false
    rw [hparts]
    rfl

/-- The test for negative numbers is exact on fractions. -/
theorem isNegative_exact (hr : (exact r).Fits) : (exact r).isNegative = decide (r < 0) := by
  rw [Bool.eq_iff_iff, decide_eq_true_iff, ← Rat.num_neg]
  refine ⟨num_neg_of_isNegative, fun hnum => ?_⟩
  obtain ⟨s, m, e, hpos, hparts⟩ := Double.unpack_div_ofInt hr.1 hr.2 hnum.ne
    (Int.natCast_ne_zero.2 r.den_nz)
  have hnegated : Double.Unsigned (-(Double.ofInt r.num / Double.ofInt r.den)) := by
    rw [← Double.neg_div, ← Double.ofInt_neg hnum.ne]
    exact Double.unsigned_div (Double.unsigned_ofInt (by omega)) (Double.unsigned_ofInt (by omega))
  refine decide_eq_true ((Double.lt_zero_iff_of_finite hparts).2 ?_)
  cases s with
  | negative => rfl
  | positive =>
    refine absurd ?_ hnegated
    rw [Double.unpack_neg, hparts]
    rfl

/-- The double of a fraction is made exact again if and only if the fraction is a small integer. -/
theorem ofDouble_value_eq_iff (hr : (exact r).Fits) :
    ofDouble (exact r).value = exact r ↔ r.den = 1 ∧ r.num.natAbs < 9000000000000000 := by
  have hlimit : Double.Is 9000000000000000 (9000000000000000 : Nat) :=
    Double.is_ofScientific (by decide)
  constructor
  · intro h
    unfold ofDouble at h
    split at h
    · rename_i hwhole
      have hsmall : (exact r).value.abs < 9000000000000000 :=
        of_decide_eq_true ((Bool.and_eq_true _ _).mp hwhole).2
      obtain ⟨k, rfl⟩ : ∃ k : Int, r = k := ⟨_, (exact.inj h).symm⟩
      refine ⟨Rat.den_intCast k, ?_⟩
      rw [Rat.num_intCast]
      have hk : Word.Fits k := by simpa using hr.1
      rcases Nat.lt_or_ge k.natAbs (2 ^ 53) with hbelow | hlarge
      · have habs := Double.is_abs (value_ofInt hbelow) hbelow
        have hlt := (Double.lt_iff_of_is habs hlimit).1 hsmall
        omega
      · exact absurd hsmall
          (Double.not_abs_lt_of_large (large_value_ofInt hk hlarge) hlimit (by decide))
    · cases h
  · rintro ⟨hden, hnum⟩
    have hinteger : exact r = ofInt r.num := congrArg exact ((Rat.den_eq_one_iff r).1 hden).symm
    rw [hinteger]
    exact ofDouble_of_is (value_ofInt (by omega)) hnum

end Number

end Formulary
