import Formulary.Proofs.Double.Large

/-!
# Exact arithmetic

An operation on two fractions that stays exact is the operation on rational numbers, and its result
fits into 64-bit words again. For a power this includes the exponent, which is taken from a double:
below `2 ^ 53` the double is the exponent, and from there on the power is no longer exact.
-/

namespace Formulary

namespace Exact

/-- The tests for zero and one are exact on the fraction. -/
def Sharp (r : ℚ) : Prop :=
  (Number.exact r).isZero = decide (r = 0) ∧ (Number.exact r).isOne = decide (r = 1)

instance (r : ℚ) : Decidable (Sharp r) := inferInstanceAs (Decidable (_ ∧ _))

end Exact

namespace Word

theorem fits_of_checked {n p : Int} (h : checked n = some p) : Fits p := by
  obtain ⟨hfits, rfl⟩ := checked_eq_some.1 h
  exact hfits

theorem power?_eq_some {b p : Int} {k : Nat} (h : power? b k = some p) : Fits p ∧ p = b ^ k := by
  unfold power? at h
  split at h
  · rename_i hsmall
    -- only the parity of the exponent matters
    have hpower : b ^ (if k = 0 then 0 else 2 - k % 2) = b ^ k := by
      rcases (by omega : b = 0 ∨ b = 1 ∨ b = -1) with rfl | rfl | rfl
      · by_cases hk : k = 0
        · simp [hk]
        · rw [if_neg hk, zero_pow hk, zero_pow (by omega)]
      · simp
      · rcases Nat.even_or_odd k with heven | hodd
        · rw [heven.neg_one_pow]
          split
          · rfl
          · rw [Nat.even_iff.1 heven]
            rfl
        · rw [hodd.neg_one_pow, if_neg hodd.pos.ne', Nat.odd_iff.1 hodd]
          rfl
    have hp : p = b ^ (if k = 0 then 0 else 2 - k % 2) := (Option.some.inj h).symm
    have hone : (b ^ k).natAbs ≤ 1 := by
      rw [Int.natAbs_pow]
      exact pow_le_one' hsmall k
    rw [hpower] at hp
    rw [← hp] at hone
    refine ⟨?_, hp⟩
    unfold Fits least greatest
    omega
  · split at h
    · obtain ⟨hfits, rfl⟩ := checked_eq_some.1 h
      exact ⟨hfits, rfl⟩
    · cases h

end Word

namespace Number

variable {n : Number} {r s : ℚ} {p q : Int}

theorem exact_of_isExact (h : n.isExact = true) : ∃ r, n = exact r := by
  cases n with
  | exact r => exact ⟨r, rfl⟩
  | real v => cases h

theorem eq_ofInt_of_isInteger (h : (exact r).isInteger = true) : exact r = ofInt r.num := by
  have hden : r.den = 1 := beq_iff_eq.1 h
  rw [ofInt, (Rat.den_eq_one_iff r).1 hden]

/-! ## Fractions -/

/-- A quotient of words that stays exact is the quotient. -/
theorem ofRatio_eq_exact (h : (ofRatio p q).isExact = true) :
    q ≠ 0 ∧ ofRatio p q = exact (p / q) := by
  unfold ofRatio at h ⊢
  split at h
  · cases h
  · rename_i hq
    refine ⟨hq, ?_⟩
    rw [if_neg hq]
    split at h
    · rename_i hp
      rw [if_pos hp, hp, Int.cast_zero, zero_div]
      rfl
    · rename_i hp
      split at h
      · cases h
      · rename_i hflip
        rw [if_neg hp, if_neg hflip, Rat.divInt_eq_div]

/-- Lowest terms are no greater, and only a sign may have to be flipped. -/
theorem fits_ofRatio (hp : Word.Fits p) (hq : Word.Fits q) : (ofRatio p q).Fits := by
  unfold ofRatio
  split
  · trivial
  split
  · exact ⟨by decide, by decide⟩
  split
  · trivial
  rename_i hq0 _ hflip
  obtain ⟨c, hc⟩ : (q.gcd p : Int) ∣ p := Int.gcd_dvd_right q p
  have hg : 0 < (q.gcd p : Int) := Int.natCast_pos.2 (Int.gcd_pos_of_ne_zero_left p hq0)
  have hnum := Rat.num_divInt p q
  generalize (q.gcd p : Int) = g at hc hg hnum
  rw [hc, mul_left_comm, Int.mul_ediv_cancel_left _ hg.ne', ← hc] at hnum
  have hden : (Rat.divInt p q).den ≤ q.natAbs :=
    Nat.le_of_dvd (by omega) (Int.natCast_dvd.1 (Rat.den_dvd p q))
  have hbetween : min 0 p ≤ c ∧ c ≤ max 0 p := by
    rcases le_total 0 c with h | h
    · exact ⟨by omega, le_max_of_le_right (by rw [hc]; exact le_mul_of_one_le_left h hg)⟩
    · exact ⟨min_le_of_right_le (by rw [hc]; exact mul_le_of_one_le_left h hg), by omega⟩
  change Word.Fits (Rat.divInt p q).num ∧ Word.Fits (Rat.divInt p q).den
  rw [hnum]
  unfold Word.Fits Word.least Word.greatest at *
  rcases Int.lt_or_gt_of_ne hq0 with hneg | hpos
  · rw [Int.sign_eq_neg_one_of_neg hneg]
    omega
  · rw [Int.sign_eq_one_of_pos hpos]
    omega

/-- Parts that stay exact are both words, and the number is their quotient. -/
theorem ofParts_eq_exact {a b : Option Int} {v : Float} (h : (ofParts a b v).isExact = true) :
    ∃ p q, a = some p ∧ b = some q ∧ q ≠ 0 ∧ ofParts a b v = exact (p / q) := by
  unfold ofParts at h ⊢
  split at h
  · rename_i p q
    obtain ⟨hq, hvalue⟩ := ofRatio_eq_exact h
    exact ⟨p, q, rfl, rfl, hq, hvalue⟩
  · cases h

theorem fits_ofParts {a b : Option Int} {v : Float} (ha : ∀ p ∈ a, Word.Fits p)
    (hb : ∀ q ∈ b, Word.Fits q) : (ofParts a b v).Fits := by
  unfold ofParts
  split
  · exact fits_ofRatio (ha _ rfl) (hb _ rfl)
  · trivial

/-! ## Operations that stay exact -/

theorem checked_of_both {f : Int → Int → Int} {a b : Int}
    (h : (do Word.checked (f (← Word.checked a) (← Word.checked b))) = some p) :
    Word.Fits p ∧ p = f a b := by
  simp only [Option.bind_eq_bind, Option.bind_eq_some_iff, Word.checked_eq_some] at h
  obtain ⟨_, ⟨_, rfl⟩, _, ⟨_, rfl⟩, hfits, rfl⟩ := h
  exact ⟨hfits, rfl⟩

section

variable {m : Number}

theorem isExact_of_add (h : (m + n).isExact = true) : m.isExact = true ∧ n.isExact = true := by
  cases m <;> cases n <;> first | exact ⟨rfl, rfl⟩ | cases h

theorem isExact_of_sub (h : (m - n).isExact = true) : m.isExact = true ∧ n.isExact = true := by
  cases m <;> cases n <;> first | exact ⟨rfl, rfl⟩ | cases h

theorem isExact_of_mul (h : (m * n).isExact = true) : m.isExact = true ∧ n.isExact = true := by
  cases m <;> cases n <;> first | exact ⟨rfl, rfl⟩ | cases h

theorem isExact_of_div (h : (m / n).isExact = true) : m.isExact = true ∧ n.isExact = true := by
  change (div m n).isExact = true at h
  unfold div at h
  split at h
  · cases h
  · cases m <;> cases n <;> first | exact ⟨rfl, rfl⟩ | cases h

end

theorem add_eq_exact (h : (exact r + exact s).isExact = true) :
    exact r + exact s = exact (r + s) := by
  obtain ⟨p, q, hp, hq, -, hsum⟩ := ofParts_eq_exact h
  obtain ⟨-, rfl⟩ := checked_of_both hp
  obtain ⟨-, rfl⟩ := Word.checked_eq_some.1 hq
  refine hsum.trans (congrArg exact ?_)
  calc ((r.num * s.den + s.num * r.den : Int) : ℚ) / (r.den * s.den : Int)
    _ = r.num / r.den + s.num / s.den := by
      push_cast
      field_simp
    _ = r + s := by rw [Rat.num_div_den, Rat.num_div_den]

theorem sub_eq_exact (h : (exact r - exact s).isExact = true) :
    exact r - exact s = exact (r - s) := by
  obtain ⟨p, q, hp, hq, -, hdifference⟩ := ofParts_eq_exact h
  obtain ⟨-, rfl⟩ := checked_of_both hp
  obtain ⟨-, rfl⟩ := Word.checked_eq_some.1 hq
  refine hdifference.trans (congrArg exact ?_)
  calc ((r.num * s.den - s.num * r.den : Int) : ℚ) / (r.den * s.den : Int)
    _ = r.num / r.den - s.num / s.den := by
      push_cast
      field_simp
    _ = r - s := by rw [Rat.num_div_den, Rat.num_div_den]

theorem mul_eq_exact (h : (exact r * exact s).isExact = true) :
    exact r * exact s = exact (r * s) := by
  obtain ⟨p, q, hp, hq, -, hproduct⟩ := ofParts_eq_exact h
  obtain ⟨-, rfl⟩ := Word.checked_eq_some.1 hp
  obtain ⟨-, rfl⟩ := Word.checked_eq_some.1 hq
  refine hproduct.trans (congrArg exact ?_)
  calc ((r.num * s.num : Int) : ℚ) / (r.den * s.den : Int)
    _ = r.num / r.den * (s.num / s.den) := by
      push_cast
      field_simp
    _ = r * s := by rw [Rat.num_div_den, Rat.num_div_den]

/-- A quotient that stays exact is the quotient, and nothing is divided by zero. -/
theorem div_eq_exact (h : (exact r / exact s).isExact = true) :
    s ≠ 0 ∧ exact r / exact s = exact (r / s) := by
  change (div (exact r) (exact s)).isExact = true at h
  change s ≠ 0 ∧ div (exact r) (exact s) = exact (r / s)
  unfold div at h ⊢
  split at h
  · cases h
  · rename_i hzero
    rw [if_neg hzero]
    obtain ⟨p, q, hp, hq, hq0, hquotient⟩ := ofParts_eq_exact h
    obtain ⟨-, rfl⟩ := Word.checked_eq_some.1 hp
    obtain ⟨-, rfl⟩ := Word.checked_eq_some.1 hq
    have hs : s ≠ 0 := Rat.num_ne_zero.1 (right_ne_zero_of_mul hq0)
    have hnum : (s.num : ℚ) ≠ 0 := Int.cast_ne_zero.2 (Rat.num_ne_zero.2 hs)
    refine ⟨hs, hquotient.trans (congrArg exact ?_)⟩
    calc ((r.num * s.den : Int) : ℚ) / (r.den * s.num : Int)
      _ = r.num / r.den / (s.num / s.den) := by
        push_cast
        field_simp
      _ = r / s := by rw [Rat.num_div_den, Rat.num_div_den]

theorem neg_eq_exact (h : (-exact r).isExact = true) : -exact r = exact (-r) := by
  change (neg (exact r)).isExact = true at h
  change neg (exact r) = exact (-r)
  rw [neg] at h ⊢
  split
  · rfl
  · rename_i hnone
    rw [hnone] at h
    cases h

theorem inverse_eq_exact (h : (exact r).inverse.isExact = true) :
    r ≠ 0 ∧ (exact r).inverse = exact (1 / r) := by
  rw [inverse] at h ⊢
  by_cases hnum : r.num = 0
  · rw [if_pos hnum] at h
    cases h
  · rw [if_neg hnum] at h ⊢
    refine ⟨Rat.num_ne_zero.1 hnum, (ofRatio_eq_exact h).2.trans (congrArg exact ?_)⟩
    rw [Int.cast_natCast, ← one_div_div, Rat.num_div_den]

theorem isExact_of_powNat {k : Nat} (h : (n.powNat k).isExact = true) : n.isExact = true := by
  cases n with
  | exact r => rfl
  | real v => cases h

/-- An exact power has an exponent of 32 bits. -/
theorem powNat_eq_exact {k : Nat} (h : ((exact r).powNat k).isExact = true) :
    k < UInt32.size ∧ (exact r).powNat k = exact (r ^ k) := by
  unfold powNat at h ⊢
  simp only at h ⊢
  split at h
  · rename_i hk
    rw [if_pos hk]
    split at h
    · rename_i p q hp hq
      obtain ⟨-, rfl⟩ := Word.power?_eq_some hp
      obtain ⟨-, rfl⟩ := Word.power?_eq_some hq
      refine ⟨hk, (ofRatio_eq_exact h).2.trans (congrArg exact ?_)⟩
      push_cast
      rw [← div_pow, Rat.num_div_den]
    · cases h
  · cases h

/-- An exact power with an integer exponent has the exponent in 33 bits. -/
theorem pow?_eq_exact {k : Int} (hn : (exact r).pow? k = some n) (h : n.isExact = true) :
    k.natAbs < UInt32.size ∧ (r ≠ 0 ∨ 0 ≤ k) ∧ n = exact (r ^ k) := by
  unfold pow? at hn
  split at hn
  · rename_i hk
    obtain rfl := Option.some.inj hn
    obtain ⟨hsize, hpower⟩ := powNat_eq_exact h
    refine ⟨by omega, .inr hk, hpower.trans (congrArg exact ?_)⟩
    rw [← zpow_natCast, Int.toNat_of_nonneg hk]
  · rename_i hk
    split at hn
    · cases hn
    · simp only [Option.map_eq_some_iff, Word.checked_eq_some] at hn
      obtain ⟨_, ⟨-, rfl⟩, rfl⟩ := hn
      obtain ⟨hr, hinverse⟩ := inverse_eq_exact (isExact_of_powNat h)
      rw [hinverse] at h ⊢
      obtain ⟨hsize, hpower⟩ := powNat_eq_exact h
      refine ⟨by omega, .inl hr, hpower.trans (congrArg exact ?_)⟩
      rw [one_div, inv_pow, ← zpow_natCast, Int.toNat_of_nonneg (by omega), zpow_neg, inv_inv]

/-! ## Results of 64 bits -/

section

variable {m : Number}

theorem fits_add : (m + n).Fits := by
  cases m with
  | real v => cases n <;> trivial
  | exact r =>
    cases n with
    | real v => trivial
    | exact s =>
      exact fits_ofParts (fun _ hp => (checked_of_both hp).1) fun _ hq => Word.fits_of_checked hq

theorem fits_sub : (m - n).Fits := by
  cases m with
  | real v => cases n <;> trivial
  | exact r =>
    cases n with
    | real v => trivial
    | exact s =>
      exact fits_ofParts (fun _ hp => (checked_of_both hp).1) fun _ hq => Word.fits_of_checked hq

theorem fits_mul : (m * n).Fits := by
  cases m with
  | real v => cases n <;> trivial
  | exact r =>
    cases n with
    | real v => trivial
    | exact s =>
      exact fits_ofParts (fun _ hp => Word.fits_of_checked hp) fun _ hq => Word.fits_of_checked hq

theorem fits_div : (m / n).Fits := by
  change (div m n).Fits
  unfold div
  split
  · trivial
  · cases m with
    | real v => cases n <;> trivial
    | exact r =>
      cases n with
      | real v => trivial
      | exact s =>
        exact fits_ofParts (fun _ hp => Word.fits_of_checked hp) fun _ hq =>
          Word.fits_of_checked hq

theorem fits_neg (h : n.Fits) : (-n).Fits := by
  cases n with
  | real v => trivial
  | exact r =>
    change (neg (exact r)).Fits
    rw [neg]
    split
    · rename_i p hp
      refine ⟨?_, ?_⟩
      · rw [Rat.neg_num, ← (Word.checked_eq_some.1 hp).2]
        exact Word.fits_of_checked hp
      · rw [Rat.neg_den]
        exact h.2
    · trivial

theorem fits_inverse (h : n.Fits) : n.inverse.Fits := by
  cases n with
  | real v =>
    rw [inverse]
    split <;> trivial
  | exact r =>
    rw [inverse]
    split
    · trivial
    · exact fits_ofRatio h.2 h.1

theorem fits_powNat (n : Number) (k : Nat) : (n.powNat k).Fits := by
  unfold powNat
  split
  · split
    · split
      · rename_i hp hq
        exact fits_ofRatio (Word.power?_eq_some hp).1 (Word.power?_eq_some hq).1
      · trivial
    · trivial
  · trivial

theorem fits_pow? {k : Int} (h : m.pow? k = some n) : n.Fits := by
  unfold pow? at h
  split at h
  · rw [← Option.some.inj h]
    exact fits_powNat m _
  · split at h
    · cases h
    · obtain ⟨e, -, rfl⟩ := Option.map_eq_some_iff.1 h
      exact fits_powNat m.inverse _

end

end Number

end Formulary
