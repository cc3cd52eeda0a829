import Formulary.Proofs.Number.Stored

/-!
# Canonical results

Arithmetic on canonical numbers has canonical results, and a result that is a fraction is the exact
one. The steps on words are those of the arithmetic on numbers, so both are read off numbers: their
results fit into words, and a fraction comes from fractions only.
-/

namespace Formulary

namespace Number

variable {n : Number} {t : ℚ}

/-- Only a fraction has an exact negative, which is its negative. -/
theorem eq_exact_of_neg (h : -n = exact t) : ∃ r, n = exact r ∧ t = -r := by
  cases n with
  | real v => cases h
  | exact r =>
    refine ⟨r, rfl, exact.inj (h.symm.trans (neg_eq_exact ?_))⟩
    rw [h]
    rfl

theorem eq_exact_of_inverse (h : n.inverse = exact t) : ∃ r, n = exact r ∧ r ≠ 0 ∧ t = 1 / r := by
  cases n with
  | real v =>
    rw [inverse] at h
    split at h <;> cases h
  | exact r =>
    obtain ⟨hr, hinverse⟩ := inverse_eq_exact (r := r) (by rw [h]; rfl)
    exact ⟨r, rfl, hr, exact.inj (h.symm.trans hinverse)⟩

/-- Only a fraction has exact powers, and zero has no negative ones. -/
theorem eq_exact_of_pow? {k : Int} (h : n.pow? k = some (exact t)) :
    ∃ r, n = exact r ∧ (r ≠ 0 ∨ 0 ≤ k) ∧ t = r ^ k := by
  cases n with
  | real v =>
    unfold pow? at h
    split at h
    · cases h
    · split at h
      · cases h
      · obtain ⟨l, -, hpower⟩ := Option.map_eq_some_iff.1 h
        have hinverse : (inverse (real v)).isExact = true :=
          isExact_of_powNat (by rw [hpower]; rfl)
        rw [inverse] at hinverse
        split at hinverse <;> cases hinverse
  | exact r =>
    obtain ⟨-, hr, hpower⟩ := pow?_eq_exact h rfl
    exact ⟨r, rfl, hr, exact.inj hpower⟩

end Number

/-! ## What an operation gives -/

namespace Stored

open Word (Trap)

variable {m n : Number}

/-- The operation does not stop. It gives a canonical number, which is the one that is expected, and
if that is a fraction, then exactly this one. -/
def Gives (run : Except Trap Stored) (expected : Number) (exactly : ℚ → Prop) : Prop :=
  ∃ k, run = .ok k ∧ k.Canonical ∧ k.number = expected ∧ ∀ t ∈ k.fraction?, exactly t

theorem mem_fraction?_stored {t : ℚ} : t ∈ n.stored.fraction? ↔ n = .exact t := by
  cases n with
  | exact r => simp [Number.stored, fraction?, Rat.num_div_den]
  | real v => simp [Number.stored, fraction?]

theorem gives_of_eq_ok {run : Except Trap Stored} {exactly : ℚ → Prop} (hrun : run = .ok n.stored)
    (hfits : n.Fits) (hexact : ∀ t, n = .exact t → exactly t) : Gives run n exactly :=
  ⟨n.stored, hrun, canonical_iff.2 ⟨n, hfits, rfl⟩, number_stored,
    fun t ht => hexact t (mem_fraction?_stored.1 ht)⟩

/-- What the four operations of arithmetic have in common. -/
theorem gives_binary (op : Number → Number → Number) {run : Except Trap Stored}
    {Q : ℚ → ℚ → ℚ → Prop} (hrun : run = .ok (op m n).stored) (hfits : (op m n).Fits)
    (hfractions : (op m n).isExact = true → m.isExact = true ∧ n.isExact = true)
    (hexact : ∀ {r s}, (op (.exact r) (.exact s)).isExact = true →
      ∃ t, op (.exact r) (.exact s) = .exact t ∧ Q r s t) :
    Gives run (op m n) fun t =>
      ∃ r ∈ m.stored.fraction?, ∃ s ∈ n.stored.fraction?, Q r s t := by
  refine gives_of_eq_ok hrun hfits fun t ht => ?_
  have hresult : (op m n).isExact = true := by
    rw [ht]
    rfl
  obtain ⟨hm, hn⟩ := hfractions hresult
  obtain ⟨r, rfl⟩ := Number.exact_of_isExact hm
  obtain ⟨s, rfl⟩ := Number.exact_of_isExact hn
  obtain ⟨t', ht', hQ⟩ := hexact hresult
  obtain rfl := Number.exact.inj (ht.symm.trans ht')
  exact ⟨r, mem_fraction?_stored.2 rfl, s, mem_fraction?_stored.2 rfl, hQ⟩

theorem gives_add : Gives (m.stored.add n.stored) (m + n)
    fun t => ∃ r ∈ m.stored.fraction?, ∃ s ∈ n.stored.fraction?, t = r + s :=
  gives_binary (· + ·) add_eq_ok Number.fits_add Number.isExact_of_add
    fun h => ⟨_, Number.add_eq_exact h, rfl⟩

theorem gives_sub : Gives (m.stored.sub n.stored) (m - n)
    fun t => ∃ r ∈ m.stored.fraction?, ∃ s ∈ n.stored.fraction?, t = r - s :=
  gives_binary (· - ·) sub_eq_ok Number.fits_sub Number.isExact_of_sub
    fun h => ⟨_, Number.sub_eq_exact h, rfl⟩

theorem gives_mul : Gives (m.stored.mul n.stored) (m * n)
    fun t => ∃ r ∈ m.stored.fraction?, ∃ s ∈ n.stored.fraction?, t = r * s :=
  gives_binary (· * ·) mul_eq_ok Number.fits_mul Number.isExact_of_mul
    fun h => ⟨_, Number.mul_eq_exact h, rfl⟩

theorem gives_div : Gives (m.stored.div n.stored) (m / n)
    fun t => ∃ r ∈ m.stored.fraction?, ∃ s ∈ n.stored.fraction?, s ≠ 0 ∧ t = r / s :=
  gives_binary (· / ·) div_eq_ok Number.fits_div Number.isExact_of_div fun h =>
    ⟨_, (Number.div_eq_exact h).2, (Number.div_eq_exact h).1, rfl⟩

theorem gives_neg (h : n.Fits) : Gives (.ok n.stored.neg) (-n)
    fun t => ∃ r ∈ n.stored.fraction?, t = -r := by
  refine gives_of_eq_ok (congrArg Except.ok neg_stored) (Number.fits_neg h) fun t ht => ?_
  obtain ⟨r, hn, hneg⟩ := Number.eq_exact_of_neg ht
  exact ⟨r, mem_fraction?_stored.2 hn, hneg⟩

theorem gives_inverse (h : n.Fits) : Gives n.stored.inverse n.inverse
    fun t => ∃ r ∈ n.stored.fraction?, r ≠ 0 ∧ t = 1 / r := by
  refine gives_of_eq_ok (inverse_eq_ok h) (Number.fits_inverse h) fun t ht => ?_
  obtain ⟨r, hn, hinverse⟩ := Number.eq_exact_of_inverse ht
  exact ⟨r, mem_fraction?_stored.2 hn, hinverse⟩

/-- A power does not stop either; where it is a fraction, it is the power of one. -/
theorem gives_pow? (h : n.Fits) (k : Int) :
    ∃ result, n.stored.pow? k = .ok result ∧ result.map number = n.pow? k ∧
      ∀ power ∈ result, power.Canonical ∧
        ∀ t ∈ power.fraction?, ∃ r ∈ n.stored.fraction?, (r ≠ 0 ∨ 0 ≤ k) ∧ t = r ^ k := by
  refine ⟨_, pow?_eq_ok h k, ?_, fun power hpower => ?_⟩
  · have hback : number ∘ Number.stored = id := funext fun _ => number_stored
    rw [Option.map_map, hback, Option.map_id, id]
  · obtain ⟨m, hm, rfl⟩ := Option.map_eq_some_iff.1 hpower
    refine ⟨canonical_iff.2 ⟨m, Number.fits_pow? hm, rfl⟩, fun t ht => ?_⟩
    obtain rfl := mem_fraction?_stored.1 ht
    obtain ⟨r, hn, hr, hpower⟩ := Number.eq_exact_of_pow? hm
    exact ⟨r, mem_fraction?_stored.2 hn, hr, hpower⟩

/-- Arithmetic on canonical numbers never leaves the words and never divides by zero, and its
results are canonical again. They are those of the arithmetic on numbers, and a result that is a
fraction is the exact one. -/
theorem arithmetic_canonical :
    (∀ p q, Word.Fits p → Word.Fits q →
      Gives (ofRatio p q) (.ofRatio p q) fun t => q ≠ 0 ∧ t = p / q) ∧
    (∀ m n : Stored, m.Canonical → n.Canonical →
      Gives (m.add n) (m.number + n.number)
        (fun t => ∃ r ∈ m.fraction?, ∃ s ∈ n.fraction?, t = r + s) ∧
      Gives (m.sub n) (m.number - n.number)
        (fun t => ∃ r ∈ m.fraction?, ∃ s ∈ n.fraction?, t = r - s) ∧
      Gives (m.mul n) (m.number * n.number)
        (fun t => ∃ r ∈ m.fraction?, ∃ s ∈ n.fraction?, t = r * s) ∧
      Gives (m.div n) (m.number / n.number)
        fun t => ∃ r ∈ m.fraction?, ∃ s ∈ n.fraction?, s ≠ 0 ∧ t = r / s) ∧
    ∀ n : Stored, n.Canonical →
      Gives (.ok n.neg) (-n.number) (fun t => ∃ r ∈ n.fraction?, t = -r) ∧
      Gives n.inverse n.number.inverse (fun t => ∃ r ∈ n.fraction?, r ≠ 0 ∧ t = 1 / r) ∧
      ∀ k, ∃ result, n.pow? k = .ok result ∧ result.map number = n.number.pow? k ∧
        ∀ power ∈ result, power.Canonical ∧
          ∀ t ∈ power.fraction?, ∃ r ∈ n.fraction?, (r ≠ 0 ∨ 0 ≤ k) ∧ t = r ^ k := by
  refine ⟨fun p q hp hq => ?ratio, fun _ _ hm hn => ?binary, fun _ hn => ?unary⟩
  case ratio =>
    refine gives_of_eq_ok (ofRatio_eq_ok hp hq) (Number.fits_ofRatio hp hq) fun t ht => ?_
    obtain ⟨hq0, hratio⟩ := Number.ofRatio_eq_exact (p := p) (q := q) (by rw [ht]; rfl)
    exact ⟨hq0, Number.exact.inj (ht.symm.trans hratio)⟩
  case binary =>
    obtain ⟨m, -, rfl⟩ := canonical_iff.1 hm
    obtain ⟨n, -, rfl⟩ := canonical_iff.1 hn
    rw [number_stored, number_stored]
    exact ⟨gives_add, gives_sub, gives_mul, gives_div⟩
  case unary =>
    obtain ⟨n, hfits, rfl⟩ := canonical_iff.1 hn
    rw [number_stored]
    exact ⟨gives_neg hfits, gives_inverse hfits, gives_pow? hfits⟩

theorem Gives.eq_ok {run : Except Trap Stored} {expected : Number} {exactly : ℚ → Prop}
    (h : Gives run expected exactly) : run = .ok expected.stored := by
  obtain ⟨k, hrun, hcanonical, rfl, -⟩ := h
  obtain ⟨n, -, rfl⟩ := canonical_iff.1 hcanonical
  rw [number_stored, hrun]

/-- The fraction `4/(-6)` is reduced to `-2/3`, and the sum of `1/6` and `-2/3` to `-1/2`. -/
theorem arithmetic_canonical_sixths :
    Word.Fits 4 ∧ Word.Fits (-6) ∧ (rational 1 6).Canonical ∧ (rational (-2) 3).Canonical ∧
      ofRatio 4 (-6) = .ok (rational (-2) 3) ∧
      (rational 1 6).add (rational (-2) 3) = .ok (rational (-1) 2) ∧
      (rational 1 6).inverse = .ok (rational 6 1) := by
  obtain ⟨hratio, hbinary, hunary⟩ := arithmetic_canonical
  have hsixth : (rational 1 6).Canonical := by decide
  have hthirds : (rational (-2) 3).Canonical := by decide
  obtain ⟨hadd, -⟩ := hbinary _ _ hsixth hthirds
  obtain ⟨-, hinverse, -⟩ := hunary _ hsixth
  refine ⟨by decide, by decide, hsixth, hthirds, ?_, ?_, ?_⟩
  · exact (hratio 4 (-6) (by decide) (by decide)).eq_ok.trans (by decide +kernel)
  · exact hadd.eq_ok.trans (by decide +kernel)
  · exact hinverse.eq_ok.trans (by decide +kernel)

end Stored

end Formulary
