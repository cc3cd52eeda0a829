import Formulary.Random
import Mathlib.Data.Nat.Periodic

/-!
# The range of drawn numbers

An integer drawn from a range lies in it, whatever the generator. Words of the stream that would
favour some numbers are thrown away, and the number taken from any other word is the high half of a
product that is below the range.

How many words are thrown away has no bound that holds for all keys, so `below` is given one. It is
the period of the stream (`periodic_word`): if any word of the stream is fair, one before the bound
is, and no greater bound gives another number (`below_of_fair`).
-/

namespace Formulary.Random

variable {range zone attempts : Nat} {r : Random}

theorem below_lt (hrange : 0 < range) (zone attempts : Nat) (r : Random) :
    (below range zone attempts r).1 < range := by
  induction attempts generalizing r with
  | zero => exact hrange
  | succ attempts ih =>
    rw [below]
    dsimp only
    split
    · exact Nat.div_lt_of_lt_mul (Nat.mul_lt_mul_of_pos_right (UInt64.toNat_lt_size _) hrange)
    · exact ih _

/-- A range of fewer than `2 ^ 64` integers is kept to. -/
theorem between_mem (least greatest : Int) (h : least ≤ greatest)
    (hrange : greatest - least + 1 < UInt64.size) (r : Random) :
    least ≤ (between least greatest r).1 ∧ (between least greatest r).1 ≤ greatest := by
  unfold between
  split
  · exact ⟨Int.le_refl _, h⟩
  · have hmod : (greatest - least + 1).toNat % UInt64.size = (greatest - least + 1).toNat :=
      Nat.mod_eq_of_lt (by omega)
    have hne : (greatest - least + 1).toNat ≠ 0 := by omega
    dsimp only
    rw [hmod, if_neg hne]
    have hlt := below_lt (Nat.pos_of_ne_zero hne) (fairZone (greatest - least + 1).toNat)
      attemptLimit r
    omega

/-! ## Words that are thrown away -/

/-- The word that a generator gives after some others. -/
def word (r : Random) (n : Nat) : UInt64 := Keystream.word64 r.key (r.position + n)

/-- The generator after some words. -/
def skip (r : Random) (n : Nat) : Random := { r with position := r.position + n }

theorem word_skip (r : Random) (m n : Nat) : (r.skip m).word n = r.word (m + n) := by
  unfold word skip
  rw [Nat.add_assoc]

theorem skip_skip (r : Random) (m n : Nat) : (r.skip m).skip n = r.skip (m + n) := by
  unfold skip
  rw [Nat.add_assoc]

/-- The counter of the blocks wraps. -/
theorem periodic_word64 (key : Keystream.Key) :
    Function.Periodic (Keystream.word64 key) Keystream.period := by
  intro n
  have hindex : (n + Keystream.period) % Keystream.wordsPerBlock = n % Keystream.wordsPerBlock :=
    Nat.add_mul_mod_self_right n UInt64.size Keystream.wordsPerBlock
  have hblock : (n + Keystream.period) / Keystream.wordsPerBlock =
      n / Keystream.wordsPerBlock + UInt64.size :=
    Nat.add_mul_div_right n UInt64.size (by decide)
  have hwrap : UInt64.ofNat (n / Keystream.wordsPerBlock + UInt64.size) =
      UInt64.ofNat (n / Keystream.wordsPerBlock) := by
    rw [UInt64.ofNat_add]
    exact UInt64.add_zero _
  rw [Keystream.word64, Keystream.word64, hindex, hblock, hwrap]

theorem periodic_word (r : Random) : Function.Periodic r.word attemptLimit := by
  intro n
  unfold word
  rw [← Nat.add_assoc]
  exact periodic_word64 r.key (r.position + n)

/-- A word that favours no number below `range`. -/
def Fair (range zone : Nat) (word : UInt64) : Prop := word.toNat * range % UInt64.size ≤ zone

instance (range zone : Nat) (word : UInt64) : Decidable (Fair range zone word) :=
  inferInstanceAs (Decidable (_ ≤ _))

theorem below_succ (range zone attempts : Nat) (r : Random) :
    below range zone (attempts + 1) r =
      if Fair range zone (r.word 0) then ((r.word 0).toNat * range / UInt64.size, r.skip 1)
      else below range zone attempts (r.skip 1) := rfl

/-- The number comes from the first fair word, if the bound reaches as far. -/
theorem below_of_first {n : Nat} (hn : n < attempts) (hfair : Fair range zone (r.word n))
    (hbefore : ∀ k < n, ¬Fair range zone (r.word k)) :
    below range zone attempts r =
      ((r.word n).toNat * range / UInt64.size, r.skip (n + 1)) := by
  induction n generalizing attempts r with
  | zero =>
    obtain ⟨attempts, rfl⟩ := Nat.exists_eq_succ_of_ne_zero (Nat.ne_of_gt hn)
    rw [below_succ, if_pos hfair]
  | succ n ih =>
    obtain ⟨attempts, rfl⟩ := Nat.exists_eq_succ_of_ne_zero (Nat.ne_of_gt (Nat.zero_lt_of_lt hn))
    have hword (k : Nat) : (r.skip 1).word k = r.word (k + 1) := by
      rw [word_skip, Nat.add_comm]
    rw [below_succ, if_neg (hbefore 0 n.succ_pos), ih (Nat.lt_of_succ_lt_succ hn)]
    · rw [hword, skip_skip, Nat.add_comm 1]
    · rwa [hword]
    · intro k hk
      rw [hword]
      exact hbefore (k + 1) (Nat.succ_lt_succ hk)

/-- If any word of the stream is fair, the bound is reached by no search: the first fair word comes
before it and gives the number, which is the same with every greater bound. -/
theorem below_of_fair (h : ∃ n, Fair range zone (r.word n)) :
    ∃ n < attemptLimit, Fair range zone (r.word n) ∧ (∀ k < n, ¬Fair range zone (r.word k)) ∧
      ∀ attempts, attemptLimit ≤ attempts →
        below range zone attempts r =
          ((r.word n).toNat * range / UInt64.size, r.skip (n + 1)) := by
  have hlt : Nat.find h < attemptLimit := by
    obtain ⟨n, hn⟩ := h
    refine lt_of_le_of_lt (Nat.find_min' _ (m := n % attemptLimit) ?_) (Nat.mod_lt n (by decide))
    rwa [(periodic_word r).map_mod_nat]
  have hbefore : ∀ k < Nat.find h, ¬Fair range zone (r.word k) := fun k hk => Nat.find_min h hk
  exact ⟨Nat.find h, hlt, Nat.find_spec h, hbefore, fun attempts hle =>
    below_of_first (hlt.trans_le hle) (Nat.find_spec h) hbefore⟩

end Formulary.Random
