import Formulary.Parameter
import Formulary.Proofs.Double.Rounding
import Formulary.Proofs.Number.Stored
import Formulary.Proofs.Random

/-!
# Drawing the value of a parameter

The values to draw from are counted on words: the quotient of the range by the step is cut to a
word, which saturates, and one is added. Where the quotient leaves the words upwards, an infinite
one included, the cut is the greatest word and the sum traps (`count_eq`). Nothing else can go
wrong: what is not a number counts as zero, and the least word is only made greater.

From then on a draw is an index from zero to `lastIndex`, which takes the generator one step further
(`advance`). `drawWanted_eq` says which of the draws is the answer: the first wanted one, or the
last one that the limit allows.
-/

namespace Formulary

namespace Double

variable {v : Float} {x : ℚ}

/-- `2 ^ 63`, the first double above the words. -/
def wordLimit : Float := 9223372036854775808

theorem ratio?_wordLimit : ratio? wordLimit = some (2 ^ 63) := by
  have hparts : wordLimit.toModel.unpack = .finite .positive (2 ^ 52) 11 (by decide) := rfl
  rw [ratio?, hparts]
  norm_num [fraction?, Float.Model.UnpackedFloat.Sign.apply]

/-- There is no double between the greatest word and `2 ^ 63`. -/
theorem greatest_le_iff (hx : ratio? v = some x) : (Word.greatest : ℚ) ≤ x ↔ 2 ^ 63 ≤ x := by
  have hgreatest : (Word.greatest : ℚ) = 2 ^ 63 - 1 := by norm_num [Word.greatest]
  rw [hgreatest]
  refine ⟨fun h => ?_, fun h => by linarith⟩
  -- doubles of this size are multiples of `2 ^ 10`
  have hlarge : 2 ^ (52 + 10) ≤ |x| := by
    rw [abs_of_nonneg (by linarith)]
    calc (2 : ℚ) ^ (52 + 10)
      _ ≤ 2 ^ 63 - 1 := by norm_num
      _ ≤ x := h
  obtain ⟨k, rfl⟩ := exists_eq_mul_pow 10 hx hlarge
  have hk : (2 ^ 63 : ℤ) ≤ k * 2 ^ 10 := by
    have : (2 ^ 63 - 1 : ℤ) ≤ k * 2 ^ 10 := by exact_mod_cast h
    omega
  exact_mod_cast hk

/-- The floor is cut to the greatest word from `2 ^ 63` on. -/
theorem toInt_floor_eq_greatest_iff : toInt (floor v) = Word.greatest ↔ wordLimit ≤ v := by
  cases hx : ratio? v with
  | some x =>
    rw [toInt_of_ratio? (ratio?_floor hx), wholePart_intCast, le_iff_of_ratio? ratio?_wordLimit hx,
      ← greatest_le_iff hx, ← Int.le_floor]
    unfold Word.clamp Word.least Word.greatest
    omega
  | none => obtain rfl | rfl | rfl := eq_of_ratio?_eq_none hx <;> decide +kernel

end Double

namespace Parameter

variable {least greatest step : Float} {last : Int} {r : Random}

/-! ## The count -/

/-- The greatest index of a value: the quotient of the range by the step, cut to a word. -/
def lastIndex (least greatest step : Float) : Int :=
  Double.toInt (Double.floor ((greatest - least) / step))

theorem fits_lastIndex (least greatest step : Float) :
    Word.Fits (lastIndex least greatest step) :=
  Double.fits_toInt _

/-- The count traps exactly where the quotient leaves the words upwards. -/
theorem count_eq (least greatest step : Float) :
    count least greatest step =
      if Double.wordLimit ≤ (greatest - least) / step then .error .overflow
      else .ok (lastIndex least greatest step + 1) := by
  have hfits := fits_lastIndex least greatest step
  have hgreatest := Double.toInt_floor_eq_greatest_iff (v := (greatest - least) / step)
  change lastIndex least greatest step = _ ↔ _ at hgreatest
  change Word.sum (lastIndex least greatest step) 1 = _
  generalize lastIndex least greatest step = last at hfits hgreatest ⊢
  have hiff : Word.Fits (last + 1) ↔ ¬Double.wordLimit ≤ (greatest - least) / step := by
    rw [← hgreatest]
    unfold Word.Fits Word.least Word.greatest at *
    omega
  simp only [Word.sum, hiff, ite_not]

/-! ## One draw -/

/-- The value drawn with a greatest index. -/
def drawn (last : Int) (least step : Float) (r : Random) : Float :=
  least + step * Double.ofInt (r.between 0 last).1

/-- The generator after a draw. -/
def advance (last : Int) (r : Random) : Random := (r.between 0 last).2

/-- A count that is one more than a word gives an upper index that is a word again. -/
theorem drawOnce_succ (hlast : Word.Fits last) (least step : Float) (r : Random) :
    drawOnce (last + 1) least step r = .ok (drawn last least step r, advance last r) := by
  have hdifference : Word.difference (last + 1) 1 = .ok last := by
    rw [Word.difference, Int.add_sub_cancel, if_pos hlast]
  rw [drawOnce, hdifference]
  rfl

/-- What is drawn is one of the evenly spaced values, the first one if there are no others. -/
theorem exists_drawn_eq (hlast : Word.Fits last) (least step : Float) (r : Random) :
    ∃ i, 0 ≤ i ∧ i ≤ max 0 last ∧ drawn last least step r = least + step * Double.ofInt i := by
  suffices hindex : 0 ≤ (r.between 0 last).1 ∧ (r.between 0 last).1 ≤ max 0 last from
    ⟨_, hindex.1, hindex.2, rfl⟩
  rcases Int.le_total last 0 with hle | hle
  · rw [Random.between, if_pos hle]
    exact ⟨Int.le_refl 0, Int.le_max_left 0 last⟩
  · have hsize : last - 0 + 1 < UInt64.size := by
      unfold Word.Fits Word.greatest UInt64.size at *
      omega
    obtain ⟨hleast, hgreatest⟩ := Random.between_mem 0 last hle hsize r
    exact ⟨hleast, hgreatest.trans (Int.le_max_right 0 last)⟩

/-! ## The loop -/

theorem drawWanted_succ (hlast : Word.Fits last) (wanted : Float → Bool) (again : Nat) :
    drawWanted (last + 1) least step wanted (again + 1) r =
      if wanted (drawn last least step r) then .ok (drawn last least step r, advance last r)
      else drawWanted (last + 1) least step wanted again (advance last r) := by
  rw [drawWanted, drawOnce_succ hlast]
  rfl

/-- The answer is the first draw that is wanted, or the last one that may be made. -/
theorem drawWanted_eq (hlast : Word.Fits last) (least step : Float) (wanted : Float → Bool)
    (again : Nat) (r : Random) :
    ∃ n ≤ again,
      (∀ k < n, wanted (drawn last least step ((advance last)^[k] r)) = false) ∧
      (wanted (drawn last least step ((advance last)^[n] r)) = true ∨ n = again) ∧
      drawWanted (last + 1) least step wanted again r =
        .ok (drawn last least step ((advance last)^[n] r), (advance last)^[n + 1] r) := by
  induction again generalizing r with
  | zero =>
    refine ⟨0, Nat.le_refl 0, fun k hk => absurd hk (Nat.not_lt_zero k), .inr rfl, ?_⟩
    rw [drawWanted, drawOnce_succ hlast]
    rfl
  | succ again ih =>
    rw [drawWanted_succ hlast]
    cases hwanted : wanted (drawn last least step r) with
    | true =>
      exact ⟨0, Nat.zero_le _, fun k hk => absurd hk (Nat.not_lt_zero k), .inl hwanted, if_pos rfl⟩
    | false =>
      -- the draws from here on are those of the generator after this one
      obtain ⟨n, hn, hbefore, hlast, hdraw⟩ := ih (advance last r)
      refine ⟨n + 1, Nat.succ_le_succ hn, fun k hk => ?_, ?_, ?_⟩
      · cases k with
        | zero => exact hwanted
        | succ k => exact hbefore k (Nat.lt_of_succ_lt_succ hk)
      · exact hlast.imp_right (congrArg Nat.succ)
      · rw [if_neg Bool.false_ne_true]
        exact hdraw

/-! ## The draw -/

/-- The draw of a parameter ends for all bounds, steps and generators: it makes `n + 1` draws, at
most `drawLimit` of them, each of an evenly spaced value, and it gives the first wanted one or the
last. It traps exactly where the quotient of the range by the step is `2 ^ 63` or more, an infinite
one included, because the count is one more than a word there. -/
theorem draw_eq_ite (tolerance least greatest step : Float) (nonzero : Bool) (r : Random) :
    let last := lastIndex least greatest step
    let value (k : Nat) := drawn last least step ((advance last)^[k] r)
    (∀ k, ∃ i, 0 ≤ i ∧ i ≤ max 0 last ∧ value k = least + step * Double.ofInt i) ∧
      ∃ n < drawLimit,
        (∀ k < n, wanted tolerance nonzero (value k) = false) ∧
        (wanted tolerance nonzero (value n) = true ∨ n + 1 = drawLimit) ∧
        draw tolerance least greatest step nonzero r =
          if Double.wordLimit ≤ (greatest - least) / step then .error .overflow
          else .ok (value n, (advance last)^[n + 1] r) := by
  intro last value
  have hlast : Word.Fits last := fits_lastIndex least greatest step
  refine ⟨fun k => exists_drawn_eq hlast least step _, ?_⟩
  obtain ⟨n, hn, hbefore, hend, hdraw⟩ :=
    drawWanted_eq hlast least step (wanted tolerance nonzero) (drawLimit - 1) r
  have hlimit : 0 < drawLimit := by decide
  refine ⟨n, by omega, hbefore, hend.imp_right fun h => by omega, ?_⟩
  rw [draw, count_eq]
  split_ifs
  · rfl
  · exact hdraw

/-- A range of `10 ^ 300` in steps of one has a count that traps, and so has the range up to one in
steps of zero. -/
theorem draw_overflows :
    draw 1e-9 0 1e300 1 false (Random.ofSeed 1234) = .error .overflow ∧
      draw 1e-9 0 1 0 false (Random.ofSeed 1234) = .error .overflow := by
  constructor
  · rw [draw, count_eq, if_pos (by decide +kernel)]
    rfl
  · rw [draw, count_eq, if_pos (by decide +kernel)]
    rfl

end Parameter

end Formulary
