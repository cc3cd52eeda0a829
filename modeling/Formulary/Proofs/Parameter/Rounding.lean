import Formulary.Parameter
import Formulary.Proofs.Double.Rounding

/-!
# Rounding to a precision

A value is rounded to a precision by two roundings to whole numbers: the value is measured in steps
of the precision, and the steps are divided by how many of them make one. The second number is
rounded as well, and so the steps are measured with one precision and put back with another, unless
the precision is the reciprocal of a whole number.

The function is written once for any arithmetic (`roundToWith`): over the doubles it is the one of
the program, and over the fractions its divisions are exact and may be undefined. The two round
alike (`ratio?_round_doubles`).
-/

namespace Formulary.Parameter

/-- The operations that a value is rounded with. -/
structure Arithmetic (α : Type) where
  one : α
  divide? : α → α → Option α
  round : α → α

/-- The arithmetic of the program. Every division of doubles has a result. -/
def Arithmetic.doubles : Arithmetic Float where
  one := 1
  divide? a b := some (a / b)
  round := Double.round

/-- The arithmetic without rounding errors, where nothing is divided by zero. -/
def Arithmetic.fractions : Arithmetic ℚ where
  one := 1
  divide? a b := if b = 0 then none else some (a / b)
  round x := Exact.nearest x

/-- A value rounded to a multiple of a precision. -/
def roundToWith {α : Type} (A : Arithmetic α) (precision value : α) : Option α := do
  let steps ← A.divide? value precision
  let perOne ← A.divide? A.one precision
  A.divide? (A.round steps) (A.round perOne)

theorem roundToWith_doubles (precision value : Float) :
    roundToWith .doubles precision value = some (roundTo precision value) := rfl

theorem ratio?_round_doubles {v : Float} {x : ℚ} (hv : Double.ratio? v = some x) :
    Double.ratio? (Arithmetic.doubles.round v) = some (Arithmetic.fractions.round x) :=
  Double.ratio?_round hv

/-- A multiple of the precision that is no further from the value than half the precision. -/
def IsNearestMultiple (p v w : ℚ) : Prop := (∃ k : ℤ, w = k * p) ∧ |w - v| ≤ p / 2

variable {p v w : ℚ}

/-! ## The steps that make one -/

/-- A positive number is rounded to zero below a half. -/
theorem nearest_eq_zero_iff (hp : 0 ≤ p) : Exact.nearest p = 0 ↔ p < 1 / 2 := by
  rw [Exact.nearest, if_neg (not_lt.2 hp), round_eq, Int.floor_eq_zero_iff, Set.mem_Ico]
  constructor
  · rintro ⟨-, h⟩
    linarith
  · intro h
    exact ⟨by linarith, by linarith⟩

theorem nearest_inv_eq_zero_iff (hp : 0 < p) : Exact.nearest (1 / p) = 0 ↔ 2 < p := by
  rw [nearest_eq_zero_iff (by positivity)]
  exact one_div_lt_one_div hp two_pos

/-- The value is measured in steps of `p`, and put back in steps of another precision. -/
theorem roundToWith_fractions (hp : 0 < p) (v : ℚ) :
    roundToWith .fractions p v =
      if p ≤ 2 then some ((Exact.nearest (v / p) : ℚ) / (Exact.nearest (1 / p) : ℚ)) else none := by
  have hzero : ((Exact.nearest (1 / p) : ℤ) : ℚ) = 0 ↔ ¬p ≤ 2 := by
    rw [Int.cast_eq_zero, nearest_inv_eq_zero_iff hp, not_le]
  simp only [roundToWith, Arithmetic.fractions, if_neg hp.ne', Option.bind_eq_bind,
    Option.bind_some, hzero, ite_not]

/-! ## Reciprocals of whole numbers -/

/-- If a whole number of steps makes one, the nearest whole number of steps is put back. -/
theorem isNearestMultiple_of_reciprocal {n : ℕ} (hn : 0 < n) (v : ℚ) :
    IsNearestMultiple (1 / n) v (Exact.nearest (v / (1 / n)) / Exact.nearest (1 / (1 / n))) := by
  have hperOne : Exact.nearest (1 / (1 / (n : ℚ))) = n := by
    rw [one_div_one_div]
    exact Exact.nearest_intCast n
  have hpos : (0 : ℚ) < n := Nat.cast_pos.2 hn
  have hnear := Exact.abs_nearest_sub (v / (1 / n))
  rw [hperOne, Int.cast_natCast]
  generalize Exact.nearest (v / (1 / n)) = k at hnear ⊢
  refine ⟨⟨k, by rw [mul_one_div]⟩, ?_⟩
  calc |(k : ℚ) / n - v|
    _ = |(k - v / (1 / n)) * (1 / n)| := by
      congr 1
      field_simp
    _ = |k - v / (1 / n)| * (1 / n) := by rw [abs_mul, abs_of_pos (one_div_pos.2 hpos)]
    _ ≤ 1 / 2 * (1 / n) := by gcongr
    _ = 1 / n / 2 := by ring

/-- The only multiple of `p` near `p` is `p` itself. -/
theorem eq_of_isNearestMultiple_self (hp : 0 < p) (h : IsNearestMultiple p p w) : w = p := by
  obtain ⟨⟨k, rfl⟩, hdistance⟩ := h
  have hfactor : (k : ℚ) * p - p = (k - 1 : ℤ) * p := by
    push_cast
    ring
  rw [hfactor, abs_mul, abs_of_pos hp, ← Int.cast_abs, div_eq_inv_mul] at hdistance
  have hsmall : ((|k - 1| : ℤ) : ℚ) ≤ 2⁻¹ := le_of_mul_le_mul_right hdistance hp
  have hlt : |k - 1| < 1 := by
    have : ((|k - 1| : ℤ) : ℚ) < (1 : ℤ) := lt_of_le_of_lt hsmall (by norm_num)
    exact_mod_cast this
  rw [sub_eq_zero.1 (Int.abs_lt_one_iff.1 hlt), Int.cast_one, one_mul]

/-- A precision that is rounded to itself is the reciprocal of the steps that make one. -/
theorem exists_eq_reciprocal (hp : 0 < p) (h : roundToWith .fractions p p = some p) :
    ∃ n : ℕ, 0 < n ∧ p = 1 / n := by
  rw [roundToWith_fractions hp, div_self hp.ne'] at h
  split_ifs at h
  have hone : Exact.nearest 1 = 1 := by simpa using Exact.nearest_intCast 1
  have hvalue : 1 / (Exact.nearest (1 / p) : ℚ) = p := by
    rw [hone, Int.cast_one] at h
    exact Option.some.inj h
  have hpos : 0 < Exact.nearest (1 / p) := by
    rw [← hvalue, one_div_pos] at hp
    exact_mod_cast hp
  lift Exact.nearest (1 / p) to ℕ using hpos.le with n hn
  rw [Int.cast_natCast] at hvalue
  exact ⟨n, by exact_mod_cast hpos, hvalue.symm⟩

theorem one_div_le_two {n : ℕ} (hn : 0 < n) : 1 / (n : ℚ) ≤ 2 := by
  have hone : 1 / (n : ℚ) ≤ 1 := (div_le_one (Nat.cast_pos.2 hn)).2 (by exact_mod_cast hn)
  linarith

/-! ## Which precisions are kept -/

/-- The rounding of the program, read over the fractions, is defined up to the precision two. It
gives a nearest multiple of the precision for every value if and only if the precision is the
reciprocal of a whole number. Over the doubles it is the same function, and both round to whole
numbers alike. -/
theorem roundToWith_nearest_iff {p : ℚ} (hp : 0 < p) :
    (∀ precision value, roundToWith .doubles precision value = some (roundTo precision value)) ∧
      (∀ v x, Double.ratio? v = some x →
        Double.ratio? (Arithmetic.doubles.round v) = some (Arithmetic.fractions.round x)) ∧
      (∀ v, (roundToWith .fractions p v).isSome = true ↔ p ≤ 2) ∧
      ((∀ v, ∃ w, roundToWith .fractions p v = some w ∧ IsNearestMultiple p v w) ↔
        ∃ n : ℕ, 0 < n ∧ p = 1 / n) := by
  refine ⟨roundToWith_doubles, fun _ _ => ratio?_round_doubles, fun v => ?_, fun h => ?_, ?_⟩
  · rw [roundToWith_fractions hp]
    split_ifs with h <;> simp [h]
  · -- the value `p` itself is one step, and has to be put back as such
    obtain ⟨w, hw, hnearest⟩ := h p
    rw [eq_of_isNearestMultiple_self hp hnearest] at hw
    exact exists_eq_reciprocal hp hw
  · rintro ⟨n, hn, rfl⟩ v
    refine ⟨_, ?_, isNearestMultiple_of_reciprocal hn v⟩
    rw [roundToWith_fractions hp, if_pos (one_div_le_two hn)]

/-- A value rounded to tenths. -/
theorem roundToWith_nearest_tenth :
    (0 : ℚ) < 1 / 10 ∧
      ∃ w, roundToWith .fractions (1 / 10) (37 / 100) = some w ∧
        IsNearestMultiple (1 / 10) (37 / 100) w :=
  ⟨by norm_num, (roundToWith_nearest_iff (by norm_num)).2.2.2.2 ⟨10, by norm_num, by norm_num⟩ _⟩

/-- Ten is a multiple of two, but rounded to a multiple of two it is five; and no value can be
rounded to a multiple of three. The doubles give five as well, and an infinite value. -/
theorem roundToWith_two_three :
    roundToWith .fractions 2 10 = some 5 ∧ ¬IsNearestMultiple 2 10 5 ∧
      roundToWith .fractions 3 9 = none ∧
      roundTo 2 10 = 5 ∧ Double.ratio? (roundTo 3 9) = none := by
  refine ⟨?_, ?_, ?_, ?_, ?_⟩
  · decide +kernel
  · rintro ⟨-, h⟩
    norm_num at h
  · decide +kernel
  · decide +kernel
  · decide +kernel

end Formulary.Parameter
