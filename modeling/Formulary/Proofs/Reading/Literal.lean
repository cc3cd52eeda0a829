import Formulary.Proofs.Double.Whole
import Formulary.Reading.Formula
import Mathlib.Data.List.TakeWhile

/-!
# Whole number literals

A literal of digits alone is read as the integer it writes, as long as the integer is below
`9 * 10 ^ 15`: the double it is read through is whole, and `Number.ofDouble` makes it exact again.
-/

namespace Formulary

/-- Literals below this bound are read and written without loss. -/
def literalBound : Nat := 9000000000000000

/-- The text is a literal without a point or an exponent. -/
def IsWhole (cs : List Char) : Prop := cs ≠ [] ∧ ∀ c ∈ cs, c.isDigit = true

instance (cs : List Char) : Decidable (IsWhole cs) :=
  decidable_of_iff ((!cs.isEmpty && cs.all Char.isDigit) = true) (by simp [IsWhole])

namespace Decimal

theorem is_toDouble {n : Nat} (hn : n < literalBound) : Double.Is (toDouble ⟨n, 0⟩) n := by
  have hlen : length n ≤ 16 :=
    (Nat.length_toDigits_le_iff (by decide) (by decide)).2 (by unfold literalBound at hn; omega)
  unfold toDouble
  by_cases h : n = 0
  · subst h
    exact Double.is_zero
  · have hlow : ¬ ((length n : Int) + 0 < -330) := by omega
    have hhigh : ¬ (310 < (length n : Int) + 0) := by omega
    have hpow : n * Nat.pow 10 (0 : Int).toNat = n := by simp
    simp only [h, hlow, hhigh, decide_false, Bool.or_self, Bool.false_eq_true, if_false, le_refl,
      if_true, hpow]
    exact Double.is_ofScientific (by unfold literalBound at hn; omega)

theorem natOfDigits_toDigits (n : Nat) : natOfDigits (Nat.toDigits 10 n) = n := by
  rw [natOfDigits, ← Nat.ofDigitChars_eq_foldl, Nat.ofDigitChars_ten_toDigits]

theorem isWhole_toDigits (n : Nat) : IsWhole (Nat.toDigits 10 n) :=
  ⟨Nat.toDigits_ne_nil, fun _ => Nat.isDigit_of_mem_toDigits (by decide) (by decide)⟩

theorem read?_of_isWhole {cs : List Char} (h : IsWhole cs) :
    read? cs = some ⟨natOfDigits cs, 0⟩ := by
  have htake : cs.takeWhile Char.isDigit = cs := List.takeWhile_eq_self_iff.2 h.2
  have hdrop : cs.dropWhile Char.isDigit = [] := List.dropWhile_eq_nil_iff.2 h.2
  simp [read?, htake, hdrop, h.1]

end Decimal

namespace Double

/-- A whole number is read without a fraction and an exponent. -/
theorem readUnsigned?_of_isWhole {cs : List Char} (h : IsWhole cs) :
    readUnsigned? cs = some (Decimal.toDouble ⟨Decimal.natOfDigits cs, 0⟩) := by
  have hne (text : String) (c : Char) (hc : c ∈ text.toList) (hd : c.isDigit = false) :
      String.ofList cs ≠ text := by
    intro heq
    have hmem : c ∈ cs := by rwa [← heq, String.toList_ofList] at hc
    rw [h.2 c hmem] at hd
    cases hd
  unfold readUnsigned?
  split
  · exact absurd ‹_› (hne "NaN" 'N' (by decide) (by decide))
  · exact absurd ‹_› (hne "inf" 'i' (by decide) (by decide))
  · rw [Decimal.read?_of_isWhole h, Option.map_some]

theorem read?_of_isWhole {text : String} (h : IsWhole text.toList) :
    read? text = some (Decimal.toDouble ⟨Decimal.natOfDigits text.toList, 0⟩) := by
  have hread := readUnsigned?_of_isWhole h
  unfold read?
  split
  · rename_i cs heq
    exact absurd (h.2 '-' (by simp [heq])) (by decide)
  · rename_i cs heq
    exact absurd (h.2 '+' (by simp [heq])) (by decide)
  · exact hread

end Double

namespace Reading

/-- A literal of digits alone is read as the integer it writes. -/
theorem number_of_isWhole {t : Token} (h : IsWhole t.lexeme.toList)
    (hn : Decimal.natOfDigits t.lexeme.toList < literalBound) :
    number {} t = .ofInt (Decimal.natOfDigits t.lexeme.toList) := by
  have hvalue := Number.ofDouble_of_is (Decimal.is_toDouble hn)
    (by unfold literalBound at hn; omega)
  simp only [number, Double.read?_of_isWhole h, Option.getD_some, hvalue]
  rfl

end Reading

end Formulary
