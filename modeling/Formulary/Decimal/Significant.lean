import Formulary.Decimal.Shortest

/-!
# Decimals with a fixed number of digits

A positive fraction rounded to a given number of significant digits; an exact tie goes to the even
digit.
-/

namespace Formulary.Decimal

/-- The whole number nearest to a fraction; a half goes to the even neighbour. -/
def roundHalfEven (num den : Nat) : Nat :=
  let q := num / den
  let r := num % den
  if 2 * r < den then q
  else if 2 * r = den then q + q % 2
  else q + 1

/-- The positive fraction `num / den` to `count` significant digits. Rounding up may reach the next
decade, which has one digit more. -/
def significant (num den count : Nat) : Decimal :=
  let scale := decade num den + 1 - count
  let (ten, tenth) := powerFraction 10 scale
  let digits := roundHalfEven (num * tenth) (den * ten)
  if digits = Nat.pow 10 count then ⟨Nat.pow 10 (count - 1), scale + 1⟩ else ⟨digits, scale⟩

end Formulary.Decimal
