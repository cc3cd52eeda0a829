import Formulary.Proofs.Exact.Functions
import Formulary.Rule.Standard
import Mathlib.Algebra.Order.Ring.Rat
import Mathlib.Tactic.FieldSimp
import Mathlib.Tactic.Ring

/-!
# The laws behind the standard rules

A law is an equation between expressions that holds for whatever stands in the place of its names:
its sides have the same exact value wherever both have one. The laws are grouped by what makes them
hold: arithmetic in a ring (`ringLaws`), quotients (`quotientLaws`), and powers, where a base of
zero has to be set apart (`powerLaws`).

The rules of the standard catalogs, as they are read, are instances of these laws.
-/

namespace Formulary

open Exact

namespace Rule

/-- The sides of a rule. -/
def sides (r : Rule) : Expr × Expr := (r.pattern, r.replacement)

end Rule

/-- Both sides have the same value wherever both have one. -/
def Law (law : Expr × Expr) : Prop :=
  ∀ ⦃I : Interpretation⦄ ⦃ρ : Assignment⦄ ⦃p q : ℚ⦄,
    value I law.1 ρ = some p → value I law.2 ρ = some q → p = q

namespace Laws

local instance : Add Expr := ⟨.binary .add⟩
local instance : Sub Expr := ⟨.binary .sub⟩
local instance : Mul Expr := ⟨.binary .mul⟩
local instance : Div Expr := ⟨.binary .div⟩
local instance : Pow Expr Expr := ⟨.binary .pow⟩
local instance : Neg Expr := ⟨.unary .neg⟩
local instance : Inv Expr := ⟨.unary .recip⟩
local instance (n : Nat) : OfNat Expr n := ⟨.ofInt n⟩

/-! ## Values of the sides -/

section Values

variable {I : Interpretation} {ρ : Assignment} {q : ℚ} {u v : Expr}

theorem value_add : value I (u + v) ρ = some q ↔
    ∃ r, value I u ρ = some r ∧ ∃ s, value I v ρ = some s ∧ r + s = q := by
  refine value_binary.trans ?_
  simp only [Exact.binary, Option.some.injEq]

theorem value_sub : value I (u - v) ρ = some q ↔
    ∃ r, value I u ρ = some r ∧ ∃ s, value I v ρ = some s ∧ r - s = q := by
  refine value_binary.trans ?_
  simp only [Exact.binary, Option.some.injEq]

theorem value_mul : value I (u * v) ρ = some q ↔
    ∃ r, value I u ρ = some r ∧ ∃ s, value I v ρ = some s ∧ r * s = q := by
  refine value_binary.trans ?_
  simp only [Exact.binary, Option.some.injEq]

theorem value_div : value I (u / v) ρ = some q ↔
    ∃ r, value I u ρ = some r ∧ ∃ s, value I v ρ = some s ∧ s ≠ 0 ∧ r / s = q := by
  refine value_binary.trans ?_
  simp [Exact.binary, quotient]

/-- A power is defined for integer exponents, and at zero for positive ones. -/
theorem power_eq_some {r s q : ℚ} :
    power r s = some q ↔ ∃ k : ℤ, s = k ∧ (r ≠ 0 ∨ 0 < k) ∧ r ^ k = q := by
  unfold power
  constructor
  · intro h
    split at h
    · rename_i hk
      exact ⟨s.num, (Rat.den_eq_one_iff s).1 hk.1 |>.symm, hk.2, by simpa using h⟩
    · cases h
  · rintro ⟨k, rfl, hk, rfl⟩
    simp [hk]

theorem value_pow : value I (u ^ v) ρ = some q ↔
    ∃ r, value I u ρ = some r ∧ ∃ k : ℤ, value I v ρ = some (k : ℚ) ∧
      (r ≠ 0 ∨ 0 < k) ∧ r ^ k = q := by
  refine value_binary.trans ?_
  simp only [Exact.binary, power_eq_some]
  grind

theorem value_neg : value I (-u) ρ = some q ↔ ∃ r, value I u ρ = some r ∧ -r = q := by
  refine value_unary.trans ?_
  simp only [Exact.unary, Option.some.injEq]

theorem value_inv : value I u⁻¹ ρ = some q ↔ ∃ r, value I u ρ = some r ∧ r ≠ 0 ∧ r⁻¹ = q := by
  refine value_unary.trans ?_
  simp [Exact.unary, quotient]

theorem value_zero : value I 0 ρ = some 0 := rfl

theorem value_one : value I 1 ρ = some 1 := rfl

theorem value_minus_one : value I (.ofInt (-1)) ρ = some (-1) := rfl

end Values

/-! ## Laws -/

variable (u v w m n : Expr)

def ringLaws : List (Expr × Expr) :=
  [(0 + u, u), (u + 0, u), (0 - u, -u), (u - 0, u), (0 * u, 0), (u * 0, 0), (1 * u, u), (u * 1, u),
    (.ofInt (-1) * u, -u), (u * .ofInt (-1), -u), (u - u, 0), (u + -u, 0), (-u + u, 0),
    (-u + v, v - u), (u + -v, u - v), (-u + -v, -(u + v)), (-u - v, -(u + v)), (u - -v, u + v),
    (-u * v, -(u * v)), (u * -v, -(u * v)), (- -u, u), (u * v + -u * v, 0), (-u * v + u * v, 0),
    (u * (v + w), u * v + u * w), ((u + v) * w, u * w + v * w), (u * (v - w), u * v - u * w),
    ((u - v) * w, u * w - v * w)]

def quotientLaws : List (Expr × Expr) :=
  [(0 / u, 0), (u / 1, u), (-u / v, -(u / v)), (u / -v, -(u / v)), (u⁻¹⁻¹, u), (u / u, 1),
    (u * u⁻¹, 1), (u⁻¹ * u, 1), (u * v / (u * w), v / w)]

def powerLaws : List (Expr × Expr) :=
  [(u ^ (1 : Expr), u), (u ^ (0 : Expr), 1), ((1 : Expr) ^ u, 1), (u * u, u ^ (2 : Expr)),
    (u * u ^ n, u ^ (n + 1)), (u ^ n * u, u ^ (n + 1)), (u ^ m * u ^ n, u ^ (m + n)),
    (u ^ m / u ^ n, u ^ (m - n)), (u ^ m * v / (u ^ n * w), u ^ (m - n) * v / w),
    (u ^ (-m), 1 / u ^ m), (u ^ (-m) * v / w, v / (u ^ m * w)), (v * u ^ (-m) / w, v / (u ^ m * w)),
    (v / (u ^ (-m) * w), u ^ m * v / w), (v / (w * u ^ (-m)), u ^ m * v / w)]

/-! ## Arithmetic in a ring -/

theorem law_of_ring : ∀ law ∈ ringLaws u v w, Law law := by
  simp only [ringLaws, List.forall_mem_cons, List.not_mem_nil, IsEmpty.forall_iff, implies_true,
    and_true]
  refine ⟨?_, ?_, ?_, ?_, ?_, ?_, ?_, ?_, ?_, ?_, ?_, ?_, ?_, ?_, ?_, ?_, ?_, ?_, ?_, ?_, ?_, ?_, ?_,
    ?_, ?_, ?_, ?_⟩
  all_goals
    intro I ρ p q hp hq
    simp only [value_add, value_sub, value_mul, value_neg, value_zero, value_one,
      value_minus_one, Option.some.injEq] at hp hq
    grind

/-! ## Quotients -/

/-- The laws of quotients hold where both sides are defined. -/
theorem law_of_quotient : ∀ law ∈ quotientLaws u v w, Law law := by
  simp only [quotientLaws, List.forall_mem_cons, List.not_mem_nil, IsEmpty.forall_iff,
    implies_true, and_true]
  refine ⟨?_, ?_, ?_, ?_, ?_, ?_, ?_, ?_, ?_⟩
  all_goals
    intro I ρ p q hp hq
    simp only [value_mul, value_div, value_inv, value_neg, value_zero, value_one,
      Option.some.injEq] at hp hq
    grind

/-! ## Powers -/

section Powers

variable {I : Interpretation} {ρ : Assignment} {q r : ℚ} {k l : ℤ} {u m n}

/-- Powers of zero have positive exponents, so that exponents add up. -/
theorem zpow_add_of_defined (hk : r ≠ 0 ∨ 0 < k) (hl : r ≠ 0 ∨ 0 < l) :
    r ^ (k + l) = r ^ k * r ^ l := by
  refine zpow_add' ?_
  grind

theorem ne_zero_of_zpow (hk : r ≠ 0 ∨ 0 < k) (h : r ^ k ≠ 0) : r ≠ 0 := by
  rcases hk with hr | hk
  · exact hr
  · rintro rfl
    exact h (zero_zpow k hk.ne')

/-- The power of a base to an exponent. -/
theorem eq_of_value_pow (hu : value I u ρ = some r) (hm : value I m ρ = some (k : ℚ))
    (h : value I (u ^ m) ρ = some q) : (r ≠ 0 ∨ 0 < k) ∧ q = r ^ k := by
  obtain ⟨_, hu', l, hm', hl, rfl⟩ := value_pow.1 h
  cases hu.symm.trans hu'
  cases Int.cast_injective (Option.some.inj (hm.symm.trans hm'))
  exact ⟨hl, rfl⟩

theorem value_exponent_add (hm : value I m ρ = some (k : ℚ)) (hn : value I n ρ = some (l : ℚ)) :
    value I (m + n) ρ = some ((k + l : ℤ) : ℚ) :=
  value_add.2 ⟨k, hm, l, hn, (Int.cast_add k l).symm⟩

theorem value_exponent_sub (hm : value I m ρ = some (k : ℚ)) (hn : value I n ρ = some (l : ℚ)) :
    value I (m - n) ρ = some ((k - l : ℤ) : ℚ) :=
  value_sub.2 ⟨k, hm, l, hn, (Int.cast_sub k l).symm⟩

theorem value_exponent_one : value I 1 ρ = some ((1 : ℤ) : ℚ) := rfl

/-- A power with a negated exponent, beside the power itself. -/
theorem zpow_of_value_neg {s : ℚ} (hs : value I (u ^ (-m)) ρ = some s)
    (hq : value I (u ^ m) ρ = some q) : q ≠ 0 ∧ s = q⁻¹ := by
  obtain ⟨r, hu, k, hm, hk, rfl⟩ := value_pow.1 hq
  have hneg : value I (-m) ρ = some ((-k : ℤ) : ℚ) :=
    value_neg.2 ⟨k, hm, (Int.cast_neg k).symm⟩
  obtain ⟨hk', rfl⟩ := eq_of_value_pow hu hneg hs
  have hr : r ≠ 0 := by
    rcases hk with hr | hk
    · exact hr
    · exact hk'.resolve_right (by omega)
  exact ⟨zpow_ne_zero k hr, zpow_neg r k⟩

end Powers

theorem law_pow_one : Law (u ^ (1 : Expr), u) := by
  intro I ρ p q hp hq
  obtain ⟨-, rfl⟩ := eq_of_value_pow hq value_exponent_one hp
  exact zpow_one q

theorem law_pow_zero : Law (u ^ (0 : Expr), 1) := by
  intro I ρ p q hp hq
  obtain ⟨r, hu, -⟩ := value_pow.1 hp
  obtain ⟨-, rfl⟩ := eq_of_value_pow (k := 0) hu rfl hp
  cases hq
  exact zpow_zero r

theorem law_one_pow : Law ((1 : Expr) ^ u, 1) := by
  intro I ρ p q hp hq
  obtain ⟨r, hr, k, -, -, rfl⟩ := value_pow.1 hp
  cases hr
  cases hq
  exact one_zpow k

theorem law_mul_self : Law (u * u, u ^ (2 : Expr)) := by
  intro I ρ p q hp hq
  obtain ⟨r, hu, _, hu', rfl⟩ := value_mul.1 hp
  cases hu.symm.trans hu'
  obtain ⟨-, rfl⟩ := eq_of_value_pow (k := 2) hu rfl hq
  rw [zpow_ofNat, sq]

theorem law_pow_add : Law (u ^ m * u ^ n, u ^ (m + n)) := by
  intro I ρ p q hp hq
  obtain ⟨_, hum, _, hun, rfl⟩ := value_mul.1 hp
  obtain ⟨r, hu, k, hm, hk, rfl⟩ := value_pow.1 hum
  obtain ⟨_, hu', l, hn, hl, rfl⟩ := value_pow.1 hun
  cases hu.symm.trans hu'
  obtain ⟨-, rfl⟩ := eq_of_value_pow hu (value_exponent_add hm hn) hq
  exact (zpow_add_of_defined hk hl).symm

theorem law_pow_succ : Law (u ^ n * u, u ^ (n + 1)) := by
  intro I ρ p q hp hq
  obtain ⟨_, hun, s, hu, rfl⟩ := value_mul.1 hp
  obtain ⟨_, hu', k, hn, hk, rfl⟩ := value_pow.1 hun
  cases hu.symm.trans hu'
  obtain ⟨-, rfl⟩ := eq_of_value_pow hu (value_exponent_add hn value_exponent_one) hq
  rw [zpow_add_of_defined hk (.inr one_pos), zpow_one]

theorem law_pow_succ' : Law (u * u ^ n, u ^ (n + 1)) := by
  intro I ρ p q hp hq
  obtain ⟨r, hu, s, hun, rfl⟩ := value_mul.1 hp
  exact law_pow_succ u n (value_mul.2 ⟨s, hun, r, hu, mul_comm s r⟩) hq

theorem law_pow_mul_div : Law (u ^ m * v / (u ^ n * w), u ^ (m - n) * v / w) := by
  intro I ρ p q hp hq
  obtain ⟨_, hnum, _, hden, hne, rfl⟩ := value_div.1 hp
  obtain ⟨_, hum, b, hv, rfl⟩ := value_mul.1 hnum
  obtain ⟨_, hun, c, hw, rfl⟩ := value_mul.1 hden
  obtain ⟨_, hnum', _, hw', hc, rfl⟩ := value_div.1 hq
  obtain ⟨_, hdiff, _, hv', rfl⟩ := value_mul.1 hnum'
  cases hv.symm.trans hv'
  cases hw.symm.trans hw'
  obtain ⟨r, hu, k, hm, -, rfl⟩ := value_pow.1 hum
  obtain ⟨_, hu', l, hn, hl, rfl⟩ := value_pow.1 hun
  cases hu.symm.trans hu'
  obtain ⟨-, rfl⟩ := eq_of_value_pow hu (value_exponent_sub hm hn) hdiff
  have hr : r ≠ 0 := ne_zero_of_zpow hl (left_ne_zero_of_mul hne)
  rw [zpow_sub₀ hr]
  field_simp

theorem law_pow_div : Law (u ^ m / u ^ n, u ^ (m - n)) := by
  intro I ρ p q hp hq
  obtain ⟨_, hum, _, hun, hne, rfl⟩ := value_div.1 hp
  obtain ⟨r, hu, k, hm, -, rfl⟩ := value_pow.1 hum
  obtain ⟨_, hu', l, hn, hl, rfl⟩ := value_pow.1 hun
  cases hu.symm.trans hu'
  obtain ⟨-, rfl⟩ := eq_of_value_pow hu (value_exponent_sub hm hn) hq
  exact (zpow_sub₀ (ne_zero_of_zpow hl hne) k l).symm

theorem law_pow_neg : Law (u ^ (-m), 1 / u ^ m) := by
  intro I ρ p q hp hq
  obtain ⟨_, hone, s, hs, -, rfl⟩ := value_div.1 hq
  cases value_one.symm.trans hone
  rw [(zpow_of_value_neg hp hs).2, one_div]

theorem law_pow_neg_div : Law (u ^ (-m) * v / w, v / (u ^ m * w)) := by
  intro I ρ p q hp hq
  obtain ⟨_, hnum, c, hw, hc, rfl⟩ := value_div.1 hp
  obtain ⟨s, hs, b, hv, rfl⟩ := value_mul.1 hnum
  obtain ⟨_, hv', _, hden, hne, rfl⟩ := value_div.1 hq
  obtain ⟨t, ht, _, hw', rfl⟩ := value_mul.1 hden
  cases hv.symm.trans hv'
  cases hw.symm.trans hw'
  obtain ⟨ht0, rfl⟩ := zpow_of_value_neg hs ht
  field_simp

theorem law_mul_pow_neg_div : Law (v * u ^ (-m) / w, v / (u ^ m * w)) := by
  intro I ρ p q hp hq
  obtain ⟨_, hnum, c, hw, hc, rfl⟩ := value_div.1 hp
  obtain ⟨b, hv, s, hs, rfl⟩ := value_mul.1 hnum
  refine law_pow_neg_div u v w m (value_div.2 ⟨_, value_mul.2 ⟨s, hs, b, hv, rfl⟩, c, hw, hc, ?_⟩) hq
  rw [mul_comm]

theorem law_div_pow_neg : Law (v / (u ^ (-m) * w), u ^ m * v / w) := by
  intro I ρ p q hp hq
  obtain ⟨b, hv, _, hden, hne, rfl⟩ := value_div.1 hp
  obtain ⟨s, hs, c, hw, rfl⟩ := value_mul.1 hden
  obtain ⟨_, hnum, _, hw', hc, rfl⟩ := value_div.1 hq
  obtain ⟨t, ht, _, hv', rfl⟩ := value_mul.1 hnum
  cases hv.symm.trans hv'
  cases hw.symm.trans hw'
  obtain ⟨ht0, rfl⟩ := zpow_of_value_neg hs ht
  field_simp

theorem law_div_mul_pow_neg : Law (v / (w * u ^ (-m)), u ^ m * v / w) := by
  intro I ρ p q hp hq
  obtain ⟨b, hv, _, hden, hne, rfl⟩ := value_div.1 hp
  obtain ⟨c, hw, s, hs, rfl⟩ := value_mul.1 hden
  rw [mul_comm] at hne ⊢
  exact law_div_pow_neg u v w m (value_div.2 ⟨b, hv, _, value_mul.2 ⟨s, hs, c, hw, rfl⟩, hne, rfl⟩) hq

/-- The laws of powers hold where both sides are defined. -/
theorem law_of_power : ∀ law ∈ powerLaws u v w m n, Law law := by
  simp only [powerLaws, List.forall_mem_cons, List.not_mem_nil, IsEmpty.forall_iff, implies_true,
    and_true]
  exact ⟨law_pow_one u, law_pow_zero u, law_one_pow u, law_mul_self u, law_pow_succ' u n,
    law_pow_succ u n, law_pow_add u m n, law_pow_div u m n, law_pow_mul_div u v w m n,
    law_pow_neg u m, law_pow_neg_div u v w m, law_mul_pow_neg_div u v w m, law_div_pow_neg u v w m,
    law_div_mul_pow_neg u v w m⟩

/-! ## The standard catalogs -/

/-- All laws. -/
def all : List (Expr × Expr) := ringLaws u v w ++ quotientLaws u v w ++ powerLaws u v w m n

theorem law_of_mem {law : Expr × Expr} (h : law ∈ all u v w m n) : Law law := by
  rw [all, List.mem_append, List.mem_append] at h
  rcases h with (h | h) | h
  · exact law_of_ring u v w law h
  · exact law_of_quotient u v w law h
  · exact law_of_power u v w m n law h

/-- A catalog has as many rules as there are equations, and the sides of each are those of a law. -/
abbrev Covers (laws : List (Expr × Expr)) (equations : List (String × String)) (c : Catalog) :
    Prop :=
  c.rules.length = equations.length ∧ ∀ r ∈ c.rules, r.sides ∈ laws

theorem covers_reductions : Covers (all (.var "x") (.var "y") (.var "x") (.var "a") (.var "a"))
    Catalog.reductionRules (.reductions {}) := by
  decide +kernel

theorem covers_sums : Covers (all (.var "a") (.var "b") (.var "c") (.var "a") (.var "a"))
    Catalog.sumRules (.sums {}) := by
  decide +kernel

theorem covers_products : Covers (all (.var "a") (.var "b") (.var "c") (.var "m") (.var "n"))
    Catalog.productRules (.products {}) := by
  decide +kernel

end Laws

/-- The rules of the standard catalogs. -/
def standardRules : List Rule :=
  (Catalog.reductions {}).rules ++ (Catalog.sums {}).rules ++ (Catalog.products {}).rules

/-- The standard rules are identities: the sides of each, as they are read, have the same value
under every assignment under which both are defined. -/
theorem standard_rules_hold :
    standardRules.length =
        (Catalog.reductionRules ++ Catalog.sumRules ++ Catalog.productRules).length ∧
      ∀ r ∈ standardRules, ∀ (I : Interpretation) (ρ : Assignment) (p q : ℚ),
        value I r.pattern ρ = some p → value I r.replacement ρ = some q → p = q := by
  obtain ⟨hreductions, hreductionLaws⟩ := Laws.covers_reductions
  obtain ⟨hsums, hsumLaws⟩ := Laws.covers_sums
  obtain ⟨hproducts, hproductLaws⟩ := Laws.covers_products
  refine ⟨?_, fun r hr I ρ p q hp hq => ?_⟩
  · simp only [standardRules, List.length_append, hreductions, hsums, hproducts]
  · have hlaw : Law r.sides := by
      rw [standardRules, List.mem_append, List.mem_append] at hr
      rcases hr with (hr | hr) | hr
      · exact Laws.law_of_mem _ _ _ _ _ (hreductionLaws r hr)
      · exact Laws.law_of_mem _ _ _ _ _ (hsumLaws r hr)
      · exact Laws.law_of_mem _ _ _ _ _ (hproductLaws r hr)
    exact hlaw hp hq

/-- The rule `(a^-m*b)/c==b/(a^m*c)`, as it is read, at a point where both sides are defined. -/
theorem standard_rules_hold_for_negative_power :
    ∃ r ∈ standardRules, r.pattern.text = "a^(-m)*b/c" ∧
      ∃ (I : Interpretation) (ρ : Assignment) (p q : ℚ),
        value I r.pattern ρ = some p ∧ value I r.replacement ρ = some q ∧ p = 3 / 10 ∧ p = q := by
  let a : Expr := .var "a"
  let b : Expr := .var "b"
  let c : Expr := .var "c"
  let m : Expr := .var "m"
  let r : Rule :=
    { pattern := .binary .div (.binary .mul (.binary .pow a (.unary .neg m)) b) c
      replacement := .binary .div b (.binary .mul (.binary .pow a m) c)
      description := "Rewrite Using Positive Powers"
      valid := true
      active := true
      id := 15 }
  let I : Interpretation := FunctionValues.interpretation fun _ _ _ => none
  let ρ : Assignment := fun name => [("a", 2), ("b", 3), ("c", 5), ("m", 1)].lookup name
  have hr : r ∈ standardRules := List.mem_append_right _ (by decide +kernel)
  have hp : value I r.pattern ρ = some (3 / 10) := by decide +kernel
  have hq : value I r.replacement ρ = some (3 / 10) := by decide +kernel
  exact ⟨r, hr, by decide +kernel, I, ρ, _, _, hp, hq, rfl,
    standard_rules_hold.2 r hr I ρ _ _ hp hq⟩

end Formulary
