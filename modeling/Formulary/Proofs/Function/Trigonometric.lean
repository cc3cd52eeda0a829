import Formulary.Proofs.Differentiation
import Formulary.Proofs.Double.Quotient
import Mathlib.Analysis.SpecialFunctions.Trigonometric.Deriv

/-!
# Derivatives of trigonometric sums

The derivatives of sums of sines and cosines by the symbolic rules, over the reals. A `Wave` is what
differentiating a sine or cosine of a multiple of the name again and again leads to: its factors
pile up, and its signs cancel. A `Harmonic` is a sum of such waves with coefficients. Each shape
comes with the function it stands for, and the rules lead from a harmonic with a function to a
harmonic with the derivative of the function (`Harmonic.differentiate`), hence through all orders
(`Harmonic.iterate_differentiate`).

A coefficient may get lost on the way into a harmonic: the rules leave out what they take for one
(`taken`). Those that are in it are kept from then on.
-/

namespace Formulary

open Exact

/-! ## Values over the reals -/

namespace Expr

/-- The value of a unary operation over the reals. -/
noncomputable def realUnary? : UnaryOp → ℝ → Option ℝ
  | .plus, a => some a
  | .neg, a => some (-a)
  | .recip, a => if a = 0 then none else some (1 / a)

/-- The value of an arithmetic operation over the reals. -/
noncomputable def realBinary? : BinaryOp → ℝ → ℝ → Option ℝ
  | .add, a, b => some (a + b)
  | .sub, a, b => some (a - b)
  | .mul, a, b => some (a * b)
  | .div, a, b => if b = 0 then none else some (a / b)
  | _, _, _ => none

/-- The value of the sine and the cosine over the reals. -/
noncomputable def realFunction? : String → ℝ → Option ℝ
  | "sin", a => some (Real.sin a)
  | "cos", a => some (Real.cos a)
  | _, _ => none

/-- The value of a sum or product over the reals. -/
def realFamily : Family → List ℝ → ℝ
  | .sum, as => as.sum
  | .product, as => as.prod

mutual

/-- The value of an expression over the reals where a name has a value. Only what is put together
from exact literals, the name, arithmetic operations, sines and cosines has one. -/
noncomputable def realValue? (x : String) (t : ℝ) : Expr → Option ℝ
  | number n => (Exact.literal n).map fun r => (r : ℝ)
  | var name => if name = x then some t else none
  | unary op u => do realUnary? op (← realValue? x t u)
  | binary op u v => do realBinary? op (← realValue? x t u) (← realValue? x t v)
  | nary op us => do return realFamily op (← realValues? x t us)
  | call f 0 u => do realFunction? f (← realValue? x t u)
  | _ => none

/-- The values of several expressions over the reals. -/
noncomputable def realValues? (x : String) (t : ℝ) : List Expr → Option (List ℝ)
  | [] => some []
  | u :: us => do return (← realValue? x t u) :: (← realValues? x t us)

end

end Expr

open Formulary.Expr Formulary.Derivative

variable {closed : String → Nat → Expr → Option Expr} {again : Continue} {x : String} {k : ℕ}
  {e u v : Expr} {f g : ℝ → ℝ} {c : ℚ}

/-! ## Waves -/

/-- The argument of a wave. -/
def angle (x : String) (k : ℕ) : Expr := .binary .mul (.ofInt k) (.var x)

/-- A sine or cosine of a multiple of the name, negated and multiplied by the multiple any number of
times. -/
inductive Wave (x : String) (k : ℕ) : Expr → (ℝ → ℝ) → Prop where
  | sin : Wave x k (.call "sin" 0 (angle x k)) fun t => Real.sin (k * t)
  | cos : Wave x k (.call "cos" 0 (angle x k)) fun t => Real.cos (k * t)
  | neg {e : Expr} {f : ℝ → ℝ} : Wave x k e f → Wave x k (.unary .neg e) fun t => -f t
  | times {e : Expr} {f : ℝ → ℝ} : Wave x k e f →
      Wave x k (.nary .product [e, .ofInt k]) fun t => f t * k

/-- The multiple of a wave is a positive word. -/
structure IsMultiple (k : ℕ) : Prop where
  pos : 0 < k
  fits : Word.Fits k

theorem isUnit_multiple (hk : IsMultiple k) : isUnit (.ofInt k) = decide (k = 1) := by
  rw [ofInt, isUnit, Number.isOne_ofInt hk.fits]
  exact decide_eq_decide.2 (by omega)

theorem vanishes_multiple (hk : IsMultiple k) : vanishes (.ofInt k) = false := by
  rw [ofInt, vanishes, Number.isZero_ofInt hk.fits]
  exact decide_eq_false (by have := hk.pos; omega)

theorem vanishes_zero : vanishes (.ofInt 0) = true := by
  rw [ofInt, vanishes]
  exact Number.isZero_zero

theorem isMultiple_one : IsMultiple 1 := ⟨Nat.one_pos, by decide⟩

/-! ### Products of two factors -/

theorem product_of_vanishes (h : vanishes u = true ∨ vanishes v = true) :
    Derivative.product [u, v] = .ofInt 0 := by
  rw [Derivative.product, if_pos (by simpa using h)]

section

variable (hu : vanishes u = false) (hv : vanishes v = false)
include hu hv

theorem product_of_not_units (hnu : isUnit u = false) (hnv : isUnit v = false) :
    Derivative.product [u, v] = .nary .product [u, v] := by
  simp [Derivative.product, hu, hv, hnu, hnv]

theorem product_of_unit_left (hone : isUnit u = true) (hnv : isUnit v = false) :
    Derivative.product [u, v] = v := by
  simp [Derivative.product, hu, hv, hone, hnv]

theorem product_of_unit_right (hnu : isUnit u = false) (hone : isUnit v = true) :
    Derivative.product [u, v] = u := by
  simp [Derivative.product, hu, hv, hnu, hone]

theorem product_of_units (hone : isUnit u = true) (hone' : isUnit v = true) :
    Derivative.product [u, v] = .ofInt 1 := by
  simp [Derivative.product, hu, hv, hone, hone']

end

namespace Wave

theorem realValue? (h : Wave x k e f) (t : ℝ) : e.realValue? x t = some (f t) := by
  have hangle : (angle x k).realValue? x t = some (k * t) := by
    simp [angle, ofInt, Expr.realValue?, Number.ofInt, Exact.literal, realBinary?]
  induction h with
  | sin => simp [Expr.realValue?, hangle, realFunction?]
  | cos => simp [Expr.realValue?, hangle, realFunction?]
  | neg _ ih => simp [Expr.realValue?, ih, realUnary?]
  | times _ ih =>
    simp [Expr.realValue?, realValues?, ih, ofInt, Number.ofInt, Exact.literal, realFamily]

theorem vanishes_eq (h : Wave x k e f) (hk : IsMultiple k) : vanishes e = false := by
  induction h with
  | sin | cos => rfl
  | neg _ ih => exact ih
  | times _ ih => simp [vanishes, anyVanishes, ih, vanishes_multiple hk]

theorem isUnit_eq (h : Wave x k e f) : isUnit e = false := by
  induction h with
  | sin | cos | neg => rfl
  | times _ ih => simp [isUnit, allUnits, ih]

theorem mem_occurrences (h : Wave x k e f) (hx : Names.isSpecial x = false) :
    x ∈ e.occurrences := by
  have hangle : x ∈ (angle x k).occurrences := by simp [angle, ofInt, occurrences, hx]
  induction h with
  | sin | cos => exact hangle
  | neg _ ih => exact ih
  | times _ ih => simp [occurrences, occurrencesList, ih]

/-- A wave changes with the name. -/
theorem not_independent (h : Wave x k e f) (hx : Names.isSpecial x = false) (known : Scope) :
    independent x known e = false :=
  Bool.eq_false_iff.2 fun hindependent => ne_of_independent hindependent (h.mem_occurrences hx) rfl

/-- A negation of a negation is left out. -/
theorem negate (h : Wave x k e f) (hk : IsMultiple k) :
    Wave x k (Derivative.negate e) fun t => -f t := by
  have hvanishes : ¬ vanishes e = true := Bool.eq_false_iff.1 (h.vanishes_eq hk)
  rw [Derivative.negate.eq_def, if_neg hvanishes]
  cases h with
  | sin => exact .neg .sin
  | cos => exact .neg .cos
  | times h => exact .neg (.times h)
  | neg h => simpa only [neg_neg] using h

/-- A factor one is left out. -/
theorem product (h : Wave x k e f) (hk : IsMultiple k) :
    Wave x k (Derivative.product [e, .ofInt k]) fun t => f t * k := by
  have hvanishes := h.vanishes_eq hk
  have hmultiple := vanishes_multiple hk
  by_cases hone : k = 1
  · rw [product_of_unit_right hvanishes hmultiple h.isUnit_eq
      (by rw [isUnit_multiple hk, decide_eq_true hone])]
    simpa [hone] using h
  · rw [product_of_not_units hvanishes hmultiple h.isUnit_eq
      (by rw [isUnit_multiple hk, decide_eq_false hone])]
    exact .times h

end Wave

/-- The derivative of the angle is its multiple. -/
theorem differentiateWith_angle (hk : IsMultiple k) (hx : Names.isSpecial x = false) :
    (angle x k).differentiateWith closed again x [] = some (.ofInt k) := by
  have hvar : independent x [] (.var x) = false := by
    simp [independent, isInvalid, occurrences, hx]
  have hangle : independent x [] (angle x k) = false := by
    simp [independent, isInvalid, occurrences, angle, ofInt, hx]
  have hconstant : independent x [] (.ofInt k) = true := independent_ofInt _
  have hunit : isUnit (.ofInt 1) = true := isUnit_multiple isMultiple_one
  have hproduct : Derivative.product [.ofInt k, .ofInt 1] = .ofInt k := by
    have hmultiple := vanishes_multiple hk
    have hrest : vanishes (.ofInt 1) = false := vanishes_multiple isMultiple_one
    by_cases hone : k = 1
    · rw [product_of_units hmultiple hrest (by rw [isUnit_multiple hk, decide_eq_true hone]) hunit,
        hone, Nat.cast_one]
    · exact product_of_unit_right hmultiple hrest
        (by rw [isUnit_multiple hk, decide_eq_false hone]) hunit
  rw [angle, differentiateWith_binary (by decide) hangle,
    differentiateWith_independent hconstant, differentiateWith_var hvar]
  simp [Derivative.binary, Derivative.mul, hconstant, hproduct]

theorem hasDerivAt_multiple (k : ℕ) (t : ℝ) : HasDerivAt (fun t : ℝ => k * t) k t := by
  simpa using (hasDerivAt_id t).const_mul (k : ℝ)

/-- The derivative of a wave is a wave with the same multiple. -/
theorem Wave.differentiateWith (closed : String → ℕ → Expr → Option Expr) (again : Continue)
    (h : Wave x k e f) (hk : IsMultiple k)
    (hx : Names.isSpecial x = false) :
    ∃ e' f', e.differentiateWith closed again x [] = some e' ∧ Wave x k e' f' ∧
      ∀ t, HasDerivAt f (f' t) t := by
  induction h with
  | sin =>
    refine ⟨_, _, ?_, Wave.cos.product hk, fun t => (hasDerivAt_multiple k t).sin⟩
    rw [differentiateWith_call rfl (Wave.sin.not_independent hx []), differentiateWith_angle hk hx]
    rfl
  | cos =>
    refine ⟨_, _, ?_, (Wave.sin.negate hk).product hk, fun t => (hasDerivAt_multiple k t).cos⟩
    rw [differentiateWith_call rfl (Wave.cos.not_independent hx []), differentiateWith_angle hk hx]
    rfl
  | neg h ih =>
    obtain ⟨e', f', he', hwave, hderiv⟩ := ih
    refine ⟨_, _, ?_, hwave.negate hk, fun t => (hderiv t).neg⟩
    rw [differentiateWith_unary (h.neg.not_independent hx []), he']
    rfl
  | @times e f h ih =>
    obtain ⟨e', f', he', hwave, hderiv⟩ := ih
    refine ⟨_, _, ?_, hwave.product hk, fun t => (hderiv t).mul_const _⟩
    have hlist : differentiateList closed again [e, .ofInt k] x [] =
        some [⟨e, e'⟩, ⟨.ofInt k, .ofInt 0⟩] := by
      simp [differentiateList, he', differentiateWith_independent (independent_ofInt (x := x) _)]
    -- the factor `k` does not change, so only one term of the product rule is left
    have hterm : vanishes (Derivative.product [e', .ofInt k]) = false :=
      (hwave.product hk).vanishes_eq hk
    rw [differentiateWith_nary (h.times.not_independent hx []), hlist]
    simp [Derivative.nary, productTerms, Derivative.sum, hterm, vanishes_zero,
      product_of_vanishes (.inr vanishes_zero)]

/-! ## Sums of waves -/

/-- The rules keep the coefficient: it is neither clearly zero nor clearly one. -/
structure IsKept (c : ℚ) : Prop where
  zero : (Number.exact c).isZero = false
  one : (Number.exact c).isOne = false

/-- A coefficient as the rules take it: they leave out what they take for one. -/
def taken (c : ℚ) : ℚ := if (Number.exact c).isOne then 1 else c

theorem taken_eq (h : (Number.exact c).isOne = true → c = 1) : taken c = c := by
  unfold taken
  split
  · rename_i hone
    exact (h hone).symm
  · rfl

/-- A sum of waves with coefficients, in the shapes that the rules lead to. -/
inductive Harmonic (x : String) : Expr → (ℝ → ℝ) → Prop where
  | zero : Harmonic x (.ofInt 0) fun _ => 0
  | wave {k : ℕ} {e : Expr} {f : ℝ → ℝ} : IsMultiple k → Wave x k e f → Harmonic x e f
  | scaled {c : ℚ} {k : ℕ} {e : Expr} {f : ℝ → ℝ} : IsKept c → IsMultiple k → Wave x k e f →
      Harmonic x (.nary .product [.number (.exact c), e]) fun t => c * f t
  | sum {u v : Expr} {f g : ℝ → ℝ} : Harmonic x u f → Harmonic x v g →
      Harmonic x (.nary .sum [u, v]) fun t => f t + g t

namespace Harmonic

/-- The function is what the expression means. -/
theorem realValue? (h : Harmonic x e f) (t : ℝ) : e.realValue? x t = some (f t) := by
  induction h with
  | zero => simp [ofInt, Expr.realValue?, Number.ofInt, Exact.literal]
  | wave _ h => exact h.realValue? t
  | scaled _ _ h =>
    simp [Expr.realValue?, realValues?, h.realValue? t, Exact.literal, realFamily]
  | sum _ _ ihu ihv => simp [Expr.realValue?, realValues?, ihu, ihv, realFamily]

theorem vanishes_scaled (hc : IsKept c) (hk : IsMultiple k) (h : Wave x k e f) :
    vanishes (.nary .product [.number (.exact c), e]) = false := by
  simp [vanishes, anyVanishes, hc.zero, h.vanishes_eq hk]

/-- What the rules leave out of a sum is zero. -/
theorem eq_zero (h : Harmonic x e f) (hzero : vanishes e = true) : f = fun _ => 0 := by
  induction h with
  | zero => rfl
  | wave hk h => exact absurd hzero (Bool.eq_false_iff.1 (h.vanishes_eq hk))
  | scaled hc hk h => exact absurd hzero (Bool.eq_false_iff.1 (vanishes_scaled hc hk h))
  | sum _ _ ihu ihv =>
    simp only [vanishes, allVanish, Bool.and_true, Bool.and_eq_true] at hzero
    simp [ihu hzero.1, ihv hzero.2]

/-- What the rules take to be constant is zero, too. -/
theorem eq_zero_of_not_mem (h : Harmonic x e f) (hx : Names.isSpecial x = false)
    (hmem : x ∉ e.occurrences) : f = fun _ => 0 := by
  induction h with
  | zero => rfl
  | wave _ h => exact absurd (h.mem_occurrences hx) hmem
  | scaled _ _ h =>
    exact absurd (h.mem_occurrences hx) fun h => hmem (by simp [occurrences, occurrencesList, h])
  | sum _ _ ihu ihv =>
    simp only [occurrences, occurrencesList, List.append_nil, List.mem_append, not_or] at hmem
    simp [ihu hmem.1, ihv hmem.2]

/-- A wave with a coefficient. The rules leave out a coefficient that is clearly one, and the wave
together with a coefficient that is clearly zero. -/
theorem ofProduct (hc : (Number.exact c).Fits) (hk : IsMultiple k) (h : Wave x k e f) :
    Harmonic x (Derivative.product [.number (.exact c), e]) fun t => taken c * f t := by
  have hwave := h.vanishes_eq hk
  cases hzero : (Number.exact c).isZero with
  | true =>
    rw [product_of_vanishes (u := .number (.exact c)) (.inl hzero)]
    rw [Number.isZero_exact hc, decide_eq_true_iff] at hzero
    have hone : (Number.exact 0).isOne = false := Number.isOne_ofInt (k := 0) (by decide)
    simpa [hzero, taken, hone] using zero
  | false =>
    cases hone : (Number.exact c).isOne with
    | true =>
      rw [product_of_unit_left (u := .number (.exact c)) hzero hwave hone h.isUnit_eq]
      simpa [taken, hone] using wave hk h
    | false =>
      rw [product_of_not_units (u := .number (.exact c)) hzero hwave hone h.isUnit_eq]
      simpa [taken, hone] using scaled ⟨hzero, hone⟩ hk h

/-- The rules leave out terms that are clearly zero. -/
theorem ofSum (hu : Harmonic x u f) (hv : Harmonic x v g) :
    Harmonic x (Derivative.sum [u, v]) fun t => f t + g t := by
  cases hzero : vanishes u <;> cases hzero' : vanishes v <;>
    simp only [Derivative.sum, List.filter, hzero, hzero', Bool.not_true, Bool.not_false]
  · exact sum hu hv
  · simpa [hv.eq_zero hzero'] using hu
  · simpa [hu.eq_zero hzero] using hv
  · simpa [hu.eq_zero hzero, hv.eq_zero hzero'] using zero

end Harmonic

/-- The derivative of an expression is a harmonic with a function. -/
def DerivesTo (closed : String → ℕ → Expr → Option Expr) (again : Continue) (x : String)
    (e : Expr) (f : ℝ → ℝ) : Prop :=
  ∃ e', e.differentiateWith closed again x [] = some e' ∧ Harmonic x e' f

theorem DerivesTo.differentiate (h : ∀ again, DerivesTo closedForm again x e f) :
    Harmonic x (e.differentiate x []) f := by
  obtain ⟨again, hagain⟩ := exists_differentiateWith (Derivative.depth e) e x []
  obtain ⟨e', he', hharmonic⟩ := h again
  rwa [Expr.differentiate, hagain, he', Option.getD_some]

theorem DerivesTo.add (hu : DerivesTo closed again x u f) (hv : DerivesTo closed again x v g)
    (hmem : x ∈ (Expr.binary .add u v).occurrences) :
    DerivesTo closed again x (.binary .add u v) fun t => f t + g t := by
  obtain ⟨u', hu', hleft⟩ := hu
  obtain ⟨v', hv', hright⟩ := hv
  refine ⟨_, ?_, hleft.ofSum hright⟩
  have hind : independent x [] (.binary .add u v) = false :=
    Bool.eq_false_iff.2 fun hind => ne_of_independent hind hmem rfl
  rw [differentiateWith_binary (by decide) hind, hu', hv']
  rfl

namespace Harmonic

/-- One step: the derivative of a harmonic is a harmonic, and it stands for the derivative of the
function. -/
theorem exists_derivesTo (closed : String → ℕ → Expr → Option Expr) (again : Continue)
    (h : Harmonic x e f) (hx : Names.isSpecial x = false) :
    ∃ f', DerivesTo closed again x e f' ∧ ∀ t, HasDerivAt f (f' t) t := by
  induction h with
  | zero =>
    exact ⟨_, ⟨_, differentiateWith_independent (independent_ofInt _), zero⟩,
      fun t => hasDerivAt_const t 0⟩
  | wave hk h =>
    obtain ⟨e', f', he', hwave, hderiv⟩ := h.differentiateWith closed again hk hx
    exact ⟨f', ⟨e', he', wave hk hwave⟩, hderiv⟩
  | @scaled c k e f hc hk h =>
    obtain ⟨e', f', he', hwave, hderiv⟩ := h.differentiateWith closed again hk hx
    refine ⟨_, ⟨_, ?_, scaled hc hk hwave⟩, fun t => (hderiv t).const_mul _⟩
    have hind : independent x [] (.nary .product [.number (.exact c), e]) = false :=
      Bool.eq_false_iff.2 fun hind => ne_of_independent hind
        (by simp [occurrences, occurrencesList, h.mem_occurrences hx]) rfl
    have hlist : differentiateList closed again [.number (.exact c), e] x [] =
        some [⟨.number (.exact c), .ofInt 0⟩, ⟨e, e'⟩] := by
      simp [differentiateList, differentiateWith_number, he']
    -- the coefficient does not change, so only one term of the product rule is left
    have hproduct : Derivative.product [.number (.exact c), e'] =
        .nary .product [.number (.exact c), e'] :=
      product_of_not_units hc.zero (hwave.vanishes_eq hk) hc.one hwave.isUnit_eq
    rw [differentiateWith_nary hind, hlist]
    simp [Derivative.nary, productTerms, Derivative.sum, product_of_vanishes (.inl vanishes_zero),
      vanishes_zero, hproduct, vanishes_scaled hc hk hwave]
  | @sum u v f g hu hv ihu ihv =>
    cases hind : independent x [] (.nary .sum [u, v]) with
    | true =>
      have hzero := (hu.sum hv).eq_zero_of_not_mem hx fun hmem => ne_of_independent hind hmem rfl
      refine ⟨_, ⟨_, differentiateWith_independent hind, zero⟩, fun t => ?_⟩
      rw [hzero]
      exact hasDerivAt_const t 0
    | false =>
      obtain ⟨f', ⟨u', hu', hleft⟩, hderiv⟩ := ihu
      obtain ⟨g', ⟨v', hv', hright⟩, hderiv'⟩ := ihv
      refine ⟨_, ⟨_, ?_, hleft.ofSum hright⟩, fun t => (hderiv t).add (hderiv' t)⟩
      rw [differentiateWith_nary hind, differentiateList, differentiateList, differentiateList,
        hu', hv']
      rfl

/-- The derivative of a harmonic sum is the harmonic sum of the derivative. -/
theorem differentiate (h : Harmonic x e f) (hx : Names.isSpecial x = false) :
    ∃ f', Harmonic x (e.differentiate x []) f' ∧ ∀ t, HasDerivAt f (f' t) t := by
  obtain ⟨again, hagain⟩ := exists_differentiateWith (Derivative.depth e) e x []
  obtain ⟨f', ⟨e', he', hharmonic⟩, hderiv⟩ := h.exists_derivesTo closedForm again hx
  refine ⟨f', ?_, hderiv⟩
  rwa [Expr.differentiate, hagain, he', Option.getD_some]

/-- All orders: where each function of a sequence is the derivative of the one before, the repeated
derivative of a harmonic with the first function has the others. -/
theorem iterate_differentiate {g : ℕ → ℝ → ℝ} (hx : Names.isSpecial x = false)
    (hderiv : ∀ n t, HasDerivAt (g n) (g (n + 1) t) t) (h : Harmonic x e (g 0)) (n : ℕ) :
    Harmonic x ((fun e => e.differentiate x [])^[n] e) (g n) := by
  induction n with
  | zero => exact h
  | succ n ih =>
    rw [Function.iterate_succ_apply']
    obtain ⟨f', hharmonic, hf'⟩ := ih.differentiate hx
    have hsame : f' = g (n + 1) := funext fun t => (hf' t).unique (hderiv n t)
    rwa [hsame] at hharmonic

end Harmonic

end Formulary
