import Formulary.Function.StandIn
import Formulary.Proofs.Function.Trigonometric
import Formulary.Proofs.Number.Overflow
import Formulary.Proofs.Random

/-!
# Derivatives of stand-ins

A stand-in has a formula for its derivatives of all orders, and it can be written out as an
expression, which the symbolic rules differentiate. Both give the same function, the closed form
`slope`.

The symbolic side is read over the reals (`realValue?_iterate_differentiate`). The evaluation is
written once for any arithmetic (`valueWith`): over the doubles it is the evaluation of the program
(`value_eq_valueWith`), and over the reals it is the closed form (`valueWith_reals`). Two limits
remain: the rules take a coefficient for one if its double is one, and the evaluation keeps the
exponent in 32 bits (`valueWith_of_large_order`). Drawn stand-ins are far from the first limit
(`exists_draw`), so that their derivatives agree (`derivatives_agree_of_draw`).
-/

namespace Formulary.StandIn

open Formulary.Expr Formulary.Derivative

variable {closed : String → ℕ → Expr → Option Expr} {again : Continue} {x : String} {k : ℕ}
  {constant : ℚ} {coefficients : List ℚ}

/-- A stand-in with fractions as its coefficients. -/
def rational (constant : ℚ) (coefficients : List ℚ) : StandIn :=
  ⟨.exact constant, coefficients.map .exact⟩

/-! ## The closed form -/

/-- The derivative of order `n` of a sum of sines, for the coefficients from multiple `k` on. -/
noncomputable def waves (k : ℕ) (coefficients : List ℚ) (n : ℕ) (t : ℝ) : ℝ :=
  ∑ i : Fin coefficients.length, (coefficients[i] : ℝ) * (k + i : ℕ) ^ n *
    Real.sin ((k + i : ℕ) * t + n * (Real.pi / 2))

/-- The derivative of order `n` of a stand-in. -/
noncomputable def slope (constant : ℚ) (coefficients : List ℚ) (n : ℕ) (t : ℝ) : ℝ :=
  (if n = 0 then (constant : ℝ) else 0) + waves 1 coefficients n t

theorem waves_nil (n : ℕ) (t : ℝ) : waves k [] n t = 0 := rfl

theorem waves_cons (c : ℚ) (cs : List ℚ) (n : ℕ) (t : ℝ) :
    waves k (c :: cs) n t =
      c * (k : ℝ) ^ n * Real.sin (k * t + n * (Real.pi / 2)) + waves (k + 1) cs n t := by
  refine (Fin.sum_univ_succ (n := cs.length) _).trans ?_
  refine congrArg₂ _ (by simp) (Finset.sum_congr rfl fun i _ => ?_)
  rw [Fin.val_succ, ← Nat.add_assoc k, Nat.add_right_comm k]
  rfl

/-- Each order is the derivative of the one before: the phase shift turns a sine into a cosine. -/
theorem hasDerivAt_waves (n : ℕ) (t : ℝ) :
    HasDerivAt (waves k coefficients n) (waves k coefficients (n + 1) t) t := by
  refine HasDerivAt.fun_sum fun i _ => ?_
  have hangle : HasDerivAt (fun t : ℝ => ((k + i : ℕ) : ℝ) * t + n * (Real.pi / 2))
      ((k + i : ℕ) : ℝ) t :=
    (hasDerivAt_multiple (k + i) t).add_const (n * (Real.pi / 2) : ℝ)
  have hphase : ((k + i : ℕ) : ℝ) * t + (n + 1 : ℕ) * (Real.pi / 2) =
      (k + i : ℕ) * t + n * (Real.pi / 2) + Real.pi / 2 := by
    push_cast
    ring
  refine (hangle.sin.const_mul _).congr_deriv ?_
  rw [hphase, Real.sin_add_pi_div_two]
  ring

theorem hasDerivAt_slope (n : ℕ) (t : ℝ) :
    HasDerivAt (slope constant coefficients n) (slope constant coefficients (n + 1) t) t := by
  rw [slope, if_neg (Nat.succ_ne_zero n)]
  exact (hasDerivAt_const t _).add (hasDerivAt_waves n t)

/-! ## The formula -/

/-- One term of the formula. -/
def term (x : String) (k : ℕ) (c : ℚ) : Expr :=
  .binary .mul (.number (.exact c)) (.call "sin" 0 (angle x k))

theorem formulaFrom_cons (c : ℚ) (cs : List ℚ) (e : Expr) :
    formulaFrom x k e (.exact c :: cs.map .exact) =
      formulaFrom x (k + 1) (.binary .add e (term x k c)) (cs.map .exact) := rfl

theorem realValue?_term (c : ℚ) (t : ℝ) :
    (term x k c).realValue? x t = some (c * Real.sin (k * t)) := by
  simp [term, Expr.realValue?, (Wave.sin (x := x) (k := k)).realValue? t, realBinary?,
    Exact.literal]

theorem mem_occurrences_term {c : ℚ} (hx : Names.isSpecial x = false) :
    x ∈ (term x k c).occurrences :=
  List.mem_append_right _ (Wave.sin.mem_occurrences hx)

/-- The formula is the derivative of order zero. -/
theorem realValue?_formulaFrom {e : Expr} {a t : ℝ} (h : e.realValue? x t = some a) :
    (formulaFrom x k e (coefficients.map .exact)).realValue? x t =
      some (a + waves k coefficients 0 t) := by
  induction coefficients generalizing k e a with
  | nil => simpa [formulaFrom, waves_nil] using h
  | cons c cs ih =>
    have hsum : (Expr.binary .add e (term x k c)).realValue? x t =
        some (a + c * Real.sin (k * t)) := by
      simp [Expr.realValue?, h, realValue?_term, realBinary?]
    rw [List.map_cons, formulaFrom_cons, ih hsum, waves_cons]
    simp [add_assoc]

/-- The derivative of one term by the rules. -/
theorem derivesTo_term {c : ℚ} (hc : (Number.exact c).Fits) (hk : IsMultiple k)
    (hx : Names.isSpecial x = false) :
    DerivesTo closed again x (term x k c) fun t =>
      taken c * (k : ℝ) ^ 1 * Real.sin (k * t + (1 : ℕ) * (Real.pi / 2)) := by
  have hsine : Wave x k (.call "sin" 0 (angle x k)) fun t => Real.sin (k * t) := .sin
  obtain ⟨d, g, hd, hwave, hderiv⟩ := hsine.differentiateWith closed again hk hx
  have hg : (fun t => taken c * g t) = fun t : ℝ =>
      taken c * (k : ℝ) ^ 1 * Real.sin (k * t + (1 : ℕ) * (Real.pi / 2)) := by
    funext t
    rw [(hderiv t).unique (hasDerivAt_multiple k t).sin, Nat.cast_one, one_mul,
      Real.sin_add_pi_div_two]
    ring
  rw [← hg]
  refine ⟨_, ?_, Harmonic.ofProduct hc hk hwave⟩
  have hind : independent x [] (term x k c) = false :=
    Bool.eq_false_iff.2 fun hind => ne_of_independent hind (mem_occurrences_term hx) rfl
  have hconstant : independent x [] (.number (.exact c)) = true := by
    simp [independent, isInvalid, occurrences]
  rw [term] at hind ⊢
  rw [differentiateWith_binary (by decide) hind, differentiateWith_number, hd]
  simp [Derivative.binary, Derivative.mul, hconstant]

/-- The first derivative of the formula: the rules put the terms together one by one. -/
theorem derivesTo_formulaFrom (hx : Names.isSpecial x = false)
    (hfits : ∀ c ∈ coefficients, (Number.exact c).Fits)
    (hmultiple : ∀ i < coefficients.length, IsMultiple (k + i)) {e : Expr} {f : ℝ → ℝ}
    (h : DerivesTo closed again x e f) :
    DerivesTo closed again x (formulaFrom x k e (coefficients.map .exact)) fun t =>
      f t + waves k (coefficients.map taken) 1 t := by
  induction coefficients generalizing k e f with
  | nil => simpa [formulaFrom, waves_nil] using h
  | cons c cs ih =>
    have hc : (Number.exact c).Fits := hfits c List.mem_cons_self
    have hrest (i : ℕ) (hi : i < cs.length) : IsMultiple (k + 1 + i) := by
      rw [Nat.add_assoc, Nat.add_comm 1]
      exact hmultiple (i + 1) (by simpa using hi)
    have hk : IsMultiple k := hmultiple 0 (by simp)
    have hsum := h.add (derivesTo_term hc hk hx)
      (List.mem_append_right _ (mem_occurrences_term hx))
    have hall := ih (fun c hc => hfits c (List.mem_cons_of_mem _ hc)) hrest hsum
    simpa only [List.map_cons, formulaFrom_cons, waves_cons, add_assoc] using hall

/-- The derivatives of the formula, for all coefficients: from the first order on, a coefficient
that the rules take for one is one. -/
theorem realValue?_iterate_differentiate (hfits : ∀ c ∈ coefficients, (Number.exact c).Fits)
    (hlength : Word.Fits coefficients.length) (hx : Names.isSpecial x = false) (n : ℕ) (t : ℝ) :
    ((fun e => e.differentiate x [])^[n] ((rational constant coefficients).formula x)).realValue?
        x t =
      some (slope constant (if n = 0 then coefficients else coefficients.map taken) n t) := by
  cases n with
  | zero => exact realValue?_formulaFrom (by simp [rational, Expr.realValue?, Exact.literal])
  | succ n =>
    have hmultiple (i : ℕ) (hi : i < coefficients.length) : IsMultiple (1 + i) := by
      refine ⟨by omega, ?_⟩
      unfold Word.Fits Word.least Word.greatest at *
      omega
    have hfirst : Harmonic x (((rational constant coefficients).formula x).differentiate x [])
        (slope constant (coefficients.map taken) 1) := by
      refine DerivesTo.differentiate fun again => ?_
      have hconstant : DerivesTo closedForm again x (.number (.exact constant)) fun _ => 0 :=
        ⟨_, differentiateWith_number _, .zero⟩
      exact derivesTo_formulaFrom hx hfits hmultiple hconstant
    have hall := hfirst.iterate_differentiate
      (g := fun m => slope constant (coefficients.map taken) (m + 1)) hx
      (fun m => hasDerivAt_slope (m + 1)) n
    rw [Function.iterate_succ_apply, hall.realValue? t, if_neg (Nat.succ_ne_zero n)]

/-! ## Evaluation -/

/-- The operations that a stand-in is evaluated with. -/
structure Arithmetic (α : Type) where
  number : Number → α
  ofInt : ℤ → α
  zero : α
  add : α → α → α
  mul : α → α → α
  power : α → ℤ → α
  sin : α → α
  halfPi : α

/-- The arithmetic of the program. -/
def Arithmetic.doubles : Arithmetic Float where
  number := Number.value
  ofInt := Double.ofInt
  zero := 0
  add := (· + ·)
  mul := (· * ·)
  power := Double.powInt
  sin := Float.sin
  halfPi := Builtin.halfPi

/-- The arithmetic without rounding. Only fractions have a value in it, and others count as zero. -/
noncomputable def Arithmetic.reals : Arithmetic ℝ where
  number n := (Exact.literal n).elim 0 fun r => (r : ℝ)
  ofInt n := n
  zero := 0
  add := (· + ·)
  mul := (· * ·)
  power a n := a ^ n
  sin := Real.sin
  halfPi := Real.pi / 2

section

variable {α : Type} (A : Arithmetic α)

/-- The terms from multiple `k` on, added to a sum. -/
def sumFromWith (order : ℕ) (t : α) : (k : ℕ) → (sum : α) → List Number → α
  | _, sum, [] => sum
  | k, sum, c :: cs =>
    let power := A.power (A.ofInt k) (Int.bmod order UInt32.size)
    let phase := A.add (A.mul (A.ofInt k) t) (A.mul (A.ofInt order) A.halfPi)
    sumFromWith order t (k + 1) (A.add sum (A.mul (A.mul (A.number c) power) (A.sin phase))) cs

/-- The value of a derivative of the stand-in in an arithmetic. -/
def valueWith (s : StandIn) (order : ℕ) (t : α) : α :=
  sumFromWith A order t 1 (if order = 0 then A.number s.constant else A.zero) s.coefficients

end

/-- The program's sum is the one over doubles. -/
theorem sumFrom_eq (order : ℕ) (v sum : Float) (cs : List Number) :
    sumFrom order v k sum cs = sumFromWith .doubles order v k sum cs := by
  induction cs generalizing k sum with
  | nil => rfl
  | cons c cs ih => simp only [sumFrom, sumFromWith, ih, Arithmetic.doubles]

/-- Over the doubles, this is the evaluation of the program. -/
theorem value_eq_valueWith (s : StandIn) (order : ℕ) (v : Float) :
    s.value order v = s.valueWith .doubles order v :=
  sumFrom_eq order v _ s.coefficients

theorem sumFromWith_reals {n : ℕ} (hn : n < 2 ^ 31) (t sum : ℝ) :
    sumFromWith .reals n t k sum (coefficients.map .exact) = sum + waves k coefficients n t := by
  have hpower : Int.bmod n UInt32.size = n :=
    Int.bmod_eq_of_le (by unfold UInt32.size; omega) (by unfold UInt32.size; omega)
  induction coefficients generalizing k sum with
  | nil => simp [sumFromWith, waves_nil]
  | cons c cs ih =>
    simp only [List.map_cons, sumFromWith, ih, hpower, waves_cons]
    simp [Arithmetic.reals, Exact.literal, add_assoc]

/-- Over the reals, it is the closed form. -/
theorem valueWith_reals {n : ℕ} (hn : n < 2 ^ 31) (t : ℝ) :
    (rational constant coefficients).valueWith .reals n t = slope constant coefficients n t :=
  sumFromWith_reals hn t _

/-- From `2 ^ 31` on the exponent is no longer the order: for the order `2 ^ 32` it is zero. -/
theorem valueWith_of_large_order :
    (rational 0 [0, 1]).valueWith .reals (2 ^ 32) (Real.pi / 4) = 1 ∧
      slope 0 [0, 1] (2 ^ 32) (Real.pi / 4) = 2 ^ (2 ^ 32) := by
  have hphase : ((2 : ℕ) : ℝ) * (Real.pi / 4) + (2 ^ 32 : ℕ) * (Real.pi / 2) =
      Real.pi / 2 + (2 ^ 30 : ℕ) * (2 * Real.pi) := by
    push_cast
    ring
  have hsin : Real.sin (((2 : ℕ) : ℝ) * (Real.pi / 4) + (2 ^ 32 : ℕ) * (Real.pi / 2)) = 1 := by
    rw [hphase, Real.sin_add_nat_mul_two_pi, Real.sin_pi_div_two]
  constructor
  · have hexponent : Int.bmod (2 ^ 32 : ℕ) UInt32.size = 0 := by decide
    simp only [valueWith, rational, sumFromWith, List.map_cons, List.map_nil, hexponent,
      Arithmetic.reals, Exact.literal]
    push_cast at hsin ⊢
    simpa using hsin
  · simp only [slope, waves_cons, waves_nil, hsin]
    simp

/-! ## Agreement -/

/-- If no coefficient but one itself is taken for one, the derivatives of the formula are the closed
form. -/
theorem realValue?_of_untaken (constant : ℚ) (hfits : ∀ c ∈ coefficients, (Number.exact c).Fits)
    (hlength : Word.Fits coefficients.length)
    (hone : ∀ c ∈ coefficients, (Number.exact c).isOne = true → c = 1)
    (hx : Names.isSpecial x = false) (n : ℕ) (t : ℝ) :
    ((fun e => e.differentiate x [])^[n] ((rational constant coefficients).formula x)).realValue?
        x t =
      some (slope constant coefficients n t) := by
  have htaken : coefficients.map taken = coefficients :=
    (List.map_congr_left fun c hc => taken_eq (hone c hc)).trans (List.map_id' _)
  rw [realValue?_iterate_differentiate hfits hlength hx, htaken, ite_self]

/-- The symbolic derivatives of a stand-in and its evaluation give the same function: the closed
form. No coefficient but one itself may have the double one, and the evaluation needs an order
below `2 ^ 31`. -/
theorem derivatives_agree (constant : ℚ) (hfits : ∀ c ∈ coefficients, (Number.exact c).Fits)
    (hlength : Word.Fits coefficients.length)
    (hone : ∀ c ∈ coefficients, (Number.exact c).isOne = true → c = 1)
    (hx : Names.isSpecial x = false) (n : ℕ) :
    (∀ t, ((fun e => e.differentiate x [])^[n]
        ((rational constant coefficients).formula x)).realValue? x t =
      some (slope constant coefficients n t)) ∧
    (n < 2 ^ 31 → ∀ t,
      (rational constant coefficients).valueWith .reals n t = slope constant coefficients n t) ∧
    ∀ v, (rational constant coefficients).value n v =
      (rational constant coefficients).valueWith .doubles n v :=
  ⟨realValue?_of_untaken constant hfits hlength hone hx n, fun hn t => valueWith_reals hn t,
    value_eq_valueWith _ n⟩

/-- The second derivative of `1/2 + 0 sin(y) + 1 sin(2 y) - 3/4 sin(3 y)`, both ways. -/
theorem derivatives_agree_second :
    (∀ c ∈ [(0 : ℚ), 1, -3 / 4], (Number.exact c).Fits) ∧ Word.Fits [(0 : ℚ), 1, -3 / 4].length ∧
    (∀ c ∈ [(0 : ℚ), 1, -3 / 4], (Number.exact c).isOne = true → c = 1) ∧
    Names.isSpecial "y" = false ∧
    (∀ t, ((fun e => e.differentiate "y" [])^[2]
        ((rational (1 / 2) [0, 1, -3 / 4]).formula "y")).realValue? "y" t =
      some (27 / 4 * Real.sin (3 * t) - 4 * Real.sin (2 * t))) ∧
    ∀ t, (rational (1 / 2) [0, 1, -3 / 4]).valueWith .reals 2 t =
      27 / 4 * Real.sin (3 * t) - 4 * Real.sin (2 * t) := by
  have hfits : ∀ c ∈ [(0 : ℚ), 1, -3 / 4], (Number.exact c).Fits := by
    intro c hc
    fin_cases hc <;> exact ⟨by decide +kernel, by decide +kernel⟩
  have hlength : Word.Fits [(0 : ℚ), 1, -3 / 4].length := by decide
  have hone : ∀ c ∈ [(0 : ℚ), 1, -3 / 4], (Number.exact c).isOne = true → c = 1 := by
    decide +kernel
  have hy : Names.isSpecial "y" = false := by decide
  obtain ⟨hsymbolic, hvalue, -⟩ := derivatives_agree (1 / 2) hfits hlength hone hy 2
  have hslope (t : ℝ) : slope (1 / 2) [0, 1, -3 / 4] 2 t =
      27 / 4 * Real.sin (3 * t) - 4 * Real.sin (2 * t) := by
    have hpi : 2 * (Real.pi / 2) = Real.pi := by ring
    norm_num [slope, waves_cons, waves_nil, hpi, Real.sin_add_pi]
    ring
  exact ⟨hfits, hlength, hone, hy, fun t => hslope t ▸ hsymbolic t,
    fun t => hslope t ▸ hvalue (by decide) t⟩

/-- A coefficient next to one whose double is one is left out of the first derivative. And the
derivative of order `2 ^ 32` is evaluated with the exponent zero. -/
theorem slope_of_coefficient_next_to_one :
    (((fun e => e.differentiate "x" [])^[1] ((rational 0
        [9007199254740993 / 9007199254740992]).formula "x")).realValue? "x" 0 = some 1 ∧
      slope 0 [9007199254740993 / 9007199254740992] 1 0 ≠ 1) ∧
    (rational 0 [0, 1]).valueWith .reals (2 ^ 32) (Real.pi / 4) ≠
      slope 0 [0, 1] (2 ^ 32) (Real.pi / 4) := by
  have hderivative : (fun e => e.differentiate "x" [])^[1] ((rational 0
      [9007199254740993 / 9007199254740992]).formula "x") = .call "cos" 0 (angle "x" 1) := by
    decide +kernel
  refine ⟨⟨?_, ?_⟩, ?_⟩
  · rw [hderivative, Wave.cos.realValue?]
    simp
  · norm_num [slope, waves_cons, waves_nil]
  · obtain ⟨hvalue, hslope⟩ := valueWith_of_large_order
    rw [hvalue, hslope]
    exact (one_lt_pow₀ one_lt_two (by norm_num)).ne

/-! ## Drawn stand-ins -/

/-- A coefficient that is drawn is an exact fraction, so small that only one itself has the double
one. -/
theorem exists_fraction (most : ℤ) (hleast : 1 ≤ most) (hmost : most ≤ 15) (r : Random) :
    ∃ c : ℚ, (r.fraction (-20, 20) (1, most)).1 = .exact c ∧ (Number.exact c).Fits ∧
      ((Number.exact c).isOne = true → c = 1) := by
  have hp := Random.between_mem (-20) 20 (by decide) (by decide) r
  have hq := Random.between_mem (max 1 1) (max most 1) (by omega) (by unfold UInt64.size; omega)
    (r.between (-20) 20).2
  have hdrawn : (r.fraction (-20, 20) (1, most)).1 = .ofRatio (r.between (-20) 20).1
      ((r.between (-20) 20).2.between (max 1 1) (max most 1)).1 := rfl
  generalize ((r.between (-20) 20).2.between (max 1 1) (max most 1)).1 = q at hq hdrawn
  generalize (r.between (-20) 20).1 = p at hp hdrawn
  have hfits {n : ℤ} (h : -20 ≤ n ∧ n ≤ 20) : Word.Fits n := by
    unfold Word.Fits Word.least Word.greatest
    omega
  have hpos : 0 < q := by omega
  have hpfits : Word.Fits p := hfits hp
  have hqfits : Word.Fits q := hfits (by omega)
  have hexact : Number.ofRatio p q = .exact (p / q) :=
    (Number.ofRatio_eq_ite hpfits hqfits hpos.ne').trans (if_pos (.inr (.inl hpos)))
  refine ⟨p / q, hdrawn.trans hexact, hexact ▸ Number.fits_ofRatio hpfits hqfits, fun hone => ?_⟩
  have hden : (p / q : ℚ).den ≤ q.natAbs := by
    rw [← Rat.divInt_eq_div]
    exact Nat.le_of_dvd (by omega) (Int.natCast_dvd.1 (Rat.den_dvd p q))
  have hnum : (p / q : ℚ).num.natAbs ≤ p.natAbs := by
    rcases eq_or_ne p 0 with rfl | hp0
    · simp
    · rw [← Rat.divInt_eq_div]
      exact Nat.le_of_dvd (by omega) (Int.natAbs_dvd_natAbs.2 (Rat.num_dvd p hpos.ne'))
  rw [Number.isOne_exact_of_small (by omega) (by omega)] at hone
  exact of_decide_eq_true hone

/-- The coefficients that are drawn are fractions, and the test for one is exact on them. -/
theorem exists_drawCoefficients (count : ℕ) (r : Random) :
    ∃ coefficients : List ℚ, (drawCoefficients count r).1 = coefficients.map .exact ∧
      coefficients.length = count ∧
      ∀ c ∈ coefficients, (Number.exact c).Fits ∧ ((Number.exact c).isOne = true → c = 1) := by
  induction count generalizing r with
  | zero => exact ⟨[], rfl, rfl, by simp⟩
  | succ count ih =>
    obtain ⟨c, hdrawn, hc⟩ := exists_fraction 10 (by decide) (by decide) r
    obtain ⟨cs, hcs, hlength, hall⟩ := ih (r.fraction (-20, 20) (1, 10)).2
    refine ⟨c :: cs, ?_, by rw [List.length_cons, hlength], List.forall_mem_cons.2 ⟨hc, hall⟩⟩
    rw [drawCoefficients, List.map_cons, ← hcs, ← hdrawn]

/-- Every stand-in that is drawn has coefficients of which only one itself is taken for one. -/
theorem exists_draw (r : Random) :
    ∃ (constant : ℚ) (coefficients : List ℚ), (draw r).1 = rational constant coefficients ∧
      Word.Fits coefficients.length ∧
      ∀ c ∈ coefficients, (Number.exact c).Fits ∧ ((Number.exact c).isOne = true → c = 1) := by
  obtain ⟨c, hdrawn, -⟩ := exists_fraction 15 (by decide) (by decide) r
  obtain ⟨cs, hcs, hlength, hall⟩ :=
    exists_drawCoefficients terms (r.fraction (-20, 20) (1, 15)).2
  refine ⟨c, cs, ?_, by rw [hlength]; decide, hall⟩
  rw [draw, rational, ← hcs, ← hdrawn]

/-- The symbolic derivatives of a drawn stand-in have the values that the stand-in itself has for
the order, whatever the generator is. -/
theorem derivatives_agree_of_draw (r : Random) (hx : Names.isSpecial x = false) {n : ℕ}
    (hn : n < 2 ^ 31) (t : ℝ) :
    ((fun e => e.differentiate x [])^[n] ((draw r).1.formula x)).realValue? x t =
      some ((draw r).1.valueWith .reals n t) := by
  obtain ⟨constant, coefficients, hdrawn, hlength, hall⟩ := exists_draw r
  have hfits : ∀ c ∈ coefficients, (Number.exact c).Fits := fun c hc => (hall c hc).1
  have hone : ∀ c ∈ coefficients, (Number.exact c).isOne = true → c = 1 :=
    fun c hc => (hall c hc).2
  rw [hdrawn, realValue?_of_untaken constant hfits hlength hone hx, valueWith_reals hn]

end Formulary.StandIn
