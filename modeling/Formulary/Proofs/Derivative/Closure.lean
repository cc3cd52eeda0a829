import Formulary.Derivative.Rules
import Mathlib.Logic.Basic

/-!
# What the rules of differentiation are made of

A rule puts a derivative together from parts of its operands, their derivatives, small literals,
operations of arithmetic and calls. A property of expressions that says nothing about literals and
that an operation has exactly if its operands have it is therefore one of the derivative, too, as
long as calls of builtin functions take it over and one more prime on another function keeps it.
-/

namespace Formulary.Derivative

/-- A property that an operation has if and only if its operands have it, and that calls keep where
the rules of differentiation change them. -/
structure Closed (Q : Expr → Prop) : Prop where
  number : ∀ n, Q (.number n)
  euler : Q (.var "e")
  unary : ∀ op u, Q (.unary op u) ↔ Q u
  binary : ∀ op u v, Q (.binary op u v) ↔ Q u ∧ Q v
  nary : ∀ op es, Q (.nary op es) ↔ ∀ e ∈ es, Q e
  builtin : ∀ {f u}, Names.isBuiltin f = true → Q u → Q (.call f 0 u)
  raise : ∀ {f primes u}, Names.isBuiltin f = false → Q (.call f primes u) →
    Q (.call f (primes + 1) u)

/-- The property of an expression and its derivative. -/
def Slope.Both (Q : Expr → Prop) (u : Slope) : Prop := Q u.value ∧ Q u.slope

variable {Q : Expr → Prop}

namespace Closed

variable (h : Closed Q)

include h

theorem ofInt (n : Int) : Q (.ofInt n) := h.number _

/-- The program's product has the property if its factors have it. -/
theorem product {es : List Expr} (hes : ∀ e ∈ es, Q e) : Q (Derivative.product es) := by
  have hfilter : ∀ e ∈ es.filter (!isUnit ·), Q e := fun e he => hes e (List.mem_filter.1 he).1
  unfold Derivative.product
  split
  · exact h.ofInt 0
  · split
    · exact h.ofInt 1
    · rename_i e heq
      exact hfilter e (heq ▸ List.mem_singleton_self e)
    · exact (h.nary .product _).2 hfilter

theorem sum {es : List Expr} (hes : ∀ e ∈ es, Q e) : Q (Derivative.sum es) := by
  have hfilter : ∀ e ∈ es.filter (!vanishes ·), Q e := fun e he => hes e (List.mem_filter.1 he).1
  unfold Derivative.sum
  split
  · exact h.ofInt 0
  · rename_i e heq
    exact hfilter e (heq ▸ List.mem_singleton_self e)
  · exact (h.nary .sum _).2 hfilter

theorem negate {e : Expr} (he : Q e) : Q (Derivative.negate e) := by
  unfold Derivative.negate
  split
  · exact h.ofInt 0
  · split
    · exact h.number _
    · exact (h.unary .neg _).1 he
    · exact (h.unary .neg _).2 he

theorem difference {u v : Expr} (hu : Q u) (hv : Q v) : Q (Derivative.difference u v) := by
  unfold Derivative.difference
  split
  · exact hu
  · split
    · exact h.negate hv
    · exact (h.binary .sub u v).2 ⟨hu, hv⟩

theorem quotient {u v : Expr} (hu : Q u) (hv : Q v) : Q (Derivative.quotient u v) := by
  unfold Derivative.quotient
  split
  · exact h.ofInt 0
  · split
    · exact hu
    · exact (h.binary .div u v).2 ⟨hu, hv⟩

theorem power {u v : Expr} (hu : Q u) (hv : Q v) : Q (Derivative.power u v) := by
  unfold Derivative.power
  split
  · split
    · exact h.ofInt 1
    · split
      · exact hu
      · exact (h.binary .pow _ _).2 ⟨hu, hv⟩
  · exact (h.binary .pow _ _).2 ⟨hu, hv⟩

theorem square {e : Expr} (he : Q e) : Q (Derivative.square e) := h.power he (h.ofInt 2)

omit h in
/-- Two closed properties together are closed. -/
theorem and {Q' : Expr → Prop} (h : Closed Q) (h' : Closed Q') : Closed fun e => Q e ∧ Q' e where
  number n := ⟨h.number n, h'.number n⟩
  euler := ⟨h.euler, h'.euler⟩
  unary op u := and_congr (h.unary op u) (h'.unary op u)
  binary op u v := (and_congr (h.binary op u v) (h'.binary op u v)).trans and_and_and_comm
  nary op es := (and_congr (h.nary op es) (h'.nary op es)).trans forall₂_and.symm
  builtin hf hu := ⟨h.builtin hf hu.1, h'.builtin hf hu.2⟩
  raise hf hcall := ⟨h.raise hf hcall.1, h'.raise hf hcall.2⟩

/-! ## Rules -/

section

variable {u v : Slope} {constant : Expr → Bool} {x : String}

theorem unaryRule (op : UnaryOp) (hu : u.Both Q) : Q (Derivative.unary op u) := by
  cases op with
  | plus => exact hu.2
  | neg => exact h.negate hu.2
  | recip => exact h.negate (h.quotient hu.2 ((h.binary .mul _ _).2 ⟨hu.1, hu.1⟩))

/-- Each term of the product rule has the property if all factors and their derivatives have it. -/
theorem productTerms {before : List Expr} {us : List Slope} (hbefore : ∀ e ∈ before, Q e)
    (hus : ∀ u ∈ us, u.Both Q) : ∀ e ∈ Derivative.productTerms before us, Q e := by
  induction us generalizing before with
  | nil => simp [Derivative.productTerms]
  | cons u us ih =>
    obtain ⟨hu, hus⟩ := List.forall_mem_cons.1 hus
    refine List.forall_mem_cons.2 ⟨h.product ?_, ih ?_ hus⟩
    · refine List.forall_mem_append.2 ⟨hbefore, List.forall_mem_cons.2 ⟨hu.2, ?_⟩⟩
      intro e he
      obtain ⟨v, hv, rfl⟩ := List.mem_map.1 he
      exact (hus v hv).1
    · exact List.forall_mem_append.2 ⟨hbefore, by simpa using hu.1⟩

theorem naryRule (op : Family) {us : List Slope} (hus : ∀ u ∈ us, u.Both Q) :
    Q (Derivative.nary op us) := by
  cases op with
  | sum =>
    refine h.sum fun e he => ?_
    obtain ⟨u, hu, rfl⟩ := List.mem_map.1 he
    exact (hus u hu).2
  | product => exact h.sum (h.productTerms (by simp) hus)

theorem product₂ {e f : Expr} (he : Q e) (hf : Q f) : Q (Derivative.product [e, f]) :=
  h.product (by simp [he, hf])

theorem mul (hu : u.Both Q) (hv : v.Both Q) : Q (Derivative.mul constant u v) := by
  unfold Derivative.mul
  split
  · exact h.product₂ hu.1 hv.2
  · split
    · exact h.product₂ hu.2 hv.1
    · exact h.naryRule .product (by simp [hu, hv])

theorem div (hu : u.Both Q) (hv : v.Both Q) : Q (Derivative.div constant u v) := by
  unfold Derivative.div
  split
  · exact h.quotient hu.2 hv.1
  · split
    · exact h.negate (h.quotient (h.product₂ hu.1 hv.2) (h.square hv.1))
    · exact h.quotient (h.difference (h.product₂ hu.2 hv.1) (h.product₂ hu.1 hv.2))
        (h.square hv.1)

theorem chain {outer : Expr} (houter : Q outer) (hu : u.Both Q) :
    Q (Derivative.chain x outer u) := by
  unfold Derivative.chain
  split
  · exact h.product (by simpa using houter)
  · exact h.product₂ houter hu.2

theorem ln (hu : u.Both Q) : Q (Derivative.ln x constant u) := by
  unfold Derivative.ln
  split
  · exact h.ofInt 0
  · exact h.chain (h.quotient (h.ofInt 1) hu.1) hu

/-- The rules for powers keep the property, with the logarithm that they bring in. -/
theorem pow (hu : u.Both Q) (hv : v.Both Q) : Q (Derivative.pow x constant u v) := by
  have hln : Q (.call "ln" 0 u.value) := h.builtin rfl hu.1
  have hexponent : Q (.binary .mul v.value (.call "ln" 0 u.value)) :=
    (h.binary .mul _ _).2 ⟨hv.1, hln⟩
  have hlower : Q (.binary .sub v.value (.ofInt 1)) := (h.binary .sub _ _).2 ⟨hv.1, h.ofInt 1⟩
  unfold Derivative.pow
  dsimp only
  split
  · split
    · refine h.product₂ hv.1 (h.power hu.1 ?_)
      split
      · exact h.number _
      · exact hlower
    · refine h.product (List.forall_mem_append.2 ⟨?_, by simpa using hu.2⟩)
      refine List.forall_mem_cons.2 ⟨hv.1, List.forall_mem_singleton.2 (h.power hu.1 ?_)⟩
      split
      · exact h.number _
      · exact hlower
  · split
    · exact h.ofInt 0
    · exact h.chain (h.builtin rfl hexponent) ⟨hexponent, h.mul hv ⟨hln, h.ln hu⟩⟩

theorem binaryRule (op : BinaryOp) (hu : u.Both Q) (hv : v.Both Q) :
    Q (Derivative.binary x constant op u v) := by
  cases op with
  | add => exact h.naryRule .sum (by simp [hu, hv])
  | sub => exact h.difference hu.2 hv.2
  | mul => exact h.mul hu hv
  | div => exact h.div hu hv
  | pow => exact h.pow hu hv
  | eq | and | or => exact h.ofInt 0

end

/-! ## Functions -/

section

variable {u : Expr}

theorem reciprocal (hu : Q u) : Q (Derivative.reciprocal u) := h.quotient (h.ofInt 1) hu

theorem arcsine (hu : Q u) : Q (Derivative.arcsine u) :=
  h.reciprocal (h.builtin rfl ((h.binary .sub _ _).2 ⟨h.ofInt 1, h.square hu⟩))

theorem arctangent (hu : Q u) : Q (Derivative.arctangent u) :=
  h.reciprocal ((h.binary .add _ _).2 ⟨h.ofInt 1, h.square hu⟩)

theorem arcsecant (hu : Q u) : Q (Derivative.arcsecant u) :=
  h.reciprocal ((h.binary .mul _ _).2 ⟨h.builtin rfl hu,
    h.builtin rfl ((h.binary .sub _ _).2 ⟨h.square hu, h.ofInt 1⟩)⟩)

/-- The derivative of a builtin function has the property if the argument has it. -/
theorem builtinRule {f : String} (hu : Q u) {d : Expr} (hd : builtin? f u = some d) : Q d := by
  have hcall {name : String} (hname : Names.isBuiltin name = true) : Q (.call name 0 u) :=
    h.builtin hname hu
  have htimes {a b : Expr} (ha : Q a) (hb : Q b) : Q (times a b) := (h.binary .mul a b).2 ⟨ha, hb⟩
  unfold builtin? at hd
  split at hd
  all_goals cases hd
  · exact hcall rfl
  · exact h.negate (hcall rfl)
  · exact h.square (hcall rfl)
  · exact h.negate (htimes (hcall rfl) (hcall rfl))
  · exact htimes (hcall rfl) (hcall rfl)
  · exact h.negate (h.square (hcall rfl))
  · exact h.arcsine hu
  · exact h.negate (h.arcsine hu)
  · exact h.arctangent hu
  · exact h.negate (h.arctangent hu)
  · exact h.arcsecant hu
  · exact h.negate (h.arcsecant hu)
  · exact h.reciprocal (htimes (h.ofInt 2) (hcall rfl))
  · exact h.quotient (hcall rfl) hu
  · exact hcall rfl
  · exact hcall rfl
  · exact h.reciprocal hu
  · exact h.quotient (h.builtin rfl h.euler) hu

omit h in
/-- Every builtin function has a rule of its own. -/
theorem isSome_builtin? {f : String} (hf : Names.isBuiltin f = true) : (builtin? f u).isSome := by
  have hmem : f ∈ Names.builtins := List.contains_iff_mem.1 hf
  simp only [Names.builtins, List.mem_cons, List.not_mem_nil, or_false] at hmem
  rcases hmem with rfl | rfl | rfl | rfl | rfl | rfl | rfl | rfl | rfl | rfl | rfl | rfl | rfl | rfl |
    rfl | rfl | rfl | rfl <;> rfl

/-- A function that is not builtin gets one more prime. -/
theorem function {f : String} {primes : Nat} (hf : (Names.isBuiltin f && primes != 0) = false)
    (hcall : Q (.call f primes u)) (hu : Q u) : Q (Derivative.function f primes u) := by
  unfold Derivative.function
  cases hd : (if primes = 0 then builtin? f u else none) with
  | none =>
    refine h.raise (Bool.eq_false_iff.2 fun hbuiltin => ?_) hcall
    rw [hbuiltin, Bool.true_and, bne_eq_false_iff_eq] at hf
    have hrule := isSome_builtin? (u := u) hbuiltin
    rw [if_pos hf] at hd
    rw [hd] at hrule
    cases hrule
  | some d =>
    split at hd
    · exact h.builtinRule hu hd
    · cases hd

end

end Closed

end Formulary.Derivative
