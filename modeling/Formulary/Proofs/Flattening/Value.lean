import Formulary.Flattening
import Formulary.Proofs.Exact.Functions
import Formulary.Proofs.Expr.Traversal
import Mathlib.Algebra.Order.Field.Rat
import Mathlib.Tactic.NormNum

/-!
# Flattening keeps the value

The operands that a flattened expression brings into a sum add up to its value, and those that it
brings into a product multiply to it. `Carries` says both, and every step of flattening keeps it:
operands of one family are put in a row, a subtracted or divided group passes its inverse on to its
operands, and the factors of a product may change places.

Flattening may only make an expression more defined, since the double inverse of zero cancels.
-/

namespace Formulary

open Exact

namespace Flattened

/-! ## Sorting -/

/-- Collecting the elements of a list key by key rearranges the list. -/
theorem flatMap_filter_perm {α κ : Type} [BEq κ] [LawfulBEq κ] (key : α → κ) {ks : List κ}
    (hnodup : ks.Nodup) {as : List α} (hkeys : ∀ a ∈ as, key a ∈ ks) :
    (ks.flatMap fun k => as.filter (key · == k)).Perm as := by
  induction ks generalizing as with
  | nil =>
    have hnil : as = [] := List.eq_nil_iff_forall_not_mem.2 fun a ha => by simpa using hkeys a ha
    rw [hnil]
    exact .nil
  | cons k ks ih =>
    obtain ⟨hk, hnodup⟩ := List.nodup_cons.1 hnodup
    have hothers : ∀ a ∈ as.filter (!key · == k), key a ∈ ks := by
      intro a ha
      obtain ⟨ha, hne⟩ := List.mem_filter.1 ha
      rcases List.mem_cons.1 (hkeys a ha) with heq | hmem
      · simp [heq] at hne
      · exact hmem
    have hrest : (ks.flatMap fun k' => as.filter (key · == k')) =
        ks.flatMap fun k' => (as.filter (!key · == k)).filter (key · == k') := by
      refine List.flatMap_congr fun k' hk' => ?_
      rw [List.filter_filter]
      refine List.filter_congr fun a _ => ?_
      have hne : k' ≠ k := fun h => hk (h ▸ hk')
      by_cases hkey : key a = k' <;> simp [hkey, hne]
    rw [List.flatMap_cons, hrest]
    exact ((ih hnodup hothers).append_left _).trans (List.filter_append_perm _ _)

theorem sortByKind_perm (es : List Expr) : (sortByKind es).Perm es :=
  flatMap_filter_perm Expr.kind (by decide) fun e _ => by cases e.kind <;> decide

/-- A sum keeps its operands in order, and the factors of a product are sorted. -/
def arranged : Family → List Expr → List Expr
  | .sum, es => es
  | .product, es => sortByKind es

theorem arranged_perm (op : Family) (es : List Expr) : (arranged op es).Perm es := by
  cases op with
  | sum => exact .refl es
  | product => exact sortByKind_perm es

theorem build_eq (op : Family) (es : List Expr) :
    build op es = Substitution.nary op (arranged op es) := by
  cases op with
  | sum =>
    rw [arranged]
    rcases es with _ | ⟨_, _ | ⟨_, _⟩⟩ <;> rfl
  | product =>
    simp only [build, arranged]
    generalize sortByKind es = fs
    rcases fs with _ | ⟨_, _ | ⟨_, _⟩⟩ <;> rfl

/-! ## Operands with values -/

section

variable {I : Interpretation} {ρ : Assignment} {e : Expr} {es : List Expr} {q r : ℚ}
  {qs : List ℚ}

theorem amount_spread (op : Family) (h : value I e ρ = some q) : Amount I ρ op (spread op e) q := by
  unfold spread
  split
  · split
    · rename_i hop
      subst hop
      exact value_nary.1 h
    · exact amount_singleton h
  · exact amount_singleton h

theorem value_build {op : Family} (h : Amount I ρ op es q) :
    value I (build op es) ρ = some q := by
  rw [build_eq]
  exact (h.perm (arranged_perm op es)).value_nary

/-! ## Inverses -/

/-- The inverse of an operation on several values is the operation on their inverses. -/
theorem unary_inverse_cons {op : Family}
    (h : unary op.inverse (family op (q :: qs)) = some r) :
    ∃ s t, unary op.inverse q = some s ∧ unary op.inverse (family op qs) = some t ∧
      family op [s, t] = r := by
  cases op with
  | sum =>
    simp only [Family.inverse, unary, family, List.sum_cons, Option.some.injEq] at h
    refine ⟨-q, -qs.sum, rfl, rfl, ?_⟩
    rw [← h]
    simp [family, add_comm]
  | product =>
    simp only [Family.inverse, unary, quotient, family, List.prod_cons,
      Option.ite_none_left_eq_some, Option.some.injEq, mul_eq_zero, not_or] at h
    obtain ⟨⟨hq, hqs⟩, rfl⟩ := h
    refine ⟨1 / q, 1 / qs.prod, ?_, ?_, ?_⟩
    · simp [Family.inverse, unary, quotient, hq]
    · simp [Family.inverse, unary, quotient, family, hqs]
    · simp [family, mul_comm]

theorem unary_inverse_inverse {op : Family} (hr : unary op.inverse q = some r) {s : ℚ}
    (hs : unary op.inverse r = some s) : s = q := by
  cases op with
  | sum =>
    simp only [Family.inverse, unary, Option.some.injEq] at hr hs
    rw [← hs, ← hr, neg_neg]
  | product =>
    simp only [Family.inverse, unary, quotient, Option.ite_none_left_eq_some,
      Option.some.injEq] at hr hs
    rw [← hs.2, ← hr.2, one_div_one_div]

theorem value_invert {op : Family} (he : value I e ρ = some q)
    (hr : unary op.inverse q = some r) : value I (invert op e) ρ = some r := by
  have hplain : value I (.unary op.inverse e) ρ = some r := value_unary.2 ⟨q, he, hr⟩
  unfold invert
  split
  · split
    · rename_i u hop
      obtain ⟨p, hu, hq⟩ := value_unary.1 he
      rw [hop] at hq
      rw [unary_inverse_inverse hq hr]
      exact hu
    · exact hplain
  · exact hplain

/-- A subtracted or divided group passes its inverse on to its operands. -/
theorem amount_invert {op : Family} (h : Amount I ρ op es q) (hr : unary op.inverse q = some r) :
    Amount I ρ op (es.map (invert op)) r := by
  obtain ⟨qs, hqs, rfl⟩ := h
  induction hqs generalizing r with
  | nil =>
    refine ⟨[], .nil, ?_⟩
    cases op with
    | sum => simpa [Family.inverse, unary, family] using hr
    | product => simpa [Family.inverse, unary, quotient, family] using hr
  | cons he _ ih =>
    obtain ⟨s, t, hs, ht, rfl⟩ := unary_inverse_cons hr
    exact .cons (value_invert he hs) (ih ht)

theorem amount_inverted (op : Family) (he : value I e ρ = some q)
    (hr : unary op.inverse q = some r) : Amount I ρ op (inverted op e) r :=
  amount_invert (amount_spread op he) hr

/-! ## Flattened expressions -/

theorem operands_ofExpr (e : Expr) (op : Family) : (ofExpr e).operands op = spread op e := by
  cases op <;> rfl

theorem whole_ofOperands (op : Family) (es : List Expr) :
    (ofOperands op es).whole = build op es := by
  cases op <;> rfl

/-- An operation brings its operands into one of its family, and itself into the other. -/
theorem operands_ofOperands (op : Family) (es : List Expr) (other : Family) :
    (ofOperands op es).operands other =
      if other = op then es else spread other (build op es) := by
  cases op <;> cases other <;> rfl

/-- The whole and both rows of operands of a flattened expression have a value. -/
structure Carries (I : Interpretation) (ρ : Assignment) (f : Flattened) (q : ℚ) : Prop where
  whole : value I f.whole ρ = some q
  operands (op : Family) : Amount I ρ op (f.operands op) q

theorem carries_ofExpr (h : value I e ρ = some q) : Carries I ρ (ofExpr e) q := by
  refine ⟨h, fun op => ?_⟩
  rw [operands_ofExpr]
  exact amount_spread op h

theorem carries_ofOperands {op : Family} (h : Amount I ρ op es q) :
    Carries I ρ (ofOperands op es) q := by
  have hwhole := value_build h
  refine ⟨by rwa [whole_ofOperands], fun other => ?_⟩
  rw [operands_ofOperands]
  split
  · rename_i heq
    rwa [heq]
  · exact amount_spread other hwhole

/-- The operator of a family, or its inverse before the right operand. -/
theorem binary_of_family? {bop : BinaryOp} {op : Family} (hop : bop.family? = some op) {p : ℚ}
    (h : Exact.binary bop p r = some q) :
    if bop = op.binary then q = family op [p, r]
    else ∃ s, unary op.inverse r = some s ∧ q = family op [p, s] := by
  cases bop with
  | add | mul =>
    obtain rfl : _ = op := by simpa [BinaryOp.family?] using hop
    simpa [Exact.binary, family, Family.binary, eq_comm] using h
  | sub =>
    obtain rfl : _ = op := by simpa [BinaryOp.family?] using hop
    simpa [Exact.binary, family, Family.binary, Family.inverse, unary, sub_eq_add_neg,
      eq_comm] using h
  | div =>
    obtain rfl : _ = op := by simpa [BinaryOp.family?] using hop
    simpa [Exact.binary, family, Family.binary, Family.inverse, unary, quotient, div_eq_mul_inv,
      eq_comm] using h
  | pow | eq | and | or => simp [BinaryOp.family?] at hop

/-- The flattened operation carries the value of the operation. -/
theorem Carries.binary {f g : Flattened} {p : ℚ} (hf : Carries I ρ f p) (hg : Carries I ρ g r)
    {bop : BinaryOp} (h : Exact.binary bop p r = some q) :
    Carries I ρ (Flattened.binary bop f g) q := by
  unfold Flattened.binary
  cases hop : bop.family? with
  | none => exact carries_ofExpr (value_binary.2 ⟨p, hf.whole, r, hg.whole, h⟩)
  | some op =>
    have hvalue := binary_of_family? hop h
    refine carries_ofOperands ?_
    by_cases hplain : bop = op.binary
    · rw [if_pos hplain] at hvalue ⊢
      rw [hvalue]
      exact (hf.operands op).append (hg.operands op)
    · rw [if_neg hplain] at hvalue ⊢
      obtain ⟨s, hs, rfl⟩ := hvalue
      exact (hf.operands op).append (amount_inverted op hg.whole hs)

end

end Flattened

namespace Expr

open Flattened

variable {F : FunctionValues} {ρ : Assignment}

theorem flattenedOperands_eq_flatMap (op : Family) (es : List Expr) :
    flattenedOperands op es = es.flatMap (·.flattened.operands op) := by
  induction es with
  | nil => rfl
  | cons e es ih => rw [flattenedOperands, ih, List.flatMap_cons]

/-- The operands that are collected have the value of the operation together. -/
theorem amount_flattenedOperands {op : Family} {es : List Expr} {qs : List ℚ}
    (h : List.Forall₂ (fun e q => Carries F.interpretation ρ e.flattened q) es qs) :
    Amount F.interpretation ρ op (flattenedOperands op es) (family op qs) := by
  induction h with
  | nil => exact ⟨[], .nil, rfl⟩
  | cons he _ ih =>
    rw [family_cons]
    exact (he.operands op).append ih

/-- The induction follows the expression; only an operation of a family changes it. -/
theorem carries_flattened (e : Expr) {q : ℚ} (h : value F.interpretation e ρ = some q) :
    Carries F.interpretation ρ e.flattened q := by
  induction e using Expr.induction generalizing q with
  | number n => exact carries_ofExpr h
  | var name => exact carries_ofExpr h
  | unary op u ih =>
    obtain ⟨p, hu, hq⟩ := value_unary.1 h
    exact carries_ofExpr (value_unary.2 ⟨p, (ih hu).whole, hq⟩)
  | binary op u v ihu ihv =>
    obtain ⟨p, hu, r, hv, hq⟩ := value_binary.1 h
    exact (ihu hu).binary (ihv hv) hq
  | nary op es ih =>
    obtain ⟨qs, hqs, rfl⟩ := value_nary.1 h
    refine carries_ofOperands (amount_flattenedOperands ?_)
    have hall := (List.forall₂_and_left es qs).2 ⟨ih, hqs⟩
    exact hall.imp fun _ _ h => h.1 h.2
  | call f primes u ih =>
    obtain ⟨p, hu, hq⟩ := value_call.1 h
    exact carries_ofExpr (value_call.2 ⟨p, (ih hu).whole, hq⟩)
  | element sequence index _ =>
    simp [value, FunctionValues.interpretation] at h
  | derivative body name _ => simp [value, FunctionValues.interpretation] at h
  | derivativeAt body name point _ _ => simp [value, FunctionValues.interpretation] at h
  | invalid issue => simp [value] at h
  | invalidPart issue part _ => simp [value] at h

/-- Wherever an expression has a value, the flattened expression has the same value. -/
theorem value_flatten (F : FunctionValues) {e : Expr} {ρ : Assignment} {q : ℚ}
    (h : value F.interpretation e ρ = some q) : value F.interpretation e.flatten ρ = some q :=
  (carries_flattened e h).whole

theorem value_flatten_subtracted_difference :
    ∃ e, e = binary .sub (binary .div (ofInt 6) (binary .div (var "x") (nary .product [])))
        (binary .sub (var "x") (binary .sub (call "f" 1 (var "y")) (ofInt 1))) ∧
      value (FunctionValues.interpretation fun _ primes q => some (primes + q)) e
        (fun _ => some 3) = some 2 ∧
      value (FunctionValues.interpretation fun _ primes q => some (primes + q)) e.flatten
        (fun _ => some 3) = some 2 := by
  refine ⟨_, rfl, ?_, value_flatten _ ?_⟩ <;>
    norm_num [value, values, Exact.binary, Exact.quotient, family, literal, ofInt, Number.ofInt,
      FunctionValues.interpretation]

end Expr

end Formulary
