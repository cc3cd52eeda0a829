import Formulary.Comparison
import Formulary.Proofs.Flattening.Value
import Mathlib.Data.Fin.Embedding
import Mathlib.Data.List.Perm.Basic

/-!
# Pairing off operands

Two lists of operands pair off if a bijection between their places leads from each operand to a
related one (`Pairs`). The comparison looks for such a bijection by giving each operand of the one list
the first related operand of the other that is left, and never takes a choice back.

If the relation is an equivalence this is good enough: whichever related operands are chosen first,
those that were paired with them can be paired with each other instead, so that what is left pairs
off if the lists do (`pairs_cons_cons`).
-/

namespace Formulary.Comparison

variable {related : Expr → Expr → Bool} {u v : Expr} {us vs us' vs' : List Expr}

/-! ## Bijections between the places of two lists -/

/-- A bijection with one more place in front on both sides. -/
def consEquiv {m n : Nat} (σ : Fin m ≃ Fin n) : Fin (m + 1) ≃ Fin (n + 1) where
  toFun := Fin.cases 0 fun i => (σ i).succ
  invFun := Fin.cases 0 fun i => (σ.symm i).succ
  left_inv := Fin.cases rfl fun i => congrArg Fin.succ (σ.symm_apply_apply i)
  right_inv := Fin.cases rfl fun i => congrArg Fin.succ (σ.apply_symm_apply i)

theorem apply_succ_ne_zero {m n : Nat} {σ : Fin (m + 1) ≃ Fin (n + 1)} (h : σ 0 = 0) (i : Fin m) :
    σ i.succ ≠ 0 := fun hi => Fin.succ_ne_zero i (σ.injective (hi.trans h.symm))

/-- A bijection without the first places, which lead to each other. -/
def tailEquiv {m n : Nat} (σ : Fin (m + 1) ≃ Fin (n + 1)) (h : σ 0 = 0) : Fin m ≃ Fin n where
  toFun i := (σ i.succ).pred (apply_succ_ne_zero h i)
  invFun i := (σ.symm i.succ).pred (apply_succ_ne_zero (σ.symm_apply_eq.2 h.symm) i)
  left_inv i := by simp
  right_inv i := by simp

theorem succ_tailEquiv {m n : Nat} {σ : Fin (m + 1) ≃ Fin (n + 1)} (h : σ 0 = 0) (i : Fin m) :
    (tailEquiv σ h i).succ = σ i.succ :=
  Fin.succ_pred _ (apply_succ_ne_zero h i)

/-- Lists with the same entries in different order have them at places that a bijection relates. -/
theorem exists_equiv_of_perm (h : us.Perm us') :
    ∃ σ : Fin us.length ≃ Fin us'.length, ∀ i, us'.get (σ i) = us.get i := by
  induction h with
  | nil => exact ⟨.refl _, fun _ => rfl⟩
  | cons e _ ih =>
    obtain ⟨σ, hσ⟩ := ih
    exact ⟨consEquiv σ, Fin.cases rfl hσ⟩
  | swap e f es =>
    refine ⟨Equiv.swap 0 1, Fin.cases rfl (Fin.cases rfl fun i => ?_)⟩
    rw [Equiv.swap_apply_of_ne_of_ne (Fin.succ_ne_zero _) ?_]
    · rfl
    · exact fun h => Fin.succ_ne_zero i (Fin.succ_inj.1 h)
  | trans _ _ ih ih' =>
    obtain ⟨σ, hσ⟩ := ih
    obtain ⟨τ, hτ⟩ := ih'
    exact ⟨σ.trans τ, fun i => (hτ _).trans (hσ i)⟩

/-! ## Lists that pair off -/

/-- A bijection between the places of two lists relates their entries. -/
def Pairs (related : Expr → Expr → Bool) (us vs : List Expr) : Prop :=
  ∃ pairing : Fin us.length ≃ Fin vs.length, ∀ i, related (us.get i) (vs.get (pairing i)) = true

/-- The relation is an equivalence of some expressions. -/
structure EquivalenceOn (related : Expr → Expr → Bool) (es : List Expr) : Prop where
  refl : ∀ e ∈ es, related e e = true
  symm : ∀ e ∈ es, ∀ f ∈ es, related e f = true → related f e = true
  trans : ∀ e ∈ es, ∀ f ∈ es, ∀ g ∈ es,
    related e f = true → related f g = true → related e g = true

theorem EquivalenceOn.mono {es fs : List Expr} (h : EquivalenceOn related es) (hsub : fs ⊆ es) :
    EquivalenceOn related fs :=
  ⟨fun e he => h.refl e (hsub he), fun e he f hf => h.symm e (hsub he) f (hsub hf),
    fun e he f hf g hg => h.trans e (hsub he) f (hsub hf) g (hsub hg)⟩

/-- Of two pairs whose entries are related crosswise, the others are related, too. -/
theorem EquivalenceOn.exchange (h : EquivalenceOn related (us ++ vs)) {e f : Expr} (he : e ∈ us)
    (hu : u ∈ us) (hv : v ∈ vs) (hf : f ∈ vs) (hev : related e v = true) (huv : related u v = true)
    (huf : related u f = true) : related e f = true := by
  have he := List.mem_append_left vs he
  have hu := List.mem_append_left vs hu
  have hv := List.mem_append_right us hv
  have hf := List.mem_append_right us hf
  have heu : related e u = true := h.trans e he v hv u hu hev (h.symm u hu v hv huv)
  exact h.trans e he u hu f hf heu huf

/-- The order of the entries does not matter to the existence of a bijection. -/
theorem Pairs.perm (h : Pairs related us vs) (hus : us.Perm us') (hvs : vs.Perm vs') :
    Pairs related us' vs' := by
  obtain ⟨pairing, hpairing⟩ := h
  obtain ⟨σ, hσ⟩ := exists_equiv_of_perm hus.symm
  obtain ⟨τ, hτ⟩ := exists_equiv_of_perm hvs
  refine ⟨σ.trans (pairing.trans τ), fun i => ?_⟩
  have hi := hpairing (σ i)
  rwa [hσ, ← hτ] at hi

theorem pairs_comm_perm (hus : us.Perm us') (hvs : vs.Perm vs') :
    Pairs related us vs ↔ Pairs related us' vs' :=
  ⟨fun h => h.perm hus hvs, fun h => h.perm hus.symm hvs.symm⟩

/-- Of two related operands at the front of lists that pair off, those that they are paired with are
related, too, so that the fronts can be taken off. -/
theorem pairs_cons_cons (huv : related u v = true)
    (h : EquivalenceOn related ((u :: us) ++ (v :: vs))) :
    Pairs related (u :: us) (v :: vs) ↔ Pairs related us vs := by
  constructor
  · rintro ⟨pairing, hpairing⟩
    -- exchange the partners of `u` and of the place that leads to `v`
    have hzero : ((Equiv.swap 0 (pairing.symm 0)).trans pairing) 0 = 0 := by
      rw [Equiv.trans_apply, Equiv.swap_apply_left, pairing.apply_symm_apply]
    refine ⟨tailEquiv _ hzero, fun i => ?_⟩
    change related ((u :: us).get i.succ) ((v :: vs).get (tailEquiv _ hzero i).succ) = true
    rw [succ_tailEquiv, Equiv.trans_apply]
    by_cases hi : i.succ = pairing.symm 0
    · have hv := hpairing (pairing.symm 0)
      have hu := hpairing 0
      rw [pairing.apply_symm_apply] at hv
      rw [hi, Equiv.swap_apply_right]
      exact h.exchange (List.get_mem _ _) List.mem_cons_self (List.get_mem _ 0) (List.get_mem _ _)
        hv huv hu
    · rw [Equiv.swap_apply_of_ne_of_ne (Fin.succ_ne_zero i) hi]
      exact hpairing i.succ
  · rintro ⟨pairing, hpairing⟩
    exact ⟨consEquiv pairing, Fin.cases huv hpairing⟩

/-! ## Pairing off by the first choice -/

/-- The entry that is taken off, and the others. -/
theorem exists_perm_eraseP {p : Expr → Bool} (h : us.any p = true) :
    ∃ u, p u = true ∧ us.Perm (u :: us.eraseP p) := by
  obtain ⟨e, he, hpe⟩ := List.any_eq_true.1 h
  obtain ⟨u, before, after, -, hu, rfl, herase⟩ := List.exists_of_eraseP he hpe
  exact ⟨u, hu, herase ▸ List.perm_middle⟩

/-- Taking the first related operand each time finds a bijection if there is one. -/
theorem pairOff_iff_pairs (h : EquivalenceOn related (us ++ vs)) :
    pairOff related us vs = true ↔ Pairs related us vs := by
  induction vs generalizing us with
  | nil =>
    rw [pairOff, List.isEmpty_iff]
    constructor
    · rintro rfl
      exact ⟨.refl _, fun i => i.elim0⟩
    · rintro ⟨pairing, -⟩
      cases us with
      | nil => rfl
      | cons => exact (pairing 0).elim0
  | cons v vs ih =>
    have hstep (hany : us.any (related · v) = true) :
        Pairs related us (v :: vs) ↔ pairOff related (us.eraseP (related · v)) vs = true := by
      obtain ⟨u, huv, hperm⟩ := exists_perm_eraseP hany
      have hsub : (u :: us.eraseP (related · v)) ++ (v :: vs) ⊆ us ++ (v :: vs) :=
        (hperm.symm.append_right _).subset
      have hrest : us.eraseP (related · v) ++ vs ⊆ us ++ (v :: vs) :=
        List.Subset.trans
          ((List.sublist_cons_self _ _).append (List.sublist_cons_self _ _)).subset hsub
      rw [pairs_comm_perm hperm (List.Perm.refl _), pairs_cons_cons huv (h.mono hsub),
        ih (h.mono hrest)]
    rw [pairOff, Bool.and_eq_true]
    refine ⟨fun ⟨hany, hpairs⟩ => (hstep hany).2 hpairs, fun hpairs => ?_⟩
    have hany : us.any (related · v) = true := by
      obtain ⟨pairing, hpairing⟩ := hpairs
      have hv := hpairing (pairing.symm 0)
      rw [pairing.apply_symm_apply] at hv
      exact List.any_eq_true.2 ⟨_, List.get_mem _ _, hv⟩
    exact ⟨hany, (hstep hany).1 hpairs⟩

/-- Whether lists pair off by the first choice does not depend on the order of their entries. -/
theorem pairOff_perm (h : EquivalenceOn related (us ++ vs)) (hus : us'.Perm us) (hvs : vs'.Perm vs) :
    pairOff related us' vs' = pairOff related us vs := by
  have h' : EquivalenceOn related (us' ++ vs') := h.mono (hus.append hvs).subset
  rw [Bool.eq_iff_iff, pairOff_iff_pairs h', pairOff_iff_pairs h, pairs_comm_perm hus hvs]

theorem Pairs.length_eq (h : Pairs related us vs) : us.length = vs.length := by
  obtain ⟨pairing, -⟩ := h
  exact Fin.equiv_iff_eq.1 ⟨pairing⟩

/-! ## Operands -/

section

variable {e : Expr} {family : Family}

/-- A sum or product flattens to the operation of its family on the operands that it brings. -/
theorem flatten_eq_build (h : e.family? = some family) :
    e.flatten = Flattened.build family (e.flattened.operands family) := by
  cases e with
  | binary op lhs rhs =>
    have hop : op.family? = some family := h
    rw [Expr.flatten, Expr.flattened, Flattened.binary, hop]
    dsimp only
    rw [Flattened.whole_ofOperands, Flattened.operands_ofOperands, if_pos rfl]
  | nary op es =>
    obtain rfl : op = family := Option.some.inj h
    rw [Expr.flatten, Expr.flattened, Flattened.whole_ofOperands, Flattened.operands_ofOperands,
      if_pos rfl]
  | _ => cases h

/-- The operands that are paired off are those of the flattened sum or product, where it has two or
more: the ones that it brings, sorted if they are factors. -/
theorem flatOperands_eq_arranged (h : e.family? = some family)
    (htwo : 2 ≤ (e.flattened.operands family).length) :
    e.flatten = .nary family e.flatOperands ∧
      e.flatOperands = Flattened.arranged family (e.flattened.operands family) := by
  rw [← (Flattened.arranged_perm family _).length_eq] at htwo
  rw [Expr.flatOperands, flatten_eq_build h, Flattened.build_eq]
  generalize Flattened.arranged family (e.flattened.operands family) = es at htwo
  rcases es with _ | ⟨u, _ | ⟨v, es⟩⟩
  · cases htwo
  · simp at htwo
  · exact ⟨rfl, rfl⟩

end

section

variable {c : Comparison} {b : Bindings} {family : Family}

theorem sameShape_eq_true_iff (hu : u.family? = some family) (hv : v.family? = some family) :
    c.sameShape b u v = true ↔
      u.flatOperands.length = v.flatOperands.length ∧
        pairOff (c.sameValues b) u.flatOperands v.flatOperands = true := by
  simp [sameShape, hu, hv]

/-- If having the same values is an equivalence of the operands of two sums, or of two products, then
the two have the same shape if and only if a bijection between the operands pairs off operands with
the same values. The order of the operands makes no difference. The operands are those of the
flattened sum or product, if it has two or more. -/
theorem sameShape_iff_pairs (hu : u.family? = some family) (hv : v.family? = some family)
    (h : EquivalenceOn (c.sameValues b) (u.flatOperands ++ v.flatOperands)) :
    (c.sameShape b u v = true ↔ Pairs (c.sameValues b) u.flatOperands v.flatOperands) ∧
      (∀ us vs, us.Perm u.flatOperands → vs.Perm v.flatOperands →
        pairOff (c.sameValues b) us vs =
          pairOff (c.sameValues b) u.flatOperands v.flatOperands) ∧
      (∀ u' v', u'.family? = some family → v'.family? = some family →
        u'.flatOperands.Perm u.flatOperands → v'.flatOperands.Perm v.flatOperands →
          c.sameShape b u' v' = c.sameShape b u v) ∧
      ∀ e : Expr, e.family? = some family → 2 ≤ (e.flattened.operands family).length →
        e.flatten = .nary family e.flatOperands ∧
          e.flatOperands.Perm (e.flattened.operands family) := by
  refine ⟨?_, fun us vs hus hvs => pairOff_perm h hus hvs, fun u' v' hu' hv' hus hvs => ?_,
    fun e he htwo => ?_⟩
  · rw [sameShape_eq_true_iff hu hv, pairOff_iff_pairs h]
    exact and_iff_right_of_imp Pairs.length_eq
  · rw [Bool.eq_iff_iff, sameShape_eq_true_iff hu' hv', sameShape_eq_true_iff hu hv,
      pairOff_perm h hus hvs, hus.length_eq, hvs.length_eq]
  · obtain ⟨hflatten, harranged⟩ := flatOperands_eq_arranged he htwo
    exact ⟨hflatten, harranged ▸ Flattened.arranged_perm family _⟩

/-- With three points for each name, the operands of `x+y+x` and `y+(x+x)` pair off. -/
theorem sameShape_of_repeated_operands :
    EquivalenceOn (sameValues { points := 3 } {})
        [.var "x", .var "y", .var "x", .var "y", .var "x", .var "x"] ∧
      Pairs (sameValues { points := 3 } {}) [.var "x", .var "y", .var "x"]
        [.var "y", .var "x", .var "x"] ∧
      sameShape { points := 3 } {} (.binary .add (.binary .add (.var "x") (.var "y")) (.var "x"))
        (.binary .add (.var "y") (.binary .add (.var "x") (.var "x"))) = true := by
  have hequivalence : EquivalenceOn (sameValues { points := 3 } {})
      [.var "x", .var "y", .var "x", .var "y", .var "x", .var "x"] :=
    ⟨by decide +kernel, by decide +kernel, by decide +kernel⟩
  have hshape : sameShape { points := 3 } {}
      (.binary .add (.binary .add (.var "x") (.var "y")) (.var "x"))
      (.binary .add (.var "y") (.binary .add (.var "x") (.var "x"))) = true := by decide +kernel
  exact ⟨hequivalence, (sameShape_iff_pairs rfl rfl hequivalence).1.1 hshape, hshape⟩

end

end Formulary.Comparison
