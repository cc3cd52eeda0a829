import Formulary.Proofs.Folding.Value
import Formulary.Proofs.Number.Sign

/-!
# Folding twice

An expression is folded if folding leaves it as it is. Each step of the folding gives a folded
expression once its operands are folded, so folding a second time changes nothing, whatever the
literals are: doubles, the double that is not a number, and fractions of any size.

Two things need care. Where negative literals are switched off, a negative number is written as a
negation, and reading that back is a second negation of the number, which may be another number by
then (`literal?_literal`). And what an operation is replaced by must not be a literal again: a
difference from zero becomes a negation, but only if the other operand is no literal, since two
literals are always subtracted.
-/

namespace Formulary.Folding

variable {o : Options} {u v : Expr} {n : Number}

/-- The expression is left as it is by folding. -/
def Folded (o : Options) (e : Expr) : Prop := e.fold o = e

/-! ## Literals -/

/-- A number that is written and read back is written in the same way, and it is zero or one as
before. -/
theorem literal?_literal (o : Options) (n : Number) :
    ∃ k, literal? (literal o n) = some k ∧ literal o k = literal o n ∧ k.isZero = n.isZero ∧
      k.isOne = n.isOne := by
  by_cases h : (!o.negativeNumbers && n.isNegative) = true
  · obtain ⟨hswitched, hnegative⟩ := (Bool.and_eq_true _ _).mp h
    have hvalue := Number.value_neg_neg (Number.ne_zero_of_isNegative hnegative)
    refine ⟨- -n, ?_, ?_, ?_, ?_⟩
    · rw [literal, if_pos h, literal?]
    · rw [literal, literal, if_pos h, Number.isNegative_neg_neg hnegative, hswitched,
        Number.neg_neg_neg hnegative]
      rfl
    · rw [Number.isZero, hvalue, Number.isZero]
    · rw [Number.isOne, hvalue, Number.isOne]
  · exact ⟨n, by rw [literal, if_neg h, literal?], rfl, rfl, rfl⟩

/-- The negation of a negative number is written as it is. -/
theorem literal_neg (o : Options) (h : n.isNegative = true) : literal o (-n) = .number (-n) := by
  rw [literal, Number.isNegative_neg h, Bool.and_false]
  rfl

theorem folded_literal (o : Options) (n : Number) : Folded o (literal o n) := by
  unfold Folded
  by_cases h : (!o.negativeNumbers && n.isNegative) = true
  · obtain ⟨k, hk, hwritten, -⟩ := literal?_literal o n
    have hnegated : literal o n = .unary .neg (.number (-n)) := if_pos h
    rw [hnegated] at hk ⊢
    rw [Expr.fold, Expr.fold, literal_neg o ((Bool.and_eq_true _ _).mp h).2]
    simp only [unary, literal?, Option.some.injEq] at hk ⊢
    rw [hk, hwritten, hnegated]
  · have hplain : literal o n = .number n := if_neg h
    rw [hplain, Expr.fold, hplain]

theorem literal_ofInt {k : ℤ} (h : (Number.ofInt k).isNegative = false) :
    literal o (.ofInt k) = .ofInt k := by
  rw [literal, h, Bool.and_false]
  rfl

theorem folded_ofInt {k : ℤ} (h : (Number.ofInt k).isNegative = false) :
    Folded o (.ofInt k) := by
  rw [← literal_ofInt h]
  exact folded_literal o _

theorem folded_zero : Folded o (.ofInt 0) :=
  folded_ofInt (by rw [Number.isNegative_ofInt] <;> decide)

theorem folded_one : Folded o (.ofInt 1) :=
  folded_ofInt (by rw [Number.isNegative_ofInt] <;> decide)

/-! ## Operations -/

theorem unary_eq_of_literal? (op : UnaryOp) (hu : literal? u = none) (hop : op ≠ .plus) :
    unary o op u = .unary op u := by
  unfold unary
  rw [hu]
  cases op with
  | plus => exact absurd rfl hop
  | neg | recip => rfl

/-- A folded unary operation is not folded any further. -/
theorem folded_unary {op : UnaryOp} (hu : Folded o u) : Folded o (unary o op u) := by
  have hstay (hop : op ≠ .plus) (hnone : literal? u = none) : Folded o (unary o op u) := by
    rw [unary_eq_of_literal? op hnone hop, Folded, Expr.fold, hu, unary_eq_of_literal? op hnone hop]
  cases op with
  | plus => exact hu
  | neg =>
    cases hn : literal? u with
    | some n =>
      simp only [unary, hn]
      exact folded_literal o _
    | none => exact hstay (by simp) hn
  | recip =>
    cases hn : literal? u with
    | some n =>
      simp only [unary, hn]
      exact folded_literal o _
    | none => exact hstay (by simp) hn

/-- What an operation may become besides an operand or a literal: the negation or the reciprocal of
its right operand, in place of a difference or a quotient with a literal on the left. -/
theorem collapse_cases (op : BinaryOp) (u v : Expr) :
    collapse op u v = u ∨ collapse op u v = v ∨ collapse op u v = .ofInt 0 ∨
      collapse op u v = .ofInt 1 ∨ collapse op u v = .binary op u v ∨
      (literal? u).isSome = true ∧
        (op = .sub ∧ collapse op u v = .unary .neg v ∨
          op = .div ∧ collapse op u v = .unary .recip v) := by
  have hliteral {k : ℤ} (h : isLiteral u k = true) : (literal? u).isSome = true := by
    obtain ⟨n, hn, -⟩ := (Option.any_eq_true ..).mp h
    exact Option.isSome_of_mem hn
  cases op with
  | add | mul | pow =>
    simp only [collapse]
    split_ifs <;> simp
  | sub =>
    simp only [collapse]
    split_ifs with hv hu
    · exact .inl rfl
    · simp [hliteral hu]
    · simp
  | div =>
    simp only [collapse]
    split_ifs with hv hu
    · exact .inl rfl
    · simp [hliteral hu]
    · simp
  | eq | and | or => simp [collapse]

/-- Without two numbers to compute with, only neutral operands are left out. -/
theorem binary_eq_collapse {op : BinaryOp}
    (h : ∀ m ∈ literal? u, ∀ n ∈ literal? v, onNumbers? op m n = none) :
    binary o op u v = collapse op u v := by
  unfold binary
  split
  · rename_i m n hm hn
    rw [h m hm n hn]
  · rfl

/-- After neutral operands have been left out, nothing is left to fold. -/
theorem folded_collapse {op : BinaryOp} (hu : Folded o u) (hv : Folded o v)
    (h : ∀ m ∈ literal? u, ∀ n ∈ literal? v, onNumbers? op m n = none) :
    Folded o (collapse op u v) := by
  -- a difference and a quotient of two literals is computed, so the right operand is no literal
  have hright (hop : op = .sub ∨ op = .div) (hleft : (literal? u).isSome = true) :
      literal? v = none := by
    obtain ⟨m, hm⟩ := Option.isSome_iff_exists.1 hleft
    refine Option.eq_none_iff_forall_not_mem.2 fun n hn => ?_
    have hnone := h m hm n hn
    rcases hop with rfl | rfl <;> cases hnone
  rcases collapse_cases op u v with he | he | he | he | he | ⟨hleft, ⟨hop, he⟩ | ⟨hop, he⟩⟩
  · rwa [he]
  · rwa [he]
  · rw [he]
    exact folded_zero
  · rw [he]
    exact folded_one
  · rw [he, Folded, Expr.fold, hu, hv, binary_eq_collapse h, he]
  · rw [he, ← unary_eq_of_literal? .neg (hright (.inl hop) hleft) (by simp)]
    exact folded_unary hv
  · rw [he, ← unary_eq_of_literal? .recip (hright (.inr hop) hleft) (by simp)]
    exact folded_unary hv

theorem folded_binary {op : BinaryOp} (hu : Folded o u) (hv : Folded o v) :
    Folded o (binary o op u v) := by
  by_cases h : ∀ m ∈ literal? u, ∀ n ∈ literal? v, onNumbers? op m n = none
  · rw [binary_eq_collapse h]
    exact folded_collapse hu hv h
  · push Not at h
    obtain ⟨m, hm, n, hn, hnumber⟩ := h
    obtain ⟨k, hk⟩ := Option.ne_none_iff_exists'.1 hnumber
    simp only [binary, Option.mem_def.1 hm, Option.mem_def.1 hn, hk]
    exact folded_literal o k

/-! ## Sums and products -/

section

variable {op : Family} {es : List Expr}

/-- Without literals nothing is gathered. -/
theorem gather_of_none (h : ∀ e ∈ es, literal? e = none) : gather o op es = es := by
  have hconstant : constant? op es = none := by
    rw [constant?, List.filterMap_eq_nil_iff.2 h]
  have hrest : es.filter (fun e => (literal? e).isNone) = es :=
    List.filter_eq_self.2 fun e he => by rw [h e he, Option.isNone_none]
  cases op <;> simp only [gather, hconstant, hrest]

/-- The literal of a sum stays at its end. It is zero only if it stands alone. -/
theorem gather_append_literal (h : ∀ e ∈ es, literal? e = none)
    (hzero : n.isZero = true → es = []) :
    gather o .sum (es ++ [literal o n]) = es ++ [literal o n] := by
  obtain ⟨k, hk, hwritten, hkzero, -⟩ := literal?_literal o n
  have hconstant : constant? .sum (es ++ [literal o n]) = some k := by
    rw [constant?, List.filterMap_append, List.filterMap_eq_nil_iff.2 h, List.nil_append,
      List.filterMap_cons_some hk]
    rfl
  have hrest : (es ++ [literal o n]).filter (fun e => (literal? e).isNone) = es := by
    rw [List.filter_append, List.filter_eq_self.2 fun e he => by rw [h e he, Option.isNone_none],
      List.filter_cons_of_neg (by simp [hk]), List.filter_nil, List.append_nil]
  have hkept : ¬(k.isZero && !es.isEmpty) = true := by
    intro hdropped
    obtain ⟨hk, hes⟩ := (Bool.and_eq_true _ _).mp hdropped
    rw [hzero (hkzero ▸ hk)] at hes
    cases hes
  simp only [gather, hconstant, hrest, if_neg hkept, hwritten]

/-- The literal of a product stays at its front. It is not zero, and it is one only if it stands
alone. -/
theorem gather_cons_literal (h : ∀ e ∈ es, literal? e = none) (hzero : n.isZero = false)
    (hone : n.isOne = true → es = []) :
    gather o .product (literal o n :: es) = literal o n :: es := by
  obtain ⟨k, hk, hwritten, hkzero, hkone⟩ := literal?_literal o n
  have hconstant : constant? .product (literal o n :: es) = some k := by
    rw [constant?, List.filterMap_cons_some hk, List.filterMap_eq_nil_iff.2 h]
    rfl
  have hrest : (literal o n :: es).filter (fun e => (literal? e).isNone) = es := by
    rw [List.filter_cons_of_neg (by simp [hk]),
      List.filter_eq_self.2 fun e he => by rw [h e he, Option.isNone_none]]
  have hkept : ¬(k.isOne && !es.isEmpty) = true := by
    intro hdropped
    obtain ⟨hk, hes⟩ := (Bool.and_eq_true _ _).mp hdropped
    rw [hone (hkone ▸ hk)] at hes
    cases hes
  simp only [gather, hconstant, hrest, hkzero, hzero, if_neg hkept, hwritten]
  rfl

end

/-- Operands that were gathered are gathered already. -/
theorem gather_gather (o : Options) (op : Family) (es : List Expr) :
    gather o op (gather o op es) = gather o op es := by
  have hrest : ∀ e ∈ es.filter (fun e => (literal? e).isNone), literal? e = none :=
    fun e he => Option.isNone_iff_eq_none.1 (List.mem_filter.1 he).2
  cases hn : constant? op es with
  | none =>
    have hgather : gather o op es = es.filter fun e => (literal? e).isNone := by
      cases op <;> simp only [gather, hn]
    rw [hgather]
    exact gather_of_none hrest
  | some n =>
    cases op with
    | sum =>
      simp only [gather.eq_def o .sum es, hn]
      split
      · exact gather_of_none hrest
      · rename_i hkept
        refine gather_append_literal hrest fun hzero => ?_
        rw [hzero, Bool.true_and, Bool.not_eq_true', Bool.not_eq_false] at hkept
        exact List.isEmpty_iff.1 hkept
    | product =>
      simp only [gather.eq_def o .product es, hn]
      split
      · have hzero : (Number.ofInt 0).isZero = true := Number.isZero_zero
        simp only [gather, constant?, Expr.ofInt, literal?, List.filterMap_cons,
          List.filterMap_nil, List.foldl_nil, hzero, if_pos]
      · split
        · exact gather_of_none hrest
        · rename_i hzero hkept
          refine gather_cons_literal hrest (Bool.eq_false_iff.2 hzero) fun hone => ?_
          rw [hone, Bool.true_and, Bool.not_eq_true', Bool.not_eq_false] at hkept
          exact List.isEmpty_iff.1 hkept

theorem folded_nary {op : Family} {es : List Expr} (h : ∀ e ∈ es, Folded o e) :
    Folded o (nary o op es) := by
  have hall := of_mem_gather op (fun n _ => folded_literal o n) folded_zero h
  have hagain := gather_gather o op es
  rw [nary_eq]
  generalize gather o op es = gs at hall hagain
  match gs with
  | [] => cases op <;> first | exact folded_zero | exact folded_one
  | [e] => exact hall e List.mem_cons_self
  | e :: f :: gs =>
    have hplain : Substitution.nary op (e :: f :: gs) = .nary op (e :: f :: gs) := rfl
    rw [hplain, Folded, Expr.fold, Expr.foldList_eq_map, List.map_congr_left hall, List.map_id',
      nary_eq, hagain, hplain]

end Formulary.Folding

namespace Formulary.Expr

open Folding

/-- Folding a second time changes nothing. -/
theorem fold_fold (o : Options) (e : Expr) : (e.fold o).fold o = e.fold o := by
  change Folded o (e.fold o)
  induction e using Expr.induction with
  | number n => exact folded_literal o n
  | var name => rfl
  | unary op u ih => exact folded_unary ih
  | binary op u v ihu ihv => exact folded_binary ihu ihv
  | nary op es ih =>
    rw [fold, foldList_eq_map]
    exact folded_nary (List.forall_mem_map.2 ih)
  | element sequence index ih => exact congrArg (element sequence) ih
  | call f primes u ih => exact congrArg (call f primes) ih
  | derivative body name ih => exact congrArg (derivative · name) ih
  | derivativeAt body name point ihbody ihpoint =>
    exact congrArg₂ (derivativeAt · name ·) ihbody ihpoint
  | invalid issue => rfl
  | invalidPart issue part ih => rfl

end Formulary.Expr
