import Formulary.Proofs.Folding.Idempotence
import Formulary.Rule.Reduction

/-!
# The fuel of a reduction

A reduction folds an expression and goes on with the parts of what it has folded, and it folds these
again. Its fuel has to last for all of that. Folded parts stay as they are, so a part is lighter than
the expression around it; only a part that could not be read is still unfolded, and it may grow once
when its turn comes. `weight` counts the nodes with this growth in advance. What an expression folds
to weighs no more than twice its size (`weight_fold`), and its parts weigh less than it does, folded
once more (`lightens_fold`).

So the fuel that `reduce` starts with is enough, more of it gives the same result
(`reduceWithin_eq_reduce`), and a reduction is described by its own recursion, without any fuel
(`reduce_eq`).
-/

namespace Formulary

namespace Expr

mutual

/-- The number of nodes of an expression. Those of a part that could not be read count twice, since
nothing has folded it yet. -/
def weight : Expr → Nat
  | number _ | var _ | invalid _ => 1
  | element _ index => index.weight + 1
  | unary _ operand => operand.weight + 1
  | binary _ lhs rhs => lhs.weight + rhs.weight + 1
  | nary _ operands => weightList operands + 1
  | call _ _ argument => argument.weight + 1
  | derivative body _ => body.weight + 1
  | derivativeAt body _ point => body.weight + point.weight + 1
  | invalidPart _ part => 2 * part.size + 1

/-- The weight of several expressions. -/
def weightList : List Expr → Nat
  | [] => 0
  | e :: es => e.weight + weightList es

end

theorem weight_pos (e : Expr) : 0 < e.weight := by cases e <;> simp [weight]

theorem weightList_append (es fs : List Expr) :
    weightList (es ++ fs) = weightList es + weightList fs := by
  induction es with
  | nil => exact (Nat.zero_add _).symm
  | cons e es ih => rw [List.cons_append, weightList, ih, weightList, Nat.add_assoc]

theorem weight_le_weightList {e : Expr} {es : List Expr} (h : e ∈ es) :
    e.weight ≤ weightList es := by
  obtain ⟨before, after, rfl⟩ := List.append_of_mem h
  rw [weightList_append, weightList]
  omega

end Expr

namespace Folding

open Formulary.Expr

variable {o : Options} {u v : Expr} {op : Family} {es : List Expr}

/-! ## The weight of what is folded -/

theorem weight_literal (o : Options) (n : Number) : (literal o n).weight ≤ 2 := by
  unfold literal
  split <;> simp [weight]

theorem weight_unary (o : Options) (op : UnaryOp) (u : Expr) :
    (unary o op u).weight ≤ u.weight + 1 := by
  have hpos := u.weight_pos
  have hliteral (n : Number) : (literal o n).weight ≤ u.weight + 1 :=
    (weight_literal o n).trans (by omega)
  unfold unary
  split
  · exact Nat.le_succ _
  · exact hliteral _
  · exact hliteral _
  · exact Nat.le_refl _

/-- Folding a binary operation adds one to the weight at most. -/
theorem weight_binary (o : Options) (op : BinaryOp) (u v : Expr) :
    (binary o op u v).weight ≤ u.weight + v.weight + 1 := by
  have hu := u.weight_pos
  have hv := v.weight_pos
  have hcollapse : (collapse op u v).weight ≤ u.weight + v.weight + 1 := by
    rcases collapse_cases op u v with he | he | he | he | he | ⟨-, ⟨-, he⟩ | ⟨-, he⟩⟩ <;> rw [he]
    · omega
    · omega
    · exact Nat.le_add_left 1 _
    · exact Nat.le_add_left 1 _
    · exact Nat.le_refl _
    · rw [weight]
      omega
    · rw [weight]
      omega
  unfold binary
  split
  · split
    · exact (weight_literal o _).trans (by omega)
    · exact hcollapse
  · exact hcollapse

theorem weightList_filter_le (p : Expr → Bool) (es : List Expr) :
    weightList (es.filter p) ≤ weightList es := by
  induction es with
  | nil => exact Nat.le_refl _
  | cons e es ih =>
    rw [List.filter_cons, weightList]
    split
    · rw [weightList]
      omega
    · omega

/-- The operands that are taken out leave room for one of them. -/
theorem weightList_filter_lt {p : Expr → Bool} {e : Expr} (he : e ∈ es) (hp : p e = false) :
    weightList (es.filter p) < weightList es := by
  obtain ⟨before, after, rfl⟩ := List.append_of_mem he
  have hbefore := weightList_filter_le p before
  have hafter := weightList_filter_le p after
  have hpos := e.weight_pos
  rw [List.filter_append, List.filter_cons, hp, if_neg Bool.false_ne_true, weightList_append,
    weightList_append, weightList]
  omega

/-- Gathering literals makes operands heavier by the sign of one literal at most. -/
theorem weightList_gather_le (o : Options) (op : Family) (es : List Expr) :
    weightList (gather o op es) ≤ weightList es + 1 := by
  have hrest := weightList_filter_le (fun e => (literal? e).isNone) es
  cases hn : constant? op es with
  | none => cases op <;> (simp only [gather, hn]; omega)
  | some n =>
    have hliteral := weight_literal o n
    obtain ⟨e, he, hp⟩ : ∃ e ∈ es, (literal? e).isNone = false := by
      by_contra hnone
      push Not at hnone
      have hall : es.filterMap literal? = [] :=
        List.filterMap_eq_nil_iff.2 fun e he => by simpa using hnone e he
      rw [constant?, hall] at hn
      cases hn
    have hless := weightList_filter_lt (p := fun e => (literal? e).isNone) he hp
    cases op with
    | sum =>
      simp only [gather, hn]
      split
      · omega
      · rw [weightList_append, weightList, weightList]
        omega
    | product =>
      simp only [gather, hn]
      split_ifs
      · simp only [weightList, weight, Expr.ofInt]
        omega
      · omega
      · rw [weightList]
        omega

/-- Folding a sum or product adds two to the weight at most: a literal and its sign. -/
theorem weight_nary (o : Options) (op : Family) (es : List Expr) :
    (nary o op es).weight ≤ weightList es + 2 := by
  have hgather := weightList_gather_le o op es
  rw [nary_eq]
  match hes : gather o op es with
  | [] => simp [Substitution.nary, weight, Expr.ofInt]
  | [e] =>
    rw [hes, weightList, weightList] at hgather
    simp only [Substitution.nary]
    omega
  | e :: f :: gs =>
    rw [hes] at hgather
    simp only [Substitution.nary, weight]
    omega

/-! ## The parts of what is folded -/

/-- Every part weighs less than the expression, also when it is folded. -/
def Lightens (o : Options) (e : Expr) : Prop :=
  ∀ part ∈ e.children, (part.fold o).weight < e.weight

/-- Parts that are folded weigh less than the expression. -/
theorem lightens_of_folded {e : Expr} (hfolded : ∀ part ∈ e.children, Folded o part)
    (hless : ∀ part ∈ e.children, part.weight < e.weight) : Lightens o e := by
  intro part hpart
  rw [hfolded part hpart]
  exact hless part hpart

theorem lightens_leaf {e : Expr} (hchildren : e.children = []) : Lightens o e := by
  intro part hpart
  rw [hchildren] at hpart
  cases hpart

theorem lightens_single {e part : Expr} (hchildren : e.children = [part])
    (hweight : e.weight = part.weight + 1) (hpart : Folded o part) : Lightens o e := by
  refine lightens_of_folded ?_ ?_ <;> rw [hchildren] <;> refine List.forall_mem_singleton.2 ?_
  · exact hpart
  · exact hweight ▸ Nat.lt_succ_self _

theorem lightens_pair {e lhs rhs : Expr} (hchildren : e.children = [lhs, rhs])
    (hweight : e.weight = lhs.weight + rhs.weight + 1) (hlhs : Folded o lhs)
    (hrhs : Folded o rhs) : Lightens o e := by
  refine lightens_of_folded ?_ ?_ <;> rw [hchildren, forall_mem_pair]
  · exact ⟨hlhs, hrhs⟩
  · rw [hweight]
    exact ⟨by omega, by omega⟩

theorem lightens_literal (o : Options) (n : Number) : Lightens o (literal o n) := by
  by_cases h : (!o.negativeNumbers && n.isNegative) = true
  · have hnegated : literal o n = .unary .neg (.number (-n)) := if_pos h
    rw [hnegated]
    exact lightens_single rfl rfl (literal_neg o ((Bool.and_eq_true _ _).mp h).2)
  · have hplain : literal o n = .number n := if_neg h
    rw [hplain]
    exact lightens_leaf rfl

theorem lightens_unary (hu : Folded o u) (hparts : Lightens o u) (op : UnaryOp) :
    Lightens o (unary o op u) := by
  unfold unary
  split
  · exact hparts
  · exact lightens_literal o _
  · exact lightens_literal o _
  · exact lightens_single rfl rfl hu

/-- The parts of a folded binary operation weigh less than it does. -/
theorem lightens_binary (hu : Folded o u) (hv : Folded o v) (hlhs : Lightens o u)
    (hrhs : Lightens o v) (op : BinaryOp) : Lightens o (binary o op u v) := by
  have hcollapse : Lightens o (collapse op u v) := by
    rcases collapse_cases op u v with he | he | he | he | he | ⟨-, ⟨-, he⟩ | ⟨-, he⟩⟩ <;> rw [he]
    · exact hlhs
    · exact hrhs
    · exact lightens_leaf rfl
    · exact lightens_leaf rfl
    · exact lightens_pair rfl rfl hu hv
    · exact lightens_single rfl rfl hv
    · exact lightens_single rfl rfl hv
  unfold binary
  split
  · split
    · exact lightens_literal o _
    · exact hcollapse
  · exact hcollapse

/-- The parts of a folded sum or product weigh less than it does. -/
theorem lightens_nary (h : ∀ e ∈ es, Folded o e) (hparts : ∀ e ∈ es, Lightens o e) :
    Lightens o (nary o op es) := by
  have hfolded := of_mem_gather op (fun n _ => folded_literal o n) folded_zero h
  have hlight := of_mem_gather op (fun n _ => lightens_literal o n) (lightens_leaf rfl) hparts
  rw [nary_eq]
  generalize gather o op es = gs at hfolded hlight
  match gs with
  | [] => exact lightens_leaf rfl
  | [e] => exact hlight e List.mem_cons_self
  | e :: f :: gs =>
    exact lightens_of_folded hfolded fun part hpart =>
      Nat.lt_succ_of_le (weight_le_weightList hpart)

end Folding

namespace Expr

open Folding

variable {o : Options} {e : Expr}

/-- What an expression folds to weighs no more than twice its size: folding may write a negative
literal as a negation. -/
theorem weight_fold (o : Options) (e : Expr) : (e.fold o).weight ≤ 2 * e.size := by
  induction e using Expr.induction with
  | number n => exact weight_literal o n
  | var name => exact Nat.le_succ 1
  | element sequence index ih =>
    rw [fold, weight, size]
    omega
  | unary op u ih =>
    have := weight_unary o op (u.fold o)
    rw [fold, size]
    omega
  | binary op u v ihu ihv =>
    have := weight_binary o op (u.fold o) (v.fold o)
    rw [fold, size]
    omega
  | nary op es ih =>
    have hoperands : weightList (es.map (fold o)) ≤ 2 * sizeList es := by
      induction es with
      | nil => exact Nat.le_refl _
      | cons e es ihes =>
        obtain ⟨he, hes⟩ := List.forall_mem_cons.1 ih
        have := ihes hes
        rw [List.map_cons, weightList, sizeList]
        omega
    have := weight_nary o op (es.map (fold o))
    rw [fold, foldList_eq_map, size]
    omega
  | call f primes u ih =>
    rw [fold, weight, size]
    omega
  | derivative body name ih =>
    rw [fold, weight, size]
    omega
  | derivativeAt body name point ihbody ihpoint =>
    rw [fold, weight, size]
    omega
  | invalid issue => exact Nat.le_succ 1
  | invalidPart issue part _ =>
    rw [fold, weight, size]
    omega

/-- The parts of whatever was folded weigh less than it does. -/
theorem lightens_fold (o : Options) (e : Expr) : Lightens o (e.fold o) := by
  induction e using Expr.induction with
  | number n => exact lightens_literal o n
  | var name => exact lightens_leaf rfl
  | element sequence index _ => exact lightens_single rfl rfl (fold_fold o index)
  | unary op u ih => exact lightens_unary (fold_fold o u) ih op
  | binary op u v ihu ihv =>
    exact lightens_binary (fold_fold o u) (fold_fold o v) ihu ihv op
  | nary op es ih =>
    rw [fold, foldList_eq_map]
    exact lightens_nary (List.forall_mem_map.2 fun e _ => fold_fold o e) (List.forall_mem_map.2 ih)
  | call f primes u _ => exact lightens_single rfl rfl (fold_fold o u)
  | derivative body name _ => exact lightens_single rfl rfl (fold_fold o body)
  | derivativeAt body name point _ _ =>
    exact lightens_pair rfl rfl (fold_fold o body) (fold_fold o point)
  | invalid issue => exact lightens_leaf rfl
  | invalidPart issue part _ =>
    -- the part is folded only now, and it may double
    intro child hchild
    obtain rfl := List.mem_singleton.1 hchild
    exact Nat.lt_succ_of_le (weight_fold o child)

end Expr

namespace Reduction

open Formulary.Expr

/-! ## Enough fuel -/

variable {c : Catalog} {o : Options} {fuel more : Nat} {e : Expr}

/-- Fuel for the weight of the folded expression lasts, and more makes no difference. -/
theorem reduceWithin_of_le (h : (e.fold o).weight ≤ fuel) (hmore : fuel ≤ more) :
    reduceWithin c o more e = reduceWithin c o fuel e := by
  induction fuel generalizing e more with
  | zero => exact absurd h (Nat.not_le.2 (weight_pos _))
  | succ fuel ih =>
    cases more with
    | zero => exact absurd hmore (Nat.not_succ_le_zero fuel)
    | succ more =>
      have hparts : (e.fold o).children.map (reduceWithin c o more) =
          (e.fold o).children.map (reduceWithin c o fuel) := by
        refine List.map_congr_left fun part hpart => ?_
        have hless := lightens_fold o e part hpart
        exact ih (by omega) (Nat.le_of_succ_le_succ hmore)
      rw [reduceWithin, reduceWithin, hparts]

/-- A reduction has fuel enough: more of it gives the same result and the same steps. -/
theorem reduceWithin_eq_reduce (h : 2 * e.size ≤ fuel) :
    reduceWithin c o fuel e = e.reduce c o := by
  have hweight := weight_fold o e
  have hbound : (e.fold o).weight ≤ 2 * e.size + 1 := by omega
  rw [Expr.reduce, reduceWithin_of_le hweight h, reduceWithin_of_le hweight (Nat.le_succ _)]

/-- A reduction folds an expression, reduces its parts and then applies rules to what they give. -/
theorem reduce_eq (c : Catalog) (o : Options) (e : Expr) :
    e.reduce c o =
      let (parts, steps) := gather ((e.fold o).children.map (Expr.reduce c o))
      let (result, more) := applyRules c limit ((e.fold o).withChildren parts)
      (result, steps ++ more) := by
  have hparts : (e.fold o).children.map (reduceWithin c o (2 * e.size)) =
      (e.fold o).children.map (Expr.reduce c o) := by
    refine List.map_congr_left fun part hpart => ?_
    have hless := lightens_fold o e part hpart
    have hweight := weight_fold o e
    have hfuel : (part.fold o).weight ≤ 2 * e.size := by omega
    rw [← reduceWithin_of_le hfuel (Nat.le_max_left _ (2 * part.size)),
      reduceWithin_eq_reduce (Nat.le_max_right _ _)]
  rw [Expr.reduce, reduceWithin, hparts]

end Reduction

end Formulary
