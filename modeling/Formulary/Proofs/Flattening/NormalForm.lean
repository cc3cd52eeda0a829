import Formulary.Expr.Equality
import Formulary.Proofs.Flattening.Value

/-!
# The shape of a flattened expression

Nothing is left of the binary operators of sums and products, and every sum or product has at least
two operands, sorted if they are factors. A further step would be that no operand of a sum is a sum
and no operand of a product is a product. Flattening takes it everywhere but in one place: a double
inverse that cancels may uncover a group of the family, and the group stays as it is. So `x--(a+b)`
becomes the sum of `x` and `a+b`, and only flattening it again gives the sum of all three.

Flattening leaves an expression alone exactly if this step is done. It is done where no group is
uncovered, and in any case after flattening twice, since no inverse is passed on the second time.
-/

namespace Formulary

open Flattened

namespace Expr

/-! ## Normal forms -/

/-- The operation is a sum or a product of the family. -/
def isGroup (op : Family) : Expr → Bool
  | nary p _ => p == op
  | _ => false

/-- The operation is written with a binary operator of a family. -/
def isChain : Expr → Bool
  | binary op _ _ => op.family?.isSome
  | _ => false

/-- No operand of the operation is an operation of the same family. -/
def isSpliced : Expr → Bool
  | nary op es => es.all (!isGroup op ·)
  | _ => true

/-- No sum or product in the expression has a part to be spliced in. -/
def IsFlat (e : Expr) : Prop := ∀ node ∈ e.nodes, node.isChain = false ∧ node.isSpliced = true

/-- The inverse of a subtracted or divided operand does not uncover a group of the same family. -/
def isCovered : Expr → Bool
  | binary op _ rhs =>
    match op.family? with
    | some f => op == f.binary || (inverted f rhs.flatten).all (!isGroup f ·)
    | none => true
  | _ => true

/-- Flattening the expression uncovers no group under a double inverse. -/
def Covered (e : Expr) : Prop := ∀ node ∈ e.nodes, node.isCovered = true

instance (e : Expr) : Decidable e.IsFlat := inferInstanceAs (Decidable (∀ _ ∈ e.nodes, _))

instance (e : Expr) : Decidable e.Covered := inferInstanceAs (Decidable (∀ _ ∈ e.nodes, _))

/-- What a flattened node is like. The operands of a sum or product are spliced in where the
flattening is asked to be thorough. -/
def IsNormal (thorough : Prop) : Expr → Prop
  | binary op _ _ => op.family? = none
  | nary op es =>
    2 ≤ es.length ∧ arranged op es = es ∧ (thorough → ∀ e ∈ es, e.isGroup op = false)
  | invalid _ | invalidPart _ _ => False
  | _ => True

/-- Every node of the expression is like a flattened node. -/
def Normal (thorough : Prop) (e : Expr) : Prop := ∀ node ∈ e.nodes, node.IsNormal thorough

variable {thorough : Prop} {e : Expr} {op : Family} {es : List Expr}

theorem normal_iff :
    e.Normal thorough ↔ e.IsNormal thorough ∧ ∀ part ∈ e.children, part.Normal thorough :=
  forall_mem_nodes

theorem Normal.of_child (h : e.Normal thorough) {part : Expr} (hpart : part ∈ e.children) :
    part.Normal thorough :=
  (normal_iff.1 h).2 part hpart

/-- A normal expression that is flattened thoroughly is flat, and nothing else is. -/
theorem isFlat_iff_normal (h : e.Normal False) : e.IsFlat ↔ e.Normal True := by
  refine forall₂_congr fun node hnode => ?_
  have hnode := h node hnode
  cases node with
  | binary op lhs rhs => simp [isChain, isSpliced, IsNormal]
  | nary op es =>
    have hnode : 2 ≤ es.length ∧ arranged op es = es := ⟨hnode.1, hnode.2.1⟩
    simp [isChain, isSpliced, IsNormal, hnode]
  | invalid _ | invalidPart _ _ => exact hnode.elim
  | _ => simp [isChain, isSpliced, IsNormal]

/-- Without binary operators of the families nothing is subtracted or divided. -/
theorem covered_of_normal (h : e.Normal False) : e.Covered := by
  intro node hnode
  have hnode := h node hnode
  cases node with
  | binary op lhs rhs =>
    rw [isCovered, show op.family? = none from hnode]
  | _ => rfl

theorem hasIssue_of_normal (h : e.Normal thorough) : e.hasIssue = false := by
  rw [Bool.eq_false_iff]
  intro hissue
  obtain ⟨node, hnode, hown⟩ := List.findSome?_isSome_iff.1 hissue
  have hnode := h node hnode
  cases node with
  | invalid _ | invalidPart _ _ => exact hnode
  | _ => simp [ownIssue?] at hown

/-! ## Normal rows -/

/-- An operand of a row is normal, and no group of the family if the flattening is thorough. -/
def Joins (thorough : Prop) (op : Family) (e : Expr) : Prop :=
  e.Normal thorough ∧ (thorough → e.isGroup op = false)

theorem spread_of_not_isGroup (h : e.isGroup op = false) : spread op e = [e] := by
  cases e with
  | nary p es =>
    have hne : p ≠ op := by simpa [isGroup] using h
    exact if_neg hne
  | _ => rfl

/-- The operands of an expression in normal form may join an operation. -/
theorem joins_of_mem_spread (h : e.Normal thorough) {part : Expr} (hpart : part ∈ spread op e) :
    part.Joins thorough op := by
  by_cases hgroup : e.isGroup op = true
  · cases e with
    | nary p es =>
      obtain rfl : p = op := by simpa [isGroup] using hgroup
      have hpart : part ∈ es := by simpa [spread] using hpart
      exact ⟨h.of_child hpart, fun ht => (normal_iff.1 h).1.2.2 ht part hpart⟩
    | _ => cases hgroup
  · rw [Bool.not_eq_true] at hgroup
    rw [spread_of_not_isGroup hgroup, List.mem_singleton] at hpart
    subst hpart
    exact ⟨h, fun _ => hgroup⟩

end Expr

namespace Flattened

open Formulary.Expr

/-! ## Sorted operands -/

/-- Collecting by key keeps the elements of every key in order. -/
theorem filter_flatMap_filter {α κ : Type} [BEq κ] [LawfulBEq κ] (key : α → κ) {ks : List κ}
    (hnodup : ks.Nodup) {k : κ} (hk : k ∈ ks) (as : List α) :
    (ks.flatMap fun k => as.filter (key · == k)).filter (key · == k) =
      as.filter (key · == k) := by
  have hother {j : κ} (hj : k ≠ j) : (as.filter (key · == j)).filter (key · == k) = [] := by
    rw [List.filter_filter, List.filter_eq_nil_iff]
    intro a _ h
    simp only [Bool.and_eq_true, beq_iff_eq] at h
    exact hj (h.1.symm.trans h.2)
  induction ks with
  | nil => cases hk
  | cons j ks ih =>
    obtain ⟨hj, hnodup⟩ := List.nodup_cons.1 hnodup
    rw [List.flatMap_cons, List.filter_append]
    rcases List.mem_cons.1 hk with rfl | hmem
    · have hrest : (ks.flatMap fun j => as.filter (key · == j)).filter (key · == k) = [] := by
        rw [List.filter_flatMap, List.flatMap_eq_nil_iff]
        intro i hi
        refine hother ?_
        rintro rfl
        exact hj hi
      rw [hrest, List.append_nil, List.filter_filter]
      simp only [Bool.and_self]
    · have hne : k ≠ j := by
        rintro rfl
        exact hj hmem
      rw [hother hne, List.nil_append, ih hnodup hmem]

theorem arranged_arranged (op : Family) (es : List Expr) :
    arranged op (arranged op es) = arranged op es := by
  cases op with
  | sum => rfl
  | product =>
    change sortByKind (sortByKind es) = sortByKind es
    refine List.flatMap_congr fun k hk => ?_
    exact filter_flatMap_filter Expr.kind (by decide) hk es

/-! ## Normal flattened expressions -/

section

variable {thorough : Prop} {op : Family} {e : Expr} {es : List Expr}

theorem normal_build (h : ∀ e ∈ es, e.Joins thorough op) : (build op es).Normal thorough := by
  rw [build_eq]
  have hperm := arranged_perm op es
  have hall : ∀ e ∈ arranged op es, e.Joins thorough op := fun e he => h e (hperm.mem_iff.1 he)
  have hsorted := arranged_arranged op es
  generalize arranged op es = fs at hall hsorted
  match fs, hall, hsorted with
  | [], _, _ =>
    refine normal_iff.2 ⟨trivial, fun part hpart => ?_⟩
    cases hpart
  | [e], hall, _ => exact (hall e List.mem_cons_self).1
  | a :: b :: fs, hall, hsorted =>
    refine normal_iff.2 ⟨⟨?_, hsorted, fun ht e he => (hall e he).2 ht⟩, fun e he => (hall e he).1⟩
    simp

/-- The whole of a flattened expression is normal, and so are the operands it brings. -/
structure Tidy (thorough : Prop) (f : Flattened) : Prop where
  whole : f.whole.Normal thorough
  operands (op : Family) : ∀ e ∈ f.operands op, e.Joins thorough op

theorem tidy_ofExpr (h : e.Normal thorough) : Tidy thorough (ofExpr e) := by
  refine ⟨h, fun op part hpart => ?_⟩
  rw [operands_ofExpr] at hpart
  exact joins_of_mem_spread h hpart

theorem tidy_ofOperands (h : ∀ e ∈ es, e.Joins thorough op) :
    Tidy thorough (ofOperands op es) := by
  have hwhole := normal_build h
  refine ⟨by rwa [whole_ofOperands], fun other part hpart => ?_⟩
  rw [operands_ofOperands] at hpart
  split at hpart
  · rename_i heq
    rw [heq]
    exact h part hpart
  · exact joins_of_mem_spread hwhole hpart

theorem normal_unary {uop : UnaryOp} (h : e.Normal thorough) :
    (Expr.unary uop e).Normal thorough :=
  normal_iff.2 ⟨trivial, fun part hpart => by
    rw [List.mem_singleton.1 hpart]
    exact h⟩

theorem normal_invert (h : e.Normal thorough) : (invert op e).Normal thorough := by
  unfold invert
  split
  · split
    · exact h.of_child List.mem_cons_self
    · exact normal_unary h
  · exact normal_unary h

/-- The inverses of operands are normal again; only a group of the family they uncover is not. -/
theorem joins_of_mem_inverted (h : e.Normal thorough)
    (hcovered : thorough → ∀ part ∈ inverted op e, part.isGroup op = false) {part : Expr}
    (hpart : part ∈ inverted op e) : part.Joins thorough op := by
  refine ⟨?_, fun ht => hcovered ht part hpart⟩
  obtain ⟨operand, hoperand, rfl⟩ := List.mem_map.1 hpart
  exact normal_invert (joins_of_mem_spread h hoperand).1

/-- The flattened operation is tidy, and thoroughly so if no operand uncovers a group. -/
theorem Tidy.binary {f g : Flattened} (hf : Tidy thorough f) (hg : Tidy thorough g)
    {bop : BinaryOp} (hcovered : thorough → ∀ op, bop.family? = some op → bop ≠ op.binary →
      ∀ part ∈ inverted op g.whole, part.isGroup op = false) :
    Tidy thorough (Flattened.binary bop f g) := by
  unfold Flattened.binary
  cases hop : bop.family? with
  | none =>
    exact tidy_ofExpr (normal_iff.2 ⟨hop, forall_mem_pair.2 ⟨hf.whole, hg.whole⟩⟩)
  | some op =>
    refine tidy_ofOperands fun part hpart => ?_
    rcases List.mem_append.1 hpart with hpart | hpart
    · exact hf.operands op part hpart
    · split at hpart
      · exact hg.operands op part hpart
      · rename_i hinverse
        exact joins_of_mem_inverted hg.whole (fun ht => hcovered ht op hop hinverse) hpart

end

end Flattened

namespace Expr

/-! ## Flattening -/

variable {thorough : Prop} {e : Expr}

theorem Covered.of_child (h : e.Covered) {part : Expr} (hpart : part ∈ e.children) :
    part.Covered :=
  (forall_mem_nodes.1 h).2 part hpart

theorem Covered.inverted {bop : BinaryOp} {lhs rhs : Expr} (h : (binary bop lhs rhs).Covered)
    {op : Family} (hop : bop.family? = some op) (hinverse : bop ≠ op.binary) :
    ∀ part ∈ inverted op rhs.flatten, part.isGroup op = false := by
  have hroot := (forall_mem_nodes.1 h).1
  rw [isCovered, hop] at hroot
  simpa [hinverse] using hroot

/-- The induction follows the expression; the flattening is thorough as long as no group is
uncovered. -/
theorem tidy_flattened (e : Expr) (hissue : e.hasIssue = false) (h : thorough → e.Covered) :
    Tidy thorough e.flattened := by
  have hsingle {e part : Expr} (hroot : e.IsNormal thorough) (hparts : e.children = [part])
      (hpart : part.Normal thorough) : Tidy thorough (ofExpr e) := by
    refine tidy_ofExpr (normal_iff.2 ⟨hroot, ?_⟩)
    rw [hparts, List.forall_mem_singleton]
    exact hpart
  induction e using Expr.induction with
  | number n => exact tidy_ofExpr (normal_iff.2 ⟨trivial, List.forall_mem_nil _⟩)
  | var name => exact tidy_ofExpr (normal_iff.2 ⟨trivial, List.forall_mem_nil _⟩)
  | element sequence index ih =>
    rw [hasIssue_element] at hissue
    exact hsingle trivial rfl (ih hissue fun ht => (h ht).of_child List.mem_cons_self).whole
  | unary op u ih =>
    rw [hasIssue_unary] at hissue
    exact hsingle trivial rfl (ih hissue fun ht => (h ht).of_child List.mem_cons_self).whole
  | binary op u v ihu ihv =>
    rw [hasIssue_binary, Bool.or_eq_false_iff] at hissue
    have hu := ihu hissue.1 fun ht => (h ht).of_child List.mem_cons_self
    have hv := ihv hissue.2 fun ht => (h ht).of_child (List.mem_cons_of_mem _ List.mem_cons_self)
    exact hu.binary hv fun ht _ => (h ht).inverted
  | nary op es ih =>
    rw [hasIssue_nary, List.any_eq_false] at hissue
    refine tidy_ofOperands fun part hpart => ?_
    rw [flattenedOperands_eq_flatMap] at hpart
    obtain ⟨e, he, hpart⟩ := List.mem_flatMap.1 hpart
    have hissue := Bool.eq_false_iff.2 (hissue e he)
    exact (ih e he hissue fun ht => (h ht).of_child he).operands op part hpart
  | call f primes u ih =>
    rw [hasIssue_call] at hissue
    exact hsingle trivial rfl (ih hissue fun ht => (h ht).of_child List.mem_cons_self).whole
  | derivative body name ih =>
    rw [hasIssue_derivative] at hissue
    exact hsingle trivial rfl (ih hissue fun ht => (h ht).of_child List.mem_cons_self).whole
  | derivativeAt body name point ihbody ihpoint =>
    rw [hasIssue_derivativeAt, Bool.or_eq_false_iff] at hissue
    have hbody := ihbody hissue.1 fun ht => (h ht).of_child List.mem_cons_self
    have hpoint := ihpoint hissue.2 fun ht =>
      (h ht).of_child (List.mem_cons_of_mem _ List.mem_cons_self)
    exact tidy_ofExpr (normal_iff.2 ⟨trivial, forall_mem_pair.2 ⟨hbody.whole, hpoint.whole⟩⟩)
  | invalid issue => simp at hissue
  | invalidPart issue part _ => simp at hissue

theorem normal_flatten (hissue : e.hasIssue = false) : e.flatten.Normal False :=
  (tidy_flattened e hissue False.elim).whole

/-- A covered expression is flat once it is flattened. -/
theorem isFlat_flatten (hissue : e.hasIssue = false) (h : e.Covered) : e.flatten.IsFlat :=
  (isFlat_iff_normal (normal_flatten hissue)).2 (tidy_flattened e hissue fun _ => h).whole

theorem ofOperands_of_normal {op : Family} {es : List Expr}
    (h : (nary op es).IsNormal True) : ofOperands op es = ofExpr (nary op es) := by
  obtain ⟨hlength, hsorted, -⟩ := h
  have hbuild : build op es = nary op es := by
    rw [build_eq, hsorted]
    match es, hlength with
    | _ :: _ :: _, _ => rfl
  cases op with
  | sum | product => simp [ofOperands, ofExpr, hbuild, spread]

/-- Nothing changes where everything is flat. -/
theorem flattened_of_normal (e : Expr) (h : e.Normal True) : e.flattened = ofExpr e := by
  induction e using Expr.induction with
  | number | var | invalid | invalidPart => rfl
  | element _ _ ih | unary _ _ ih | call _ _ _ ih | derivative _ _ ih =>
    rw [flattened, ih (h.of_child List.mem_cons_self)]
    rfl
  | binary op u v ihu ihv =>
    rw [flattened, ihu (h.of_child List.mem_cons_self),
      ihv (h.of_child (List.mem_cons_of_mem _ List.mem_cons_self)), Flattened.binary,
      show op.family? = none from (normal_iff.1 h).1]
    rfl
  | derivativeAt body name point ihbody ihpoint =>
    rw [flattened, ihbody (h.of_child List.mem_cons_self),
      ihpoint (h.of_child (List.mem_cons_of_mem _ List.mem_cons_self))]
    rfl
  | nary op es ih =>
    have hroot := (normal_iff.1 h).1
    have hoperands : flattenedOperands op es = es := by
      rw [flattenedOperands_eq_flatMap]
      conv_rhs => rw [← List.flatMap_singleton' es]
      refine List.flatMap_congr fun e he => ?_
      rw [ih e he (h.of_child he), ← spread_of_not_isGroup (hroot.2.2 trivial e he)]
      cases op <;> rfl
    rw [flattened, hoperands, ofOperands_of_normal hroot]

theorem flatten_of_normal (h : e.Normal True) : e.flatten = e := by
  rw [flatten, flattened_of_normal e h]
  rfl

/-- The shape of a flattened expression. No sum or product is written with a binary operator. Where
no group is uncovered under a double inverse, nothing remains to be spliced in; flattening again
changes nothing exactly if nothing remains; and nothing remains after flattening twice. -/
theorem flatten_normal_form (hissue : e.hasIssue = false) :
    (∀ node ∈ e.flatten.nodes, node.isChain = false) ∧
      (e.Covered → e.flatten.IsFlat ∧ e.flatten.flatten = e.flatten) ∧
      (e.flatten.flatten = e.flatten ↔ e.flatten.IsFlat) ∧
      e.flatten.flatten.IsFlat ∧ e.flatten.flatten.flatten = e.flatten.flatten := by
  have hnormal := normal_flatten hissue
  have htwice : e.flatten.flatten.IsFlat :=
    isFlat_flatten (hasIssue_of_normal hnormal) (covered_of_normal hnormal)
  have hfixed {e : Expr} (h : e.Normal False) (hflat : e.IsFlat) : e.flatten = e :=
    flatten_of_normal ((isFlat_iff_normal h).1 hflat)
  have honce : e.flatten.flatten = e.flatten ↔ e.flatten.IsFlat :=
    ⟨fun h => h ▸ htwice, hfixed hnormal⟩
  refine ⟨fun node hnode => ?_, fun h => ?_, honce, htwice, ?_⟩
  · have hnode := hnormal node hnode
    cases node with
    | binary op lhs rhs =>
      rw [isChain, show op.family? = none from hnode]
      rfl
    | _ => rfl
  · exact ⟨isFlat_flatten hissue h, honce.2 (isFlat_flatten hissue h)⟩
  · exact hfixed (normal_flatten (hasIssue_of_normal hnormal)) htwice

theorem flatten_normal_form_quotient :
    ∃ e, e = binary .sub (var "x") (binary .div (binary .sub (var "a") (unary .neg (var "b")))
        (binary .mul (var "c") (nary .sum [var "x", binary .add (var "y") (ofInt 1)]))) ∧
      e.hasIssue = false ∧ e.Covered ∧ e.flatten.IsFlat ∧ e.flatten.flatten = e.flatten := by
  refine ⟨_, rfl, ?readable, ?covered, (flatten_normal_form ?readable).2.1 ?covered⟩
  case readable => decide
  case covered => decide

/-- The double inverse of a subtracted sum uncovers the sum, which then stays inside of the other
until the expression is flattened again. -/
theorem flatten_of_double_negation :
    ∃ e, e = binary .sub (var "x") (unary .neg (binary .add (var "a") (var "b"))) ∧
      e.hasIssue = false ∧ e.flatten = nary .sum [var "x", nary .sum [var "a", var "b"]] ∧
      ¬ e.flatten.IsFlat ∧ e.flatten.flatten = nary .sum [var "x", var "a", var "b"] ∧
      e.flatten.flatten ≠ e.flatten := by
  refine ⟨_, rfl, ?_⟩
  decide

end Expr

end Formulary
