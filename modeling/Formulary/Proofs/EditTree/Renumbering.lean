import Formulary.Proofs.EditTree.Editing
import Formulary.Proofs.EditTree.Path

/-!
# Compacting renumbers the nodes

A compacted tree is the tree from before with other numbers. The numbers are given out in preorder,
which `Preorder` describes by the shape of the tree rather than by a walk with an agenda; the walk of
the program comes to the nodes in this order (`preorder_order`). There are as many numbers as the
expression of the tree has nodes (`Preorder.length_eq`), and under its new number a node has its
expression, its selection and, renumbered, its neighbours.

`Renumbered` puts this together, and `edits_ofExpr_renumbered` says it of every tree that was made
from an expression and edited.
-/

namespace Formulary.EditTree

variable {t t' : EditTree} {id k : Nat} {n : Node} {ids out : List Nat} {e : Expr}

/-! ## Preorder -/

/-- The nodes from some nodes on downwards, each before its own parts and from left to right. -/
inductive Preorder (t : EditTree) : (ids out : List Nat) → Prop
  | nil : Preorder t [] []
  | cons {id n ids below out} (node : t.node? id = some n) (parts : Preorder t n.children below)
      (rest : Preorder t ids out) : Preorder t (id :: ids) (id :: (below ++ out))

/-- A walk with an agenda comes to the nodes in preorder. -/
theorem Preorder.visits (h : t.Preorder ids out) : t.Visits ids out := by
  induction h with
  | nil => exact .nil
  | cons node _ _ ihparts ihrest => exact .cons node (ihparts.append ihrest)

theorem exists_preorder_of_forall (h : ∀ id ∈ ids, ∃ out, t.Preorder [id] out) :
    ∃ out, t.Preorder ids out := by
  induction ids with
  | nil => exact ⟨[], .nil⟩
  | cons id ids ih =>
    obtain ⟨out, hout⟩ := h id List.mem_cons_self
    obtain ⟨rest, hrest⟩ := ih fun id hid => h id (List.mem_cons_of_mem _ hid)
    cases hout with
    | cons node parts _ => exact ⟨_, .cons node parts hrest⟩

theorem exists_preorder (ht : t.Sound) (hid : id < t.nodes.length) :
    ∃ out, t.Preorder [id] out := by
  refine ht.induction (fun id n hn ih => ?_) hid
  obtain ⟨below, hbelow⟩ := exists_preorder_of_forall ih
  rw [children_of_node? hn] at hbelow
  exact ⟨_, .cons hn hbelow .nil⟩

/-- The order of a sound tree is the preorder from its root. -/
theorem preorder_order (ht : t.Sound) : t.Preorder [t.root] t.order := by
  obtain ⟨out, hout⟩ := exists_preorder ht ht.root_lt
  have hvisits := hout.visits
  -- both walks have an end, so that enough steps lead to both
  have horder := (visits_order ht).walk_eq (Nat.le_max_left _ out.length)
  rw [hvisits.walk_eq (Nat.le_max_right _ _)] at horder
  exact horder ▸ hout

/-- There are as many nodes as their expressions have. -/
theorem Preorder.length_eq (ht : t.Sound) (h : t.Preorder ids out) :
    out.length = Expr.sizeList (ids.map t.subtree) := by
  induction h with
  | nil => rfl
  | cons node _ _ ihparts ihrest =>
    rw [List.length_cons, List.length_append, ihparts, ihrest, List.map_cons, Expr.sizeList,
      Expr.size_eq_sizeList_children, children_subtree ht (lt_of_node? node),
      children_of_node? node]
    omega

/-- The order has as many nodes as the expression. -/
theorem length_order (ht : t.Sound) : t.order.length = t.toExpr.size :=
  (preorder_order ht).length_eq ht

theorem idxOf_root_order (ht : t.Sound) : t.order.idxOf t.root = 0 := by
  generalize horder : t.order = order
  have h := preorder_order ht
  rw [horder] at h
  cases h with
  | cons => exact List.idxOf_cons_self

/-! ## A node under its new number -/

theorem selected_compact (ht : t.Sound) (hid : id ∈ t.order) :
    t.compact.2.selected (t.order.idxOf id) = t.selected id := by
  rw [selected, selected, node?_compact_idxOf ht hid, Option.any_map]
  rfl

/-- The expressions at the nodes stay when they are renumbered. -/
theorem subtree_compact (ht : t.Sound) (hid : id ∈ t.order) :
    t.compact.2.subtree (t.order.idxOf id) = t.subtree id := by
  have hlt := lt_of_mem_order ht hid
  revert hid
  refine ht.induction (fun id n hn ih hid => ?_) hlt
  have hnode := node?_compact_idxOf ht hid
  rw [hn] at hnode
  rw [subtree_eq (sound_compact ht) hnode, subtree_eq ht hn]
  refine congrArg n.head.withChildren ((List.map_map ..).trans (List.map_congr_left fun c hc => ?_))
  rw [← children_of_node? hn] at hc
  exact ih c hc (mem_order_of_mem_children ht hid hc)

/-! ## Compacting a tree -/

/-- What is left of a tree if its nodes get new numbers: a node that is part of the tree has one, and
the others have none. -/
structure Renumbered (t : EditTree) (new? : Nat → Option Nat) (t' : EditTree) : Prop where
  /-- The expression stays. -/
  toExpr : t'.toExpr = t.toExpr
  /-- The nodes with a new number are those that a path from the root leads to. -/
  reached : ∀ id, (new? id).isSome ↔ t.Above t.root id
  /-- Every number up to the number of nodes of the tree is that of one node. -/
  bijective : (∀ id k, new? id = some k → k < t.toExpr.size) ∧
    ∀ k < t.toExpr.size, ∃! id, new? id = some k
  /-- The numbers count the nodes in preorder. -/
  preorder : ∃ old, t.Preorder [t.root] old ∧ ∀ id k, new? id = some k ↔ old[k]? = some id
  /-- The root is the first node. -/
  root : new? t.root = some 0 ∧ t'.root = 0
  /-- No other nodes are kept. -/
  length : t'.nodes.length = t.toExpr.size
  /-- The expression at a node stays. -/
  subtree : ∀ id k, new? id = some k → t'.subtree k = t.subtree id
  /-- The selection stays. -/
  selected : ∀ id k, new? id = some k → t'.selected k = t.selected id
  /-- The parent of a node has a new number, by which the node refers to it. -/
  parent : ∀ id k, new? id = some k → (t.parent? id).mapM new? = some (t'.parent? k)
  /-- The parts of a node have new numbers, which the node lists in the same order. -/
  children : ∀ id k, new? id = some k → (t.children id).mapM new? = some (t'.children k)

/-- The places in the order are the new numbers. -/
theorem idxOf?_order (ht : t.Sound) : t.order.idxOf? id = some k ↔ t.order[k]? = some id := by
  rw [List.idxOf?_eq_some_iff, List.getElem?_eq_some_iff]
  refine exists_congr fun hk => and_iff_left_of_imp fun hid j hj heq => ?_
  exact Nat.ne_of_lt hj ((nodup_order ht).getElem_inj_iff.1 (heq.trans hid.symm))

theorem mem_order_of_idxOf? (h : t.order.idxOf? id = some k) :
    id ∈ t.order ∧ t.order.idxOf id = k := by
  have hmem : id ∈ t.order := List.isSome_idxOf?.1 (Option.isSome_of_eq_some h)
  exact ⟨hmem, Option.some.inj ((idxOf?_eq_some hmem).symm.trans h)⟩

theorem renumbered_compact (ht : t.Sound) : Renumbered t t.order.idxOf? t.compact.2 := by
  have hroot := root_mem_order ht
  refine ⟨?_, fun id => ?_, ⟨fun id k hk => ?_, fun k hk => ?_⟩, ?_, ⟨?_, ?_⟩, ?_,
    fun id k hk => ?_, fun id k hk => ?_, fun id k hk => ?_, fun id k hk => ?_⟩
  · exact subtree_compact ht hroot
  · rw [List.isSome_idxOf?, mem_order_iff_above ht]
  · obtain ⟨hmem, rfl⟩ := mem_order_of_idxOf? hk
    rw [← length_order ht]
    exact List.idxOf_lt_length_iff.2 hmem
  · rw [← length_order ht] at hk
    simp only [idxOf?_order ht, List.getElem?_eq_getElem hk, Option.some.injEq]
    exact ⟨_, rfl, fun id h => h.symm⟩
  · exact ⟨t.order, preorder_order ht, fun id k => idxOf?_order ht⟩
  · rw [idxOf?_eq_some hroot, idxOf_root_order ht]
  · exact idxOf_root_order ht
  · rw [length_compact ht, length_order ht]
  · obtain ⟨hmem, rfl⟩ := mem_order_of_idxOf? hk
    exact subtree_compact ht hmem
  · obtain ⟨hmem, rfl⟩ := mem_order_of_idxOf? hk
    exact selected_compact ht hmem
  · obtain ⟨hmem, rfl⟩ := mem_order_of_idxOf? hk
    rw [parent?_compact ht hmem]
    cases hp : t.parent? id with
    | none => rfl
    | some p => exact congrArg (Option.map some) (idxOf?_eq_some (parent_mem_order ht hmem hp))
  · obtain ⟨hmem, rfl⟩ := mem_order_of_idxOf? hk
    rw [children_compact ht hmem]
    exact mapM_eq_some_map fun c hc => idxOf?_eq_some (mem_order_of_mem_children ht hmem hc)

/-- However a tree has been edited, compacting it finds everything that it looks for, and only
renumbers the nodes that are part of the tree. -/
theorem edits_ofExpr_renumbered {steps : List Edit} (h : (ofExpr e).edits? steps = some t) :
    t.compact? = some t.compact ∧ Renumbered t t.compact.1.idxOf? t.compact.2 := by
  have ht := sound_edits_ofExpr h
  exact ⟨compact?_eq ht, renumbered_compact ht⟩

/-- In the tree of `a+b*c` the product is replaced by `d` and the tree compacted, before `d` is
selected and the name `a` replaced by `x*y`. The nodes of this product get the numbers before that of
`d`. -/
theorem edits_ofExpr_renumbered_product :
    ∃ t, (ofExpr (.binary .add (.var "a") (.binary .mul (.var "b") (.var "c")))).edits?
        [.replace 2 (.var "d"), .compact, .select 2 true,
          .replace 1 (.binary .mul (.var "x") (.var "y"))] = some t ∧
      t.compact? = some t.compact ∧ Renumbered t t.compact.1.idxOf? t.compact.2 ∧
      t.compact.1 = [0, 3, 4, 5, 2] ∧ t.compact.2.selection = [4] := by
  have h : ((ofExpr (.binary .add (.var "a") (.binary .mul (.var "b") (.var "c")))).edits?
      [.replace 2 (.var "d"), .compact, .select 2 true,
        .replace 1 (.binary .mul (.var "x") (.var "y"))]).isSome := by decide +kernel
  have horder : (Option.get _ h).compact.1 = [0, 3, 4, 5, 2] := by decide +kernel +revert
  have hselection : (Option.get _ h).compact.2.selection = [4] := by decide +kernel +revert
  have hsome := (Option.some_get h).symm
  obtain ⟨hfound, hrenumbered⟩ := edits_ofExpr_renumbered hsome
  exact ⟨_, hsome, hfound, hrenumbered, horder, hselection⟩

end Formulary.EditTree
