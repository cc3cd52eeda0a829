import Formulary.Proofs.EditTree.Renumbering
import Formulary.Proofs.Expr.Preorder

/-!
# The selection of a tree

The selected nodes are found by a walk with a stack of numbers, the same walk as through an
expression. In a sound tree both go side by side: one by one, the nodes that the walk comes to are
at the positions of the expression of the tree (`forall₂_order`).

The nodes of an expression that has just been taken apart are numbered in this order, and selecting
nodes changes neither the order nor the expression. So the selection of such a tree lists the
selected nodes by their numbers, in the preorder of the expression. `walks_in_preorder` puts this
together with what the walk through the expression comes to.
-/

namespace Formulary

open StackWalk (Produces next?_concat)
open Formulary.Expr (Position)

namespace EditTree

variable {t : EditTree} {id k start steps : Nat} {parent : Option Nat} {es : List Expr}
  {agenda out : List Nat}

/-! ## The walk with a stack -/

/-- The stack is the agenda the other way around. -/
theorem Visits.produces (h : t.Visits agenda out) :
    Produces t.children agenda.reverse out [] := by
  induction h with
  | nil => exact .pause
  | cons node _ ih =>
    rw [List.reverse_append] at ih
    rw [List.reverse_cons]
    exact .next (by rw [next?_concat, children_of_node? node]) ih

theorem produces_order_iff (ht : t.Sound) :
    Produces t.children [t.root] out [] ↔ out = t.order :=
  (visits_order ht).produces.produces_iff

/-! ## Side by side with the expression -/

/-- A node is the one at a position of the expression of a tree. -/
structure IsAt (t : EditTree) (p : Position) (id : Nat) : Prop where
  /-- The path of the position leads to the node. -/
  follow : t.follow t.root p.path = some id
  /-- The node exists. -/
  lt : id < t.nodes.length
  /-- The expression at the node is the part at the position. -/
  subtree : t.subtree id = p.part

theorem IsAt.parts (ht : t.Sound) {p : Position} (h : t.IsAt p id) :
    List.Forall₂ t.IsAt p.parts (t.children id) := by
  rw [Position.parts, ← h.subtree, children_subtree ht h.lt, List.zipIdx_map, List.map_map,
    List.forall₂_map_left_iff]
  refine List.forall₂_of_length_eq_of_get List.length_zipIdx fun i _ hi => ?_
  have hchild : (t.children id)[i]? = some (t.children id)[i] := List.getElem?_eq_getElem hi
  simp only [List.get_eq_getElem, List.getElem_zipIdx, Nat.zero_add]
  exact ⟨follow_concat_eq_some.2 ⟨id, h.follow, hchild⟩, (ht.lt_of_getElem?_children hchild).2, rfl⟩

/-- One by one, the nodes of a tree are at the positions of its expression. -/
theorem forall₂_order (ht : t.Sound) : List.Forall₂ t.IsAt t.toExpr.positions t.order := by
  have hroot : t.IsAt ⟨[], t.toExpr⟩ t.root := ⟨rfl, ht.root_lt, rfl⟩
  have hpositions := (Expr.produces_positions_iff t.toExpr _).2 rfl
  -- the walk through the expression leads the one through the tree, to the end of both
  obtain ⟨out, left, hout, hat, hleft⟩ :=
    hpositions.forall₂ (fun _ _ h => h.parts ht) (.cons hroot .nil)
  cases hleft
  rwa [(produces_order_iff ht).1 hout] at hat

/-! ## The numbers of the nodes -/

/-- The nodes of expressions are numbered in preorder. -/
theorem Placed.preorder (h : Placed t start parent es) :
    t.Preorder (numbers start es) (List.range' start (Expr.sizeList es)) := by
  induction h with
  | nil => exact .nil
  | @cons start parent e es node _ _ ihparts ihrest =>
    have hsize := e.size_eq_sizeList_children
    have hrange : List.range' start (Expr.sizeList (e :: es)) =
        start :: (List.range' (start + 1) (Expr.sizeList e.children) ++
          List.range' (start + e.size) (Expr.sizeList es)) := by
      have hnext : start + e.size = start + 1 + Expr.sizeList e.children := by omega
      have htotal : Expr.sizeList (e :: es) =
          Expr.sizeList e.children + Expr.sizeList es + 1 := by
        rw [Expr.sizeList]
        omega
      rw [htotal, hnext, List.range'_append_1, List.range'_succ]
    rw [hrange]
    exact .cons node ihparts ihrest

theorem order_ofExpr (e : Expr) : (ofExpr e).order = List.range e.size := by
  have h := (placed_ofExpr e).preorder.visits.produces
  rw [List.range_eq_range']
  exact ((produces_order_iff (sound_ofExpr e)).1 h).symm

/-! ## Selecting nodes -/

section

variable (selected : Bool)

theorem subtreeWithin_select (levels : Nat) :
    (t.select id selected).subtreeWithin levels k = t.subtreeWithin levels k := by
  induction levels generalizing k with
  | zero => rfl
  | succ levels ih =>
    rw [subtreeWithin, subtreeWithin, node?_select]
    cases t.node? k with
    | none => rfl
    | some n =>
      simp only [Option.map_some]
      split <;> exact congrArg n.head.withChildren (List.map_congr_left fun _ _ => ih)

theorem toExpr_select : (t.select id selected).toExpr = t.toExpr := by
  rw [toExpr, toExpr, subtree, subtree, length_select, subtreeWithin_select]
  rfl

theorem walk_select : (t.select id selected).walk steps agenda = t.walk steps agenda := by
  induction steps generalizing agenda with
  | zero => rfl
  | succ steps ih =>
    cases agenda with
    | nil => rfl
    | cons k agenda => rw [walk, walk, children_select, ih]

theorem order_select : (t.select id selected).order = t.order := by
  rw [order, order, length_select, walk_select]
  rfl

end

/-- The tree after some nodes have been selected or taken out of the selection. -/
def marked (t : EditTree) (marks : List (Nat × Bool)) : EditTree :=
  marks.foldl (fun t mark => t.select mark.1 mark.2) t

/-- What selecting a node keeps, selecting several does. -/
theorem marked_keeps {p : EditTree → Prop} (h : ∀ t id selected, p t → p (t.select id selected))
    (ht : p t) (marks : List (Nat × Bool)) : p (t.marked marks) := by
  induction marks generalizing t with
  | nil => exact ht
  | cons mark marks ih => exact ih (h t mark.1 mark.2 ht)

/-- The walk through a tree goes along some positions in turn. -/
structure WalkedAlong (t : EditTree) (positions : List Position) : Prop where
  /-- A walk with a stack gives out the nodes in the order of the tree, and nothing else. -/
  produces : ∀ out, Produces t.children [t.root] out [] ↔ out = t.order
  /-- One by one, these nodes are at the positions. -/
  isAt : List.Forall₂ t.IsAt positions t.order
  /-- The nodes are numbered in this order. -/
  order : t.order = List.range positions.length
  /-- The selection lists the selected nodes in this order. -/
  selection : t.selection = (List.range positions.length).filter t.selected

/-- The walk through a tree goes along the positions, whatever is selected. -/
theorem walkedAlong_marked (e : Expr) (marks : List (Nat × Bool)) :
    ((ofExpr e).marked marks).WalkedAlong e.positions := by
  have ht : ((ofExpr e).marked marks).Sound :=
    marked_keeps (p := Sound) (fun _ _ selected ht => sound_select ht selected)
      (sound_ofExpr e) marks
  have hexpr : ((ofExpr e).marked marks).toExpr = e :=
    marked_keeps (p := fun t => t.toExpr = e)
      (fun _ _ selected h => (toExpr_select selected).trans h) (toExpr_ofExpr e) marks
  have horder : ((ofExpr e).marked marks).order = List.range e.size :=
    marked_keeps (p := fun t => t.order = List.range e.size)
      (fun _ _ selected h => (order_select selected).trans h) (order_ofExpr e) marks
  have hat := forall₂_order ht
  rw [hexpr] at hat
  have hlength : e.size = e.positions.length := by
    rw [hat.length_eq, horder, List.length_range]
  rw [hlength] at horder
  exact ⟨fun _ => produces_order_iff ht, hat, horder, by rw [selection, horder]⟩

end EditTree

/-- An expression is walked through in preorder, and so is its tree, whichever nodes have been
selected in it. -/
theorem walks_in_preorder (e : Expr) :
    e.WalkedAlong e.positions ∧
      ∀ marks, ((EditTree.ofExpr e).marked marks).WalkedAlong e.positions :=
  ⟨Expr.walkedAlong_positions e, EditTree.walkedAlong_marked e⟩

end Formulary
