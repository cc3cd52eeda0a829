import Formulary.EditTree
import Formulary.Proofs.Expr.Parts

/-!
# Expressions laid out as nodes

`Placed t start parent es` says that the tree has the nodes of the expressions from number `start`
on, each expression before its own parts: this is what a layout puts there (`placed_of_layout`).

A node is linked if it and its neighbours agree about each other: its parts have it as their parent,
and its own parent, which has a smaller number, has it as a part. The nodes of a placed expression
are linked to each other, and all of them are once the node above lists the expressions as its parts
(`Placed.linkedAt`).
-/

namespace Formulary.EditTree

open Formulary.Expr (sizeList)

/-! ## Heads and numbers -/

section

variable {e : Expr} {es : List Expr} {start c : Nat} {parent : Option Nat}

theorem length_children_headOf (e : Expr) : (headOf e).children.length = e.children.length := by
  rw [headOf, Expr.children_withChildren (List.length_map _), List.length_map]

theorem headOf_withChildren (e : Expr) : (headOf e).withChildren e.children = e := by
  rw [headOf, Expr.withChildren_withChildren (List.length_map _) rfl, Expr.withChildren_children]

theorem length_numbers : (numbers start es).length = es.length := by
  induction es generalizing start with
  | nil => rfl
  | cons e es ih => rw [numbers, List.length_cons, ih, List.length_cons]

/-- Expressions side by side are numbered within the range that they take up. -/
theorem bounds_of_mem_numbers (h : c ∈ numbers start es) :
    start ≤ c ∧ c < start + sizeList es := by
  induction es generalizing start with
  | nil => cases h
  | cons e es ih =>
    have hpos := e.size_pos
    rw [sizeList]
    rcases List.mem_cons.1 h with rfl | hmem
    · omega
    · have := ih hmem
      omega

theorem nodup_numbers : (numbers start es).Nodup := by
  induction es generalizing start with
  | nil => exact List.nodup_nil
  | cons e es ih =>
    refine List.nodup_cons.2 ⟨fun h => ?_, ih⟩
    have hpos := e.size_pos
    have := bounds_of_mem_numbers h
    omega

theorem length_layout : (layout start parent es).length = sizeList es := by
  induction start, parent, es using layout.induct with
  | case1 => rw [layout, List.length_nil, sizeList]
  | case2 start parent e es hchildren hes =>
    rw [layout, List.length_cons, List.length_append, hchildren, hes, sizeList,
      Expr.size_eq_sizeList_children]
    omega

end

/-! ## Placed expressions -/

variable {t : EditTree}

/-- The tree has the nodes of some expressions with a common parent, numbered from `start` on. -/
inductive Placed (t : EditTree) : (start : Nat) → (parent : Option Nat) → List Expr → Prop
  | nil {start parent} : Placed t start parent []
  | cons {start parent e es}
      (node : t.node? start =
        some { head := headOf e, children := numbers (start + 1) e.children, parent := parent })
      (parts : Placed t (start + 1) (some start) e.children)
      (rest : Placed t (start + e.size) parent es) : Placed t start parent (e :: es)

theorem placed_of_layout {start : Nat} {parent : Option Nat} {es : List Expr}
    (h : ∀ k < sizeList es, t.node? (start + k) = (layout start parent es)[k]?) :
    Placed t start parent es := by
  induction start, parent, es using layout.induct with
  | case1 => exact .nil
  | case2 start parent e es hchildren hes =>
    have hsize := e.size_eq_sizeList_children
    rw [sizeList] at h
    simp only [layout] at h
    refine .cons ?_ (hchildren fun k hk => ?_) (hes fun k hk => ?_)
    · exact h 0 (by omega)
    · rw [Nat.add_assoc, Nat.add_comm 1, h (k + 1) (by omega), List.getElem?_cons_succ,
        List.getElem?_append_left (by rwa [length_layout])]
    · have hskip : start + e.size + k = start + (sizeList e.children + k + 1) := by omega
      rw [hskip, h _ (by omega), List.getElem?_cons_succ,
        List.getElem?_append_right (by rw [length_layout]; omega), length_layout,
        Nat.add_sub_cancel_left]

theorem Placed.parent?_of_mem {start c : Nat} {parent : Option Nat} {es : List Expr}
    (h : Placed t start parent es) (hc : c ∈ numbers start es) : t.parent? c = parent := by
  induction h with
  | nil => cases hc
  | cons node _ _ _ ih =>
    rcases List.mem_cons.1 hc with rfl | hmem
    · rw [parent?, node]
      rfl
    · exact ih hmem

/-! ## Linked nodes -/

/-- A node agrees with its neighbours about the links between them. -/
structure LinkedAt (t : EditTree) (id : Nat) : Prop where
  /-- Each part exists and has the node as its parent. -/
  child : ∀ c ∈ t.children id, t.parent? c = some id
  /-- The parent has a smaller number and lists the node as a part. -/
  parent : ∀ p, t.parent? id = some p → p < id ∧ id ∈ t.children p
  /-- No part is listed twice. -/
  nodup : (t.children id).Nodup
  /-- There is a part for every place of the head. -/
  slots : ∀ n ∈ t.node? id, n.children.length = n.head.children.length

theorem children_of_node? {id : Nat} {n : Node} (h : t.node? id = some n) :
    t.children id = n.children := by
  rw [children, h]

/-- The links of nodes that are placed fit together. -/
theorem Placed.linkedAt {start : Nat} {parent : Option Nat} {es : List Expr}
    (h : Placed t start parent es)
    (hparent : ∀ p, parent = some p → p < start ∧ ∀ c ∈ numbers start es, c ∈ t.children p)
    {id : Nat} (hlow : start ≤ id) (hhigh : id < start + sizeList es) : t.LinkedAt id := by
  induction h with
  | nil =>
    rw [sizeList] at hhigh
    omega
  | @cons start parent e es node parts rest ihparts ihrest =>
    have hsize := e.size_eq_sizeList_children
    have hchildren := children_of_node? node
    rw [sizeList] at hhigh
    rcases Nat.eq_or_lt_of_le hlow with rfl | hafter
    · refine ⟨fun c hc => ?_, fun p hp => ?_, ?_, fun n hn => ?_⟩
      · rw [hchildren] at hc
        exact parts.parent?_of_mem hc
      · rw [parent?, node] at hp
        exact (hparent p hp).imp_right fun hmem => hmem start List.mem_cons_self
      · rw [hchildren]
        exact nodup_numbers
      · obtain rfl := Option.some.inj (node.symm.trans hn)
        exact length_numbers.trans (length_children_headOf e).symm
    · rcases Nat.lt_or_ge id (start + e.size) with hpart | hrest
      · refine ihparts (fun p hp => ?_) (by omega) (by omega)
        obtain rfl := Option.some.inj hp
        exact ⟨by omega, fun c hc => by rwa [hchildren]⟩
      · refine ihrest (fun p hp => ?_) hrest (by omega)
        obtain ⟨hlt, hmem⟩ := hparent p hp
        exact ⟨by omega, fun c hc => hmem c (List.mem_cons_of_mem _ hc)⟩

end Formulary.EditTree
