import Formulary.Proofs.EditTree.Walk
import Mathlib.Data.List.Induction

/-!
# Paths in a sound tree

A path from a node says at each level which part to go down to. At most one path leads from a node
to another (`follow_unique`): the last step is the place of the node in what its parent lists, and
what is before it is the path to the parent. The nodes that a walk comes to are the ones that a path
from the root leads to (`mem_order_iff_above`), and the same path leads to their expression in the
expression of the tree (`partAt?_subtree`).
-/

namespace Formulary.EditTree

variable {t : EditTree} {id c p k i : Nat} {path more : List Nat} {n : Node}

/-- The node that a path from a node leads to. -/
def follow (t : EditTree) : (id : Nat) → (path : List Nat) → Option Nat
  | id, [] => some id
  | id, i :: path => (t.children id)[i]? >>= fun c => follow t c path

/-- Some path leads from a node to another. -/
def Above (t : EditTree) (id k : Nat) : Prop := ∃ path, t.follow id path = some k

theorem follow_cons_eq_some :
    t.follow id (i :: path) = some k ↔
      ∃ c, (t.children id)[i]? = some c ∧ t.follow c path = some k :=
  Option.bind_eq_some_iff

theorem follow_append :
    t.follow id (path ++ more) = t.follow id path >>= fun k => t.follow k more := by
  induction path generalizing id with
  | nil => rfl
  | cons i path ih =>
    rw [List.cons_append, follow, follow]
    cases (t.children id)[i]? with
    | none => rfl
    | some c => exact ih

theorem follow_concat_eq_some :
    t.follow id (path ++ [i]) = some k ↔
      ∃ p, t.follow id path = some p ∧ (t.children p)[i]? = some k := by
  rw [follow_append, Option.bind_eq_bind, Option.bind_eq_some_iff]
  refine exists_congr fun p => and_congr_right fun _ => ?_
  rw [follow_cons_eq_some]
  exact ⟨fun ⟨c, hc, hk⟩ => Option.some.inj hk ▸ hc, fun h => ⟨k, h, rfl⟩⟩

namespace Sound

theorem lt_of_getElem?_children (ht : t.Sound) (h : (t.children id)[i]? = some c) :
    id < c ∧ c < t.nodes.length :=
  ht.lt_of_mem_children (List.mem_of_getElem? h)

/-- A path leads to greater numbers only. -/
theorem le_of_follow (ht : t.Sound) (h : t.follow id path = some k) : id ≤ k := by
  induction path generalizing id with
  | nil => exact Nat.le_of_eq (Option.some.inj h)
  | cons i path ih =>
    obtain ⟨c, hc, hk⟩ := follow_cons_eq_some.1 h
    exact Nat.le_trans (Nat.le_of_lt (ht.lt_of_getElem?_children hc).1) (ih hk)

theorem lt_of_follow_cons (ht : t.Sound) (h : t.follow id (i :: path) = some k) : id < k := by
  obtain ⟨c, hc, hk⟩ := follow_cons_eq_some.1 h
  exact Nat.lt_of_lt_of_le (ht.lt_of_getElem?_children hc).1 (ht.le_of_follow hk)

/-- A path leads to a node by way of its parent. -/
theorem above_iff (ht : t.Sound) :
    t.Above id k ↔ k = id ∨ ∃ p, t.Above id p ∧ t.parent? k = some p := by
  constructor
  · rintro ⟨path, hpath⟩
    cases path using List.reverseRecOn with
    | nil => exact .inl (Option.some.inj hpath).symm
    | append_singleton path i =>
      obtain ⟨p, hp, hk⟩ := follow_concat_eq_some.1 hpath
      exact .inr ⟨p, ⟨path, hp⟩, ht.mem_children.1 (List.mem_of_getElem? hk)⟩
  · rintro (rfl | ⟨p, ⟨path, hpath⟩, hp⟩)
    · exact ⟨[], rfl⟩
    · obtain ⟨i, hi⟩ := List.mem_iff_getElem?.1 (ht.mem_children.2 hp)
      exact ⟨path ++ [i], follow_concat_eq_some.2 ⟨p, hpath, hi⟩⟩

/-- There is one path between two nodes at most. -/
theorem follow_unique (ht : t.Sound) (hpath : t.follow id path = some k)
    (hmore : t.follow id more = some k) : path = more := by
  -- from the last step to the first, since a node has one parent but many parts
  induction path using List.reverseRecOn generalizing k more with
  | nil =>
    obtain rfl := Option.some.inj hpath
    cases more with
    | nil => rfl
    | cons => exact absurd (ht.lt_of_follow_cons hmore) (Nat.lt_irrefl _)
  | append_singleton path i ih =>
    obtain ⟨p, hp, hk⟩ := follow_concat_eq_some.1 hpath
    have hparent := ht.mem_children.1 (List.mem_of_getElem? hk)
    cases more using List.reverseRecOn with
    | nil =>
      obtain rfl := Option.some.inj hmore
      have := ht.le_of_follow hp
      have := ht.parent_lt hparent
      omega
    | append_singleton more j =>
      obtain ⟨q, hq, hk'⟩ := follow_concat_eq_some.1 hmore
      have hparent' := ht.mem_children.1 (List.mem_of_getElem? hk')
      obtain rfl := Option.some.inj (hparent.symm.trans hparent')
      have hlt := (List.getElem?_eq_some_iff.1 hk).1
      rw [ih hp hq, (List.getElem?_inj hlt (ht.linked p).nodup).1 (hk.trans hk'.symm)]

end Sound

/-- The order has the nodes below the root. -/
theorem mem_order_iff_above (ht : t.Sound) : k ∈ t.order ↔ t.Above t.root k := by
  induction k using Nat.strongRecOn with
  | _ k ih =>
    rw [mem_order ht, ht.above_iff]
    refine or_congr_right (exists_congr fun p => and_congr_left fun hp => ?_)
    exact ih p (ht.parent_lt hp)

/-! ## Expressions at the end of a path -/

theorem children_subtree (ht : t.Sound) (hid : id < t.nodes.length) :
    (t.subtree id).children = (t.children id).map t.subtree := by
  obtain ⟨n, hn⟩ := exists_node? hid
  have hslots := (ht.linked id).slots n hn
  rw [subtree_eq ht hn, Expr.children_withChildren (by rwa [List.length_map]),
    children_of_node? hn]

/-- The expression at the end of a path is the part along this path. -/
theorem partAt?_subtree (ht : t.Sound) (hid : id < t.nodes.length)
    (h : t.follow id path = some k) : (t.subtree id).partAt? path = some (t.subtree k) := by
  induction path generalizing id with
  | nil => exact congrArg (some ∘ t.subtree) (Option.some.inj h)
  | cons i path ih =>
    obtain ⟨c, hc, hk⟩ := follow_cons_eq_some.1 h
    rw [Expr.partAt?, children_subtree ht hid, List.getElem?_map, hc]
    exact ih (ht.lt_of_getElem?_children hc).2 hk

end Formulary.EditTree
