import Formulary.Proofs.EditTree.Walk

/-!
# Compacting a sound tree

The nodes that a walk from the root comes to are closed under their links, so each of them has a new
number that its neighbours can refer to, and each number behind the new root belongs to one of them
(`exists_idxOf_eq`). What the new nodes list are the new numbers of what the old ones listed
(`children_compact`, `parent?_compact`). The walk comes to a part after its parent, hence the
compacted tree is sound (`sound_compact`).
-/

namespace Formulary.EditTree

variable {t : EditTree} {id c p k : Nat} {n : Node}

/-! ## Numbers in the order -/

theorem getElem?_idxOf {ids : List Nat} (h : id ∈ ids) : ids[ids.idxOf id]? = some id := by
  rw [List.getElem?_eq_getElem (List.idxOf_lt_length_iff.2 h), List.getElem_idxOf]

/-- The place of a node in the order, if it has one. -/
theorem idxOf?_eq_some {ids : List Nat} (h : id ∈ ids) : ids.idxOf? id = some (ids.idxOf id) :=
  List.findIdx?_eq_some_of_exists ⟨id, h, beq_self_eq_true id⟩

theorem getElem?_filterMap_node? {ids : List Nat} (h : ∀ id ∈ ids, id < t.nodes.length) (k : Nat) :
    (ids.filterMap t.node?)[k]? = ids[k]? >>= t.node? := by
  induction ids generalizing k with
  | nil => rfl
  | cons id ids ih =>
    obtain ⟨n, hn⟩ := exists_node? (h id List.mem_cons_self)
    rw [List.filterMap_cons_some hn]
    cases k with
    | zero => exact hn.symm
    | succ k => exact ih (fun id hid => h id (List.mem_cons_of_mem _ hid)) k

/-! ## The compacted tree -/

/-- A node with the new numbers of its neighbours. -/
def renumber (t : EditTree) (n : Node) : Node :=
  { n with children := n.children.map t.order.idxOf, parent := n.parent.map t.order.idxOf }

theorem compact_eq : t.compact =
    (t.order, ⟨(t.order.filterMap t.node?).map t.renumber, t.order.idxOf t.root⟩) := rfl

theorem node?_compact (ht : t.Sound) (k : Nat) :
    t.compact.2.node? k = (t.order[k]? >>= t.node?).map t.renumber := by
  rw [← getElem?_filterMap_node? fun _ => lt_of_mem_order ht]
  exact List.getElem?_map

theorem length_compact (ht : t.Sound) : t.compact.2.nodes.length = t.order.length := by
  refine Nat.le_antisymm ?_ ?_
  · rw [compact_eq, List.length_map]
    exact List.length_filterMap_le _ _
  · -- a number that the order does not reach has no node
    refine Nat.le_of_not_lt fun h => ?_
    have hmem := List.getElem_mem h
    obtain ⟨n, hn⟩ := exists_node? (lt_of_mem_order ht hmem)
    have hnode := node?_compact ht t.compact.2.nodes.length
    rw [List.getElem?_eq_getElem h, node?_eq_none (Nat.le_refl _)] at hnode
    cases hnode.trans (congrArg (Option.map t.renumber) hn)

/-- Every node of the compacted tree stands for one that the walk came to. -/
theorem exists_idxOf_eq (ht : t.Sound) (hk : k < t.compact.2.nodes.length) :
    ∃ id ∈ t.order, t.order.idxOf id = k := by
  rw [length_compact ht] at hk
  exact ⟨t.order[k], List.getElem_mem hk, (nodup_order ht).idxOf_getElem k hk⟩

section

variable (ht : t.Sound) (hid : id ∈ t.order)

include ht hid

theorem node?_compact_idxOf :
    t.compact.2.node? (t.order.idxOf id) = (t.node? id).map t.renumber := by
  rw [node?_compact ht, getElem?_idxOf hid]
  rfl

theorem children_compact :
    t.compact.2.children (t.order.idxOf id) = (t.children id).map t.order.idxOf :=
  children_of_node?_map List.map_nil (fun _ => rfl) (node?_compact_idxOf ht hid)

theorem parent?_compact :
    t.compact.2.parent? (t.order.idxOf id) = (t.parent? id).map t.order.idxOf :=
  parent?_of_node?_map rfl (fun _ => rfl) (node?_compact_idxOf ht hid)

/-- The links of a node that is kept still fit together. -/
theorem linkedAt_compact : t.compact.2.LinkedAt (t.order.idxOf id) := by
  have hchildren := children_compact ht hid
  refine ⟨fun c hc => ?_, fun p hp => ?_, ?_, fun n hn => ?_⟩
  · rw [hchildren] at hc
    obtain ⟨c, hmem, rfl⟩ := List.mem_map.1 hc
    rw [parent?_compact ht (mem_order_of_mem_children ht hid hmem), ht.mem_children.1 hmem,
      Option.map_some]
  · rw [parent?_compact ht hid] at hp
    obtain ⟨p, hparent, rfl⟩ := Option.map_eq_some_iff.1 hp
    rw [children_compact ht (parent_mem_order ht hid hparent)]
    exact ⟨idxOf_parent_lt ht hid hparent, List.mem_map_of_mem (ht.mem_children.2 hparent)⟩
  · rw [hchildren]
    refine (ht.linked id).nodup.map_on fun c hc d hd heq => ?_
    exact (List.idxOf_inj (mem_order_of_mem_children ht hid hc)).1 heq
  · rw [node?_compact_idxOf ht hid, Option.mem_def, Option.map_eq_some_iff] at hn
    obtain ⟨m, hm, rfl⟩ := hn
    exact (List.length_map _).trans ((ht.linked id).slots m hm)

end

theorem sound_compact (ht : t.Sound) : t.compact.2.Sound := by
  have hroot := root_mem_order ht
  refine ⟨fun k => ?_, ?_, ?_⟩
  · rcases Nat.lt_or_ge k t.compact.2.nodes.length with hk | hk
    · obtain ⟨id, hid, rfl⟩ := exists_idxOf_eq ht hk
      exact linkedAt_compact ht hid
    · exact linkedAt_of_le hk
  · rw [length_compact ht]
    exact List.idxOf_lt_length_iff.2 hroot
  · refine (parent?_compact ht hroot).trans ?_
    rw [ht.parent?_root, Option.map_none]

/-! ## Compacting with what is found -/

/-- The new numbers of a node's neighbours, if they have one. -/
def renumber? (t : EditTree) (n : Node) : Option Node := do
  let children ← n.children.mapM t.order.idxOf?
  let parent ← n.parent.mapM t.order.idxOf?
  return { n with children, parent }

/-- Compaction that stops if a node does not exist or has a neighbour without a new number. -/
def compact? (t : EditTree) : Option (List Nat × EditTree) := do
  let old ← t.order.mapM t.node?
  let nodes ← old.mapM t.renumber?
  let root ← t.order.idxOf? t.root
  return (t.order, ⟨nodes, root⟩)

theorem mapM_eq_some_map {α β : Type} {f : α → Option β} {g : α → β} {as : List α}
    (h : ∀ a ∈ as, f a = some (g a)) : as.mapM f = some (as.map g) := by
  induction as with
  | nil => rfl
  | cons a as ih =>
    rw [List.mapM_cons, h a List.mem_cons_self, ih fun a ha => h a (List.mem_cons_of_mem _ ha)]
    rfl

theorem mapM_node? {ids : List Nat} (h : ∀ id ∈ ids, id < t.nodes.length) :
    ids.mapM t.node? = some (ids.filterMap t.node?) := by
  induction ids with
  | nil => rfl
  | cons id ids ih =>
    obtain ⟨n, hn⟩ := exists_node? (h id List.mem_cons_self)
    rw [List.mapM_cons, List.filterMap_cons_some hn, hn,
      ih fun id hid => h id (List.mem_cons_of_mem _ hid)]
    rfl

/-- Every neighbour of a node in the order has a new number. -/
theorem renumber?_eq (ht : t.Sound) (hid : id ∈ t.order) (hn : t.node? id = some n) :
    t.renumber? n = some (t.renumber n) := by
  have hchildren : n.children.mapM t.order.idxOf? = some (n.children.map t.order.idxOf) := by
    refine mapM_eq_some_map fun c hc => idxOf?_eq_some (mem_order_of_mem_children ht hid ?_)
    rwa [children_of_node? hn]
  have hparent : n.parent.mapM t.order.idxOf? = some (n.parent.map t.order.idxOf) := by
    cases hp : n.parent with
    | none => rfl
    | some p =>
      have hmem := parent_mem_order ht hid ((parent?_of_node? hn).trans hp)
      exact congrArg (Option.map some) (idxOf?_eq_some hmem)
  rw [renumber?, hchildren, hparent]
  rfl

/-- Everything that compaction looks up in a sound tree is there. -/
theorem compact?_eq (ht : t.Sound) : t.compact? = some t.compact := by
  have hnodes : (t.order.filterMap t.node?).mapM t.renumber? =
      some ((t.order.filterMap t.node?).map t.renumber) := by
    refine mapM_eq_some_map fun n hn => ?_
    obtain ⟨id, hid, hn⟩ := List.mem_filterMap.1 hn
    exact renumber?_eq ht hid hn
  have hroot := idxOf?_eq_some (root_mem_order ht)
  rw [compact?, mapM_node? fun _ => lt_of_mem_order ht, hroot]
  simp only [Option.bind_eq_bind, Option.bind_some, hnodes]
  rfl

end Formulary.EditTree
