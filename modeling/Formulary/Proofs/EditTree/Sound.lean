import Formulary.Proofs.EditTree.Layout
import Mathlib.Data.List.Nodup

/-!
# Sound trees

A tree is sound if every one of its nodes is linked, those that are no longer part of it included,
and the root has no parent. The tree of an expression is sound, and so is a tree after a node has
been selected or replaced, whichever node it was. Since a parent has a smaller number than its
parts, links never go round in a circle.
-/

namespace Formulary.EditTree

variable {t : EditTree} {id c p k : Nat} {n : Node}

/-- The links of all nodes fit together. -/
structure Sound (t : EditTree) : Prop where
  linked : ∀ id, t.LinkedAt id
  root_lt : t.root < t.nodes.length
  parent?_root : t.parent? t.root = none

/-! ## Looking nodes up -/

theorem lt_of_node? (h : t.node? id = some n) : id < t.nodes.length :=
  (List.getElem?_eq_some_iff.1 h).1

theorem exists_node? (h : id < t.nodes.length) : ∃ n, t.node? id = some n :=
  ⟨_, List.getElem?_eq_getElem h⟩

theorem node?_eq_none (h : t.nodes.length ≤ id) : t.node? id = none := List.getElem?_eq_none h

theorem parent?_of_node? (h : t.node? id = some n) : t.parent? id = n.parent := by
  rw [parent?, h]
  rfl

section

variable {t' : EditTree} {k' : Nat} {f : Node → Node}

/-- What a node lists that has been made from another. -/
theorem children_of_node?_map {g : List Nat → List Nat} (hnil : g [] = [])
    (hf : ∀ n, (f n).children = g n.children) (h : t'.node? k' = (t.node? k).map f) :
    t'.children k' = g (t.children k) := by
  rw [children, children, h]
  cases t.node? k with
  | none => exact hnil.symm
  | some n => exact hf n

theorem parent?_of_node?_map {g : Option Nat → Option Nat} (hnone : g none = none)
    (hf : ∀ n, (f n).parent = g n.parent) (h : t'.node? k' = (t.node? k).map f) :
    t'.parent? k' = g (t.parent? k) := by
  rw [parent?, parent?, h]
  cases t.node? k with
  | none => exact hnone.symm
  | some n => exact hf n

end

theorem lt_of_parent? (h : t.parent? id = some p) : id < t.nodes.length := by
  obtain ⟨n, hn, -⟩ := Option.bind_eq_some_iff.1 h
  exact lt_of_node? hn

theorem linkedAt_of_le (h : t.nodes.length ≤ id) : t.LinkedAt id := by
  have hnone := node?_eq_none h
  have hchildren : t.children id = [] := by rw [children, hnone]
  refine ⟨fun c hc => ?_, fun p hp => ?_, ?_, fun n hn => ?_⟩
  · rw [hchildren] at hc
    cases hc
  · have := lt_of_parent? hp
    omega
  · rw [hchildren]
    exact List.nodup_nil
  · cases hnone.symm.trans hn

namespace Sound

/-- A part is listed by its parent and by no other node. -/
theorem mem_children (ht : t.Sound) : c ∈ t.children p ↔ t.parent? c = some p :=
  ⟨(ht.linked p).child c, fun h => ((ht.linked c).parent p h).2⟩

/-- Parents have smaller numbers. -/
theorem parent_lt (ht : t.Sound) (h : t.parent? c = some p) : p < c :=
  ((ht.linked c).parent p h).1

theorem lt_of_mem_children (ht : t.Sound) (h : c ∈ t.children p) :
    p < c ∧ c < t.nodes.length := by
  have hparent := ht.mem_children.1 h
  exact ⟨ht.parent_lt hparent, lt_of_parent? hparent⟩

/-- What a node has because its parts have it, all nodes have. -/
@[elab_as_elim]
theorem induction {motive : Nat → Prop} (ht : t.Sound)
    (step : ∀ id n, t.node? id = some n → (∀ c ∈ t.children id, motive c) → motive id)
    (hid : id < t.nodes.length) : motive id := by
  -- on the number of nodes behind the node, where its parts are
  obtain ⟨m, hm⟩ : ∃ m, m = t.nodes.length - id := ⟨_, rfl⟩
  induction m using Nat.strongRecOn generalizing id with
  | _ m ih =>
    obtain ⟨n, hn⟩ := exists_node? hid
    refine step id n hn fun c hc => ?_
    obtain ⟨hlt, hc⟩ := ht.lt_of_mem_children hc
    exact ih (t.nodes.length - c) (by omega) hc rfl

end Sound

/-! ## The tree of an expression -/

theorem placed_ofExpr (e : Expr) : Placed (ofExpr e) 0 none [e] :=
  placed_of_layout fun k _ => by rw [Nat.zero_add]; rfl

theorem sound_ofExpr (e : Expr) : (ofExpr e).Sound := by
  have hlength : (ofExpr e).nodes.length = 0 + Expr.sizeList [e] := by
    rw [Nat.zero_add]
    exact length_layout
  refine ⟨fun id => ?_, ?_, (placed_ofExpr e).parent?_of_mem List.mem_cons_self⟩
  · rcases Nat.lt_or_ge id (ofExpr e).nodes.length with hlt | hge
    · exact (placed_ofExpr e).linkedAt (fun p hp => nomatch hp) (Nat.zero_le id) (hlength ▸ hlt)
    · exact linkedAt_of_le hge
  · have := e.size_pos
    rw [hlength]
    simp only [Expr.sizeList, ofExpr]
    omega

/-! ## Selecting a node -/

theorem node?_modify (f : Node → Node) :
    (t.modify id f).node? k = if id = k then (t.node? k).map f else t.node? k := by
  change (t.nodes.modify id f)[k]? = _
  rw [List.getElem?_modify]
  split
  · rfl
  · exact Option.map_id'

theorem length_modify (f : Node → Node) : (t.modify id f).nodes.length = t.nodes.length :=
  List.length_modify f t.nodes id

theorem node?_select (selected : Bool) :
    (t.select id selected).node? k =
      (t.node? k).map fun n => if id = k then { n with selected := selected } else n := by
  rw [select, node?_modify]
  by_cases h : id = k
  · simp [h]
  · simp [h]

theorem length_select (selected : Bool) : (t.select id selected).nodes.length = t.nodes.length :=
  length_modify _

theorem children_select (selected : Bool) : (t.select id selected).children k = t.children k :=
  children_of_node?_map (g := fun cs => cs) rfl (fun n => by split <;> rfl) (node?_select selected)

theorem parent?_select (selected : Bool) : (t.select id selected).parent? k = t.parent? k :=
  parent?_of_node?_map (g := fun p => p) rfl (fun n => by split <;> rfl) (node?_select selected)

/-- The selection is no part of the links. -/
theorem sound_select (ht : t.Sound) (selected : Bool) : (t.select id selected).Sound := by
  refine ⟨fun k => ⟨fun c hc => ?_, fun p hp => ?_, ?_, fun n hn => ?_⟩, ?_, ?_⟩
  · rw [children_select] at hc
    rw [parent?_select]
    exact (ht.linked k).child c hc
  · rw [parent?_select] at hp
    rw [children_select]
    exact (ht.linked k).parent p hp
  · rw [children_select]
    exact (ht.linked k).nodup
  · rw [node?_select, Option.mem_def, Option.map_eq_some_iff] at hn
    obtain ⟨m, hm, rfl⟩ := hn
    split <;> exact (ht.linked k).slots m hm
  · exact Nat.lt_of_lt_of_eq ht.root_lt (length_select selected).symm
  · exact (parent?_select selected).trans ht.parent?_root

/-! ## Replacing a part -/

/-- The number that a reference to a replaced node becomes. -/
def redirect (old new c : Nat) : Nat := if c = old then new else c

theorem redirect_of_ne {old new c : Nat} (h : c ≠ old) : redirect old new c = c := if_neg h

theorem map_redirect {old new : Nat} {cs : List Nat} (h : old ∉ cs) :
    cs.map (redirect old new) = cs := by
  refine (List.map_congr_left fun c hc => redirect_of_ne ?_).trans (List.map_id' cs)
  rintro rfl
  exact h hc

theorem relink_of_not_mem {old new : Nat} (h : old ∉ n.children) : relink old new n = n := by
  change { n with children := n.children.map (redirect old new) } = n
  rw [map_redirect h]

section

variable {e : Expr}

/-- The tree with the nodes of a new expression, before they are linked. -/
def grown (t : EditTree) (id : Nat) (e : Expr) : EditTree :=
  { t with nodes := t.nodes ++ layout t.nodes.length (t.parent? id) [e] }

theorem length_grown : (t.grown id e).nodes.length = t.nodes.length + e.size := by
  rw [grown, List.length_append, length_layout]
  rfl

theorem replace_eq : (t.replace id e).2 =
    (match t.parent? id with
      | some p => (t.grown id e).modify p (relink id t.nodes.length)
      | none => { t.grown id e with root := t.nodes.length }).modify id
        fun n => { n with parent := none } := rfl

theorem root_replace :
    (t.replace id e).2.root = if (t.parent? id).isSome then t.root else t.nodes.length := by
  rw [replace_eq]
  cases t.parent? id <;> rfl

theorem length_replace : (t.replace id e).2.nodes.length = t.nodes.length + e.size := by
  have hgrown : (t.grown id e).nodes.length = t.nodes.length + e.size := length_grown
  rw [replace_eq, length_modify, ← hgrown]
  cases t.parent? id with
  | none => rfl
  | some p => exact length_modify _

theorem node?_replace : (t.replace id e).2.node? k = ((t.grown id e).node? k).map fun n =>
    { if t.parent? id = some k then relink id t.nodes.length n else n with
      parent := if k = id then none else n.parent } := by
  have hlinked : (match t.parent? id with
      | some p => (t.grown id e).modify p (relink id t.nodes.length)
      | none => { t.grown id e with root := t.nodes.length }).node? k =
      ((t.grown id e).node? k).map fun n =>
        if t.parent? id = some k then relink id t.nodes.length n else n := by
    cases t.parent? id with
    | none => exact Option.map_id'.symm
    | some p =>
      simp only [node?_modify, Option.some.injEq]
      split
      · rfl
      · exact Option.map_id'.symm
  rw [replace_eq, node?_modify, hlinked]
  cases (t.grown id e).node? k with
  | none => split <;> rfl
  | some n =>
    by_cases hk : id = k <;> by_cases hp : t.parent? id = some k <;>
      simp [hk, hp, relink, eq_comm]

/-- In the nodes that were there before, the number of the replaced node gives way to the new one. -/
theorem node?_replace_of_lt (ht : t.Sound) (hk : k < t.nodes.length) :
    (t.replace id e).2.node? k = (t.node? k).map fun n =>
      { relink id t.nodes.length n with parent := if k = id then none else n.parent } := by
  obtain ⟨n, hn⟩ := exists_node? hk
  have hgrown : (t.grown id e).node? k = some n := (List.getElem?_append_left hk).trans hn
  rw [node?_replace, hgrown, hn, Option.map_some, Option.map_some]
  split
  · rfl
  · rename_i hparent
    -- a node that is not the parent does not list the replaced node
    have hmem : id ∉ n.children := by
      rwa [← children_of_node? hn, ht.mem_children]
    rw [relink_of_not_mem hmem]

/-- Old nodes keep their parts, except that the new one stands for the replaced one. -/
theorem children_replace_of_lt (ht : t.Sound) (hk : k < t.nodes.length) :
    (t.replace id e).2.children k = (t.children k).map (redirect id t.nodes.length) :=
  children_of_node?_map List.map_nil (fun _ => rfl) (node?_replace_of_lt ht hk)

theorem parent?_replace_of_lt (ht : t.Sound) (hk : k < t.nodes.length) :
    (t.replace id e).2.parent? k = if k = id then none else t.parent? k :=
  parent?_of_node?_map (g := fun parent => if k = id then none else parent) (ite_self none)
    (fun _ => rfl) (node?_replace_of_lt ht hk)

/-- The nodes of the new expression are placed behind the old ones. -/
theorem placed_replace (ht : t.Sound) (hid : id < t.nodes.length) :
    Placed (t.replace id e).2 t.nodes.length (t.parent? id) [e] := by
  refine placed_of_layout fun j _ => ?_
  have hgrown : (t.grown id e).node? (t.nodes.length + j) =
      (layout t.nodes.length (t.parent? id) [e])[j]? := by
    refine (List.getElem?_append_right (Nat.le_add_right _ _)).trans ?_
    rw [Nat.add_sub_cancel_left]
  have hparent : t.parent? id ≠ some (t.nodes.length + j) := fun h => by
    have := ht.parent_lt h
    omega
  have hne : t.nodes.length + j ≠ id := by omega
  rw [node?_replace, hgrown]
  simp only [if_neg hparent, if_neg hne]
  exact Option.map_id'

theorem parent?_replace_new (ht : t.Sound) (hid : id < t.nodes.length) :
    (t.replace id e).2.parent? t.nodes.length = t.parent? id :=
  (placed_replace ht hid).parent?_of_mem List.mem_cons_self

/-- The nodes that were there before stay linked: the parent of the replaced node lists the new one
in its place, and the replaced node itself is cut off. -/
theorem linkedAt_replace_of_lt (ht : t.Sound) (hid : id < t.nodes.length)
    (hk : k < t.nodes.length) : (t.replace id e).2.LinkedAt k := by
  refine ⟨fun c hc => ?_, fun p hp => ?_, ?_, fun n hn => ?_⟩
  · rw [children_replace_of_lt ht hk] at hc
    obtain ⟨c, hmem, rfl⟩ := List.mem_map.1 hc
    have hparent := ht.mem_children.1 hmem
    by_cases hcid : c = id
    · subst hcid
      rw [redirect, if_pos rfl, parent?_replace_new ht hid, hparent]
    · rw [redirect_of_ne hcid, parent?_replace_of_lt ht (lt_of_parent? hparent), if_neg hcid,
        hparent]
  · rw [parent?_replace_of_lt ht hk] at hp
    split at hp
    · cases hp
    · rename_i hkid
      have hlt := ht.parent_lt hp
      rw [children_replace_of_lt ht (Nat.lt_trans hlt hk)]
      exact ⟨hlt, List.mem_map.2 ⟨k, ht.mem_children.2 hp, redirect_of_ne hkid⟩⟩
  · rw [children_replace_of_lt ht hk]
    refine (ht.linked k).nodup.map_on fun a ha b hb heq => ?_
    have hlta := (ht.lt_of_mem_children ha).2
    have hltb := (ht.lt_of_mem_children hb).2
    unfold redirect at heq
    split_ifs at heq <;> omega
  · rw [node?_replace_of_lt ht hk, Option.mem_def, Option.map_eq_some_iff] at hn
    obtain ⟨m, hm, rfl⟩ := hn
    exact (List.length_map _).trans ((ht.linked k).slots m hm)

/-- Whichever node is replaced, all links fit together again. -/
theorem sound_replace (ht : t.Sound) (hid : id < t.nodes.length) :
    (t.replace id e).2.Sound := by
  refine ⟨fun k => ?_, ?_, ?_⟩
  · rcases Nat.lt_or_ge k t.nodes.length with hk | hk
    · exact linkedAt_replace_of_lt ht hid hk
    rcases Nat.lt_or_ge k (t.replace id e).2.nodes.length with hlt | hge
    · refine (placed_replace ht hid).linkedAt (fun p hp => ?_) hk (by rwa [length_replace] at hlt)
      have hp' : p < t.nodes.length := Nat.lt_trans (ht.parent_lt hp) hid
      refine ⟨hp', fun c hc => ?_⟩
      obtain rfl := List.mem_singleton.1 hc
      rw [children_replace_of_lt ht hp']
      exact List.mem_map.2 ⟨id, ht.mem_children.2 hp, if_pos rfl⟩
    · exact linkedAt_of_le hge
  · have hroot := ht.root_lt
    have hpos := e.size_pos
    rw [root_replace, length_replace]
    split <;> omega
  · rw [root_replace]
    cases hp : t.parent? id with
    | none => exact (parent?_replace_new ht hid).trans hp
    | some p =>
      simp only [Option.isSome_some, if_true]
      rw [parent?_replace_of_lt ht ht.root_lt, ht.parent?_root, ite_self]

end

end Formulary.EditTree
