import Formulary.Proofs.EditTree.Editing
import Formulary.Proofs.EditTree.Path

/-!
# Replacing a part of the tree

After a replacement the references to the replaced node lead to the new one, and nothing else has
changed among the nodes that were there before. So the expressions at these nodes stay, except on
the way to the replaced node, where the part at the end of the way is exchanged
(`subtree_replace`). The paths to a node that stays in the tree are those from before
(`follow_of_follow_replace`), and what leaves the tree are the replaced node and those below it
(`mem_order_replace`).

`Replaced` puts this together: for the expression of the tree a replacement at a node is the
replacement of the part at the path to that node.
-/

namespace Formulary.EditTree

variable {t : EditTree} {id c k m : Nat} {path : List Nat} {n : Node} {e : Expr}

theorem Above.of_mem_children (hc : c ∈ t.children k) (h : t.Above c id) : t.Above k id := by
  obtain ⟨i, hi⟩ := List.mem_iff_getElem?.1 hc
  obtain ⟨path, hpath⟩ := h
  exact ⟨i :: path, follow_cons_eq_some.2 ⟨c, hi, hpath⟩⟩

theorem ne_of_not_above (h : ¬ t.Above k id) : k ≠ id := by
  rintro rfl
  exact h ⟨[], rfl⟩

theorem redirect_self {old new : Nat} : redirect old new old = new := if_pos rfl

/-! ## Nodes after a replacement -/

theorem selected_replace (ht : t.Sound) (hk : k < t.nodes.length) :
    (t.replace id e).2.selected k = t.selected k := by
  rw [selected, selected, node?_replace_of_lt ht hk, Option.any_map]
  rfl

section

variable (ht : t.Sound) (hid : id < t.nodes.length)

include ht

theorem subtree_replace_of_node? (hid : id < t.nodes.length) (hn : t.node? k = some n) :
    (t.replace id e).2.subtree k = n.head.withChildren
      (n.children.map fun c => (t.replace id e).2.subtree (redirect id t.nodes.length c)) := by
  have hnew : (t.replace id e).2.node? k = _ := node?_replace_of_lt ht (lt_of_node? hn)
  rw [hn] at hnew
  rw [subtree_eq (sound_replace ht hid) hnew]
  exact congrArg n.head.withChildren (List.map_map ..)

include hid

theorem subtree_replace_new : (t.replace id e).2.subtree t.nodes.length = e :=
  (List.cons.inj ((placed_replace ht hid).map_subtree (sound_replace ht hid))).1

/-- The expression at a node stays if the replaced node is not part of it. -/
theorem subtree_replace_of_not_above (hk : k < t.nodes.length) (h : ¬ t.Above k id) :
    (t.replace id e).2.subtree k = t.subtree k := by
  revert h
  refine ht.induction (fun k n hn ih h => ?_) hk
  rw [subtree_replace_of_node? ht hid hn, subtree_eq ht hn]
  refine congrArg n.head.withChildren (List.map_congr_left fun c hc => ?_)
  rw [← children_of_node? hn] at hc
  have hc' : ¬ t.Above c id := mt (Above.of_mem_children hc) h
  rw [redirect_of_ne (ne_of_not_above hc')]
  exact ih c hc hc'

/-- At a node above the replaced one, the part at the path between them is replaced. -/
theorem subtree_replace (hk : k < t.nodes.length) (h : t.follow k path = some id) :
    (t.replace id e).2.subtree (redirect id t.nodes.length k) =
      (t.subtree k).replaceAt path e := by
  induction path generalizing k with
  | nil =>
    obtain rfl := Option.some.inj h
    rw [redirect_self]
    exact subtree_replace_new ht hid
  | cons i path ih =>
    obtain ⟨n, hn⟩ := exists_node? hk
    obtain ⟨c, hc, hpath⟩ := follow_cons_eq_some.1 h
    have hslots := (ht.linked k).slots n hn
    have hchildren := children_of_node? hn
    rw [redirect_of_ne (Nat.ne_of_lt (ht.lt_of_follow_cons h)), subtree_replace_of_node? ht hid hn,
      Expr.replaceAt, children_subtree ht hk, hchildren, subtree_eq ht hn,
      Expr.withChildren_withChildren (by rwa [List.length_map])
        (by rwa [List.length_modify, List.length_map])]
    refine congrArg n.head.withChildren (List.ext_getElem? fun j => ?_)
    rw [List.getElem?_modify, List.getElem?_map, List.getElem?_map]
    cases hd : n.children[j]? with
    | none => rfl
    | some d =>
      rw [← hchildren] at hd
      have hd' := (ht.lt_of_getElem?_children hd).2
      by_cases hij : i = j
      · -- the part that the path goes through
        subst hij
        obtain rfl := Option.some.inj (hc.symm.trans hd)
        simp only [Option.map_some, if_true, ih hd' hpath]
        rfl
      · -- no other part has the replaced node below it
        have habove : ¬ t.Above d id := fun ⟨more, hmore⟩ =>
          hij (List.cons.inj (ht.follow_unique h (follow_cons_eq_some.2 ⟨d, hd, hmore⟩))).1
        simp only [Option.map_some, if_neg hij, redirect_of_ne (ne_of_not_above habove),
          subtree_replace_of_not_above ht hid hd' habove]
        rfl

/-! ## Paths after a replacement -/

/-- The path that led to the replaced node leads to the new one. -/
theorem follow_replace (hk : k < t.nodes.length) (h : t.follow k path = some id) :
    (t.replace id e).2.follow (redirect id t.nodes.length k) path = some t.nodes.length := by
  induction path generalizing k with
  | nil =>
    obtain rfl := Option.some.inj h
    rw [redirect_self, follow]
  | cons i path ih =>
    obtain ⟨c, hc, hpath⟩ := follow_cons_eq_some.1 h
    rw [redirect_of_ne (Nat.ne_of_lt (ht.lt_of_follow_cons h)), follow_cons_eq_some,
      children_replace_of_lt ht hk, List.getElem?_map, hc]
    exact ⟨_, rfl, ih (ht.lt_of_getElem?_children hc).2 hpath⟩

/-- From the new node no path leads back to the nodes that were there before. -/
theorem ne_of_follow_replace (hk : k < t.nodes.length)
    (h : (t.replace id e).2.follow (redirect id t.nodes.length m) path = some k) : m ≠ id := by
  rintro rfl
  have hle := (sound_replace ht hid).le_of_follow h
  rw [redirect_self] at hle
  omega

/-- A path to a node that was there before has led to it before. -/
theorem follow_of_follow_replace (hm : m < t.nodes.length) (hk : k < t.nodes.length)
    (h : (t.replace id e).2.follow (redirect id t.nodes.length m) path = some k) :
    t.follow m path = some k := by
  have hne := ne_of_follow_replace ht hid hk h
  rw [redirect_of_ne hne] at h
  induction path generalizing m with
  | nil => exact h
  | cons i path ih =>
    rw [follow_cons_eq_some, children_replace_of_lt ht hm, List.getElem?_map] at h
    obtain ⟨d, hd, hpath⟩ := h
    obtain ⟨c, hc, rfl⟩ := Option.map_eq_some_iff.1 hd
    have hne := ne_of_follow_replace ht hid hk hpath
    rw [redirect_of_ne hne] at hpath
    exact follow_cons_eq_some.2 ⟨c, hc, ih (ht.lt_of_getElem?_children hc).2 hpath hne⟩

end

/-! ## Replacing a part of the tree -/

section

variable (ht : t.Sound) (hid : id ∈ t.order)

include ht hid

theorem root_replace_of_mem :
    (t.replace id e).2.root = redirect id t.nodes.length t.root := by
  rw [root_replace]
  rcases (mem_order ht).1 hid with rfl | ⟨p, -, hp⟩
  · rw [ht.parent?_root, redirect_self]
    rfl
  · have hne : t.root ≠ id := by
      rintro rfl
      cases hp.symm.trans ht.parent?_root
    rw [hp, redirect_of_ne hne]
    rfl

/-- The nodes below the replaced one drop out of the order, and no others. -/
theorem mem_order_replace (hk : k < t.nodes.length) :
    k ∈ (t.replace id e).2.order ↔ k ∈ t.order ∧ ¬ t.Above id k := by
  have hid' := lt_of_mem_order ht hid
  induction k using Nat.strongRecOn with
  | _ k ih =>
    rw [mem_order (sound_replace ht hid'), mem_order ht, ht.above_iff, root_replace_of_mem ht hid,
      parent?_replace_of_lt ht hk]
    by_cases hkid : k = id
    · subst hkid
      have hne : k ≠ redirect k t.nodes.length t.root := by
        unfold redirect
        split <;> omega
      simp [hne]
    · have hroot : k = redirect id t.nodes.length t.root ↔ k = t.root := by
        unfold redirect
        split <;> omega
      rw [hroot, if_neg hkid]
      cases hp : t.parent? k with
      | none => simp [hkid]
      | some p =>
        have hne : k ≠ t.root := by
          rintro rfl
          cases hp.symm.trans ht.parent?_root
        have hlt := ht.parent_lt hp
        simp [hne, hkid, ih p hlt (Nat.lt_trans hlt hk)]

end

/-- What a tree is after the part at a node has been replaced by an expression, which has become the
part at a new node. -/
structure Replaced (t : EditTree) (id : Nat) (e : Expr) (new : Nat) (t' : EditTree) : Prop where
  /-- The number of the new node was not in use. -/
  fresh : t.nodes.length ≤ new
  /-- One path leads to the node. In the expression of the tree the part at its end is replaced,
  and there the new node is found. -/
  toExpr : ∃ path, (∀ more, t.follow t.root more = some id ↔ more = path) ∧
    t.toExpr.partAt? path = some (t.subtree id) ∧ t'.toExpr = t.toExpr.replaceAt path e ∧
    t'.follow t'.root path = some new
  /-- The expression at the new node. -/
  subtree_new : t'.subtree new = e
  /-- The nodes that stay in the tree are those that are neither the node nor below it. -/
  mem_order : ∀ k < t.nodes.length, k ∈ t'.order ↔ k ∈ t.order ∧ ¬ t.Above id k
  /-- A node that stays in the tree stays in its place. -/
  follow : ∀ k < t.nodes.length, k ∈ t'.order →
    ∀ path, t'.follow t'.root path = some k ↔ t.follow t.root path = some k
  /-- The selection stays. -/
  selected : ∀ k < t.nodes.length, t'.selected k = t.selected k
  /-- The expressions at other nodes than those above the replaced one stay. -/
  subtree : ∀ k < t.nodes.length, ¬ t.Above k id → t'.subtree k = t.subtree k

theorem replaced_replace (ht : t.Sound) (hid : id ∈ t.order) (e : Expr) :
    Replaced t id e (t.replace id e).1 (t.replace id e).2 := by
  have hid' := lt_of_mem_order ht hid
  have hroot : (t.replace id e).2.root = redirect id t.nodes.length t.root :=
    root_replace_of_mem ht hid
  refine ⟨Nat.le_refl _, ?_, subtree_replace_new ht hid', fun k => mem_order_replace ht hid,
    fun k hk hmem path => ?_, fun k => selected_replace ht,
    fun k => subtree_replace_of_not_above ht hid'⟩
  · obtain ⟨path, hpath⟩ := (mem_order_iff_above ht).1 hid
    refine ⟨path, fun more => ⟨fun h => ht.follow_unique h hpath, fun h => h ▸ hpath⟩,
      partAt?_subtree ht ht.root_lt hpath, ?_, ?_⟩
    · rw [EditTree.toExpr, hroot]
      exact subtree_replace ht hid' ht.root_lt hpath
    · rw [hroot]
      exact follow_replace ht hid' ht.root_lt hpath
  · have ht' := sound_replace (e := e) ht hid'
    have hback {path : List Nat} (h : (t.replace id e).2.follow (t.replace id e).2.root path =
        some k) : t.follow t.root path = some k :=
      follow_of_follow_replace ht hid' ht.root_lt hk (hroot ▸ h)
    refine ⟨hback, fun h => ?_⟩
    obtain ⟨more, hmore⟩ := (mem_order_iff_above ht').1 hmem
    rwa [ht.follow_unique h (hback hmore)]

/-- A tree holds the expression it was made from, and however it has been edited since, replacing a
part of it replaces that part of its expression and leaves the other nodes as they are. -/
theorem edits_ofExpr_replaced (e : Expr) :
    (ofExpr e).toExpr = e ∧
      ∀ steps t, (ofExpr e).edits? steps = some t → ∀ id ∈ t.order, ∀ part : Expr,
        Replaced t id part (t.replace id part).1 (t.replace id part).2 :=
  ⟨toExpr_ofExpr e, fun _ _ h _ hid part => replaced_replace (sound_edits_ofExpr h) hid part⟩

/-- In the tree of `a+b*c` the sum is replaced by `a*(b+c)` and the new root selected before the name
`b` is replaced by `d`. -/
theorem edits_ofExpr_replaced_factor :
    ∃ t, (ofExpr (.binary .add (.var "a") (.binary .mul (.var "b") (.var "c")))).edits?
        [.replace 0 (.binary .mul (.var "a") (.binary .add (.var "b") (.var "c"))),
          .select 5 true] = some t ∧
      8 ∈ t.order ∧ Replaced t 8 (.var "d") (t.replace 8 (.var "d")).1 (t.replace 8 (.var "d")).2 ∧
      (t.replace 8 (.var "d")).2.toExpr =
        .binary .mul (.var "a") (.binary .add (.var "d") (.var "c")) := by
  have h : ((ofExpr (.binary .add (.var "a") (.binary .mul (.var "b") (.var "c")))).edits?
      [.replace 0 (.binary .mul (.var "a") (.binary .add (.var "b") (.var "c"))),
        .select 5 true]).isSome := by decide +kernel
  have hsome := (Option.some_get h).symm
  have hmem : 8 ∈ (Option.get _ h).order := by decide +kernel +revert
  exact ⟨_, hsome, hmem, (edits_ofExpr_replaced _).2 _ _ hsome 8 hmem (.var "d"),
    by decide +kernel +revert⟩

end Formulary.EditTree
