import Formulary.Proofs.EditTree.Replacement

/-!
# Replacing what is no longer part of the tree

A node that has left the tree can still be edited. Inside of an expression that has been replaced it
has a parent, and a replacement there does not reach the tree (`replace_of_parent?`). The root of
such an expression has none: a replacement takes it for the root of the tree, and the whole tree
gives way to the new expression (`replace_of_parent?_eq_none`).
-/

namespace Formulary.EditTree

variable {t : EditTree} {id p : Nat} {e : Expr}

/-- Two trees have the same root, and the same expression there. -/
def SameTree (t t' : EditTree) : Prop := t'.root = t.root ∧ t'.toExpr = t.toExpr

/-- Replacing an orphan that has a parent changes other orphans only. -/
theorem replace_of_parent? (ht : t.Sound) (hp : t.parent? id = some p) (hid : id ∉ t.order)
    (part : Expr) : SameTree t (t.replace id part).2 := by
  have hroot : (t.replace id part).2.root = t.root := by
    rw [root_replace, hp]
    rfl
  have habove : ¬ t.Above t.root id := mt (mem_order_iff_above ht).2 hid
  refine ⟨hroot, ?_⟩
  rw [toExpr, hroot]
  exact subtree_replace_of_not_above ht (lt_of_parent? hp) ht.root_lt habove

/-- An orphan without a parent is taken for the root. -/
theorem replace_of_parent?_eq_none (ht : t.Sound) (hid : id < t.nodes.length)
    (hp : t.parent? id = none) (part : Expr) :
    (t.replace id part).2.root = (t.replace id part).1 ∧ (t.replace id part).2.toExpr = part := by
  have hroot : (t.replace id part).2.root = t.nodes.length := by
    rw [root_replace, hp]
    rfl
  refine ⟨hroot, ?_⟩
  rw [toExpr, hroot]
  exact subtree_replace_new ht hid

/-- Replacing at an orphan keeps the tree exactly if the orphan has a parent. -/
theorem sameTree_replace_iff (ht : t.Sound) (hid : id < t.nodes.length) (horphan : id ∉ t.order)
    (part : Expr) : SameTree t (t.replace id part).2 ↔ (t.parent? id).isSome := by
  cases hp : t.parent? id with
  | none =>
    -- the new root has a number that was not in use
    have hroot := (replace_of_parent?_eq_none ht hid hp part).1
    have hne : t.nodes.length ≠ t.root := Nat.ne_of_gt ht.root_lt
    exact ⟨fun h => absurd (hroot.symm.trans h.1) hne, fun h => nomatch h⟩
  | some p => exact ⟨fun _ => rfl, fun _ => replace_of_parent? ht hp horphan part⟩

/-- However a tree has been edited, replacing a node that has left it leaves the tree alone exactly
if the node has a parent. Otherwise the new expression takes the place of the tree. -/
theorem edits_ofExpr_orphan {steps : List Edit} (h : (ofExpr e).edits? steps = some t)
    (hid : id < t.nodes.length) (horphan : id ∉ t.order) :
    (∀ part, SameTree t (t.replace id part).2 ↔ (t.parent? id).isSome) ∧
      (∀ offer inputs, SameTree t (t.apply id offer inputs).2 ↔ (t.parent? id).isSome) ∧
      (t.parent? id = none → ∀ part, (t.replace id part).2.root = (t.replace id part).1 ∧
        (t.replace id part).2.toExpr = part) := by
  have ht := sound_edits_ofExpr h
  have hreplace := sameTree_replace_iff ht hid horphan
  exact ⟨hreplace, fun _ _ => hreplace _, replace_of_parent?_eq_none ht hid⟩

/-- After the product has been replaced in the tree of `a+b*c`, nothing that is done to its factor
`b` reaches the tree. -/
theorem edits_ofExpr_orphan_factor :
    ∃ t, (ofExpr (.binary .add (.var "a") (.binary .mul (.var "b") (.var "c")))).edits?
        [.replace 2 (.var "d")] = some t ∧
      3 < t.nodes.length ∧ 3 ∉ t.order ∧ (t.parent? 3).isSome ∧
      SameTree t (t.replace 3 (.var "x")).2 := by
  have h : ((ofExpr (.binary .add (.var "a") (.binary .mul (.var "b") (.var "c")))).edits?
      [.replace 2 (.var "d")]).isSome := by decide +kernel
  have hsome := (Option.some_get h).symm
  have hlt : 3 < (Option.get _ h).nodes.length := by decide +kernel +revert
  have horphan : 3 ∉ (Option.get _ h).order := by decide +kernel +revert
  have hparent : ((Option.get _ h).parent? 3).isSome := by decide +kernel +revert
  exact ⟨_, hsome, hlt, horphan, hparent, ((edits_ofExpr_orphan hsome hlt horphan).1 _).2 hparent⟩

/-- Replacing the name `a` of `a+b` a second time, where it is no longer part of the tree, replaces
the whole sum. -/
theorem replace_of_orphan_root :
    ∃ t, (ofExpr (.binary .add (.var "a") (.var "b"))).edits? [.replace 1 (.var "c")] = some t ∧
      1 < t.nodes.length ∧ 1 ∉ t.order ∧ t.toExpr = .binary .add (.var "c") (.var "b") ∧
      (t.replace 1 (.var "d")).2.toExpr = .var "d" ∧
      (t.replace 1 (.var "d")).2.root ≠ t.root := by
  have h : ((ofExpr (.binary .add (.var "a") (.var "b"))).edits?
      [.replace 1 (.var "c")]).isSome := by decide +kernel
  refine ⟨_, (Option.some_get h).symm, ?_⟩
  decide +kernel +revert

end Formulary.EditTree
