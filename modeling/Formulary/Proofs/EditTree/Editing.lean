import Formulary.Proofs.EditTree.Compact

/-!
# Trees that have been edited

A tree is edited step by step: nodes are selected and replaced, those that are no longer part of the
tree as well as the others, and now and then it is compacted. Every step keeps a tree sound
(`sound_edit?`), so every tree that was made from an expression and edited is
(`sound_edits_ofExpr`), and walking through it, rebuilding its expressions and compacting it come
to an end without looking for something that is not there (`edits_ofExpr_complete`).
-/

namespace Formulary.EditTree

variable {t t' : EditTree} {e : Expr}

/-- A step of editing. -/
inductive Edit where
  /-- Selects a node or takes it out of the selection. -/
  | select (id : Nat) (selected : Bool)
  /-- Replaces the part at a node by an expression. -/
  | replace (id : Nat) (e : Expr)
  /-- Replaces the part at a node by what a rule makes of it. -/
  | apply (id : Nat) (offer : Offer) (inputs : List Substitution)
  /-- Drops the nodes that are no longer part of the tree. -/
  | compact

/-- The tree after a step, which must be at a node that exists. -/
def edit? (t : EditTree) : Edit → Option EditTree
  | .select id selected => if id < t.nodes.length then some (t.select id selected) else none
  | .replace id e => if id < t.nodes.length then some (t.replace id e).2 else none
  | .apply id offer inputs =>
    if id < t.nodes.length then some (t.apply id offer inputs).2 else none
  | .compact => some t.compact.2

/-- The tree after some steps. -/
def edits? (t : EditTree) (steps : List Edit) : Option EditTree := steps.foldlM edit? t

/-! ## Editing keeps a tree sound -/

theorem sound_edit? {step : Edit} (ht : t.Sound) (h : t.edit? step = some t') : t'.Sound := by
  cases step with
  | select id selected =>
    obtain ⟨-, h⟩ := Option.ite_none_right_eq_some.1 h
    exact Option.some.inj h ▸ sound_select ht selected
  | replace id e =>
    obtain ⟨hid, h⟩ := Option.ite_none_right_eq_some.1 h
    exact Option.some.inj h ▸ sound_replace ht hid
  | apply id offer inputs =>
    obtain ⟨hid, h⟩ := Option.ite_none_right_eq_some.1 h
    exact Option.some.inj h ▸ sound_replace ht hid
  | compact => exact Option.some.inj h ▸ sound_compact ht

theorem sound_edits? {steps : List Edit} (ht : t.Sound) (h : t.edits? steps = some t') :
    t'.Sound := by
  induction steps generalizing t with
  | nil => exact Option.some.inj h ▸ ht
  | cons step steps ih =>
    obtain ⟨u, hu, hsteps⟩ := Option.bind_eq_some_iff.1 h
    exact ih (sound_edit? ht hu) hsteps

/-- Every tree that editing leads to is sound. -/
theorem sound_edits_ofExpr {steps : List Edit} (h : (ofExpr e).edits? steps = some t) : t.Sound :=
  sound_edits? (sound_ofExpr e) h

/-- No number is listed twice, be it by one node or by two. -/
theorem nodup_flatMap_children (ht : t.Sound) : (t.nodes.flatMap Node.children).Nodup := by
  have hchildren {i : Nat} (hi : i < t.nodes.length) : t.children i = t.nodes[i].children :=
    children_of_node? (List.getElem?_eq_getElem hi)
  rw [List.nodup_flatMap]
  refine ⟨fun n hn => ?_, List.pairwise_iff_getElem.2 fun i j hi hj hij c hc hc' => ?_⟩
  · obtain ⟨i, hi, rfl⟩ := List.getElem_of_mem hn
    rw [← hchildren hi]
    exact (ht.linked i).nodup
  · rw [← hchildren hi, ht.mem_children] at hc
    rw [← hchildren hj, ht.mem_children] at hc'
    have := Option.some.inj (hc.symm.trans hc')
    omega

/-- However a tree has been edited, the links of its nodes fit together, so that walking through it,
rebuilding the expression at any of its nodes and compacting it come to an end and find everything
that they look for. -/
theorem edits_ofExpr_complete {steps : List Edit} (h : (ofExpr e).edits? steps = some t) :
    t.Sound ∧ (t.nodes.flatMap Node.children).Nodup ∧ t.Visits [t.root] t.order ∧
      (∀ id < t.nodes.length, t.Rebuilds [id] [t.subtree id]) ∧ t.compact? = some t.compact := by
  have ht := sound_edits_ofExpr h
  exact ⟨ht, nodup_flatMap_children ht, visits_order ht, fun id => rebuilds_subtree ht,
    compact?_eq ht⟩

/-- In the tree of `a+b` the name `a` is replaced twice, the second time as a node that has been cut
off. -/
theorem edits_ofExpr_complete_twice :
    ∃ t, (ofExpr (.binary .add (.var "a") (.var "b"))).edits?
        [.replace 1 (.var "c"), .replace 1 (.var "d"), .select 2 true, .compact] = some t ∧
      t.Sound ∧ t.Visits [t.root] t.order ∧ t.Rebuilds [t.root] [.var "d"] ∧
      t.compact? = some t.compact := by
  have h : (ofExpr (.binary .add (.var "a") (.var "b"))).edits?
      [.replace 1 (.var "c"), .replace 1 (.var "d"), .select 2 true, .compact] =
      some ⟨[{ head := .var "d", children := [], parent := none }], 0⟩ := by decide +kernel
  obtain ⟨ht, -, hvisits, hrebuilds, hcompact⟩ := edits_ofExpr_complete h
  exact ⟨_, h, ht, hvisits, hrebuilds 0 (by decide), hcompact⟩

end Formulary.EditTree
