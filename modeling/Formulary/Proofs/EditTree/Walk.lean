import Formulary.Proofs.EditTree.Sound
import Mathlib.Data.List.Perm.Subperm

/-!
# Walking through a sound tree

A walk and the rebuilding of an expression are given a number of steps. Here they are related to
walking and rebuilding until nothing is left: `Visits` and `Rebuilds` have a derivation only if that
happens after finitely many steps, none of which looks up a node that does not exist. In a sound
tree there is one for every node, and the number of nodes is enough steps to follow it
(`visits_order`, `rebuilds_subtree`).

How often a walk comes to a node is counted in `Visits.count_eq`: as often as the node is on the
agenda, and once more for every visit to its parent. Since the root has no parent, the walk through
the tree comes to no node twice.
-/

namespace Formulary.EditTree

variable {t : EditTree} {id c p : Nat} {n : Node}

/-! ## Walks to the end -/

/-- The walk through the nodes of an agenda ends, and these are the nodes it comes to. -/
inductive Visits (t : EditTree) : (agenda out : List Nat) → Prop
  | nil : Visits t [] []
  | cons {id n agenda out} (node : t.node? id = some n)
      (rest : Visits t (n.children ++ agenda) out) : Visits t (id :: agenda) (id :: out)

namespace Visits

variable {agenda rest out ids : List Nat}

theorem append (h : t.Visits agenda out) (hrest : t.Visits rest ids) :
    t.Visits (agenda ++ rest) (out ++ ids) := by
  induction h with
  | nil => exact hrest
  | cons node _ ih =>
    rw [List.append_assoc] at ih
    exact .cons node ih

theorem lt_length (h : t.Visits agenda out) (hc : c ∈ out) : c < t.nodes.length := by
  induction h with
  | nil => cases hc
  | cons node _ ih =>
    rcases List.mem_cons.1 hc with rfl | hmem
    · exact lt_of_node? node
    · exact ih hmem

/-- Enough steps follow the walk to its end. -/
theorem walk_eq (h : t.Visits agenda out) {steps : Nat} (hsteps : out.length ≤ steps) :
    t.walk steps agenda = out := by
  induction h generalizing steps with
  | nil => cases steps <;> rfl
  | cons node _ ih =>
    obtain ⟨steps, rfl⟩ := Nat.exists_eq_add_of_le' (Nat.lt_of_lt_of_le (Nat.zero_lt_succ _) hsteps)
    rw [walk, children_of_node? node, ih (Nat.le_of_succ_le_succ hsteps)]

/-- A node is visited once for its place in the agenda and once for each visit of its parent. -/
theorem count_eq (ht : t.Sound) (h : t.Visits agenda out) (c : Nat) :
    out.count c = agenda.count c + (t.parent? c).elim 0 fun p => out.count p := by
  induction h with
  | nil => cases t.parent? c <;> rfl
  | @cons id n agenda out node _ ih =>
    have hparts : n.children.count c = if t.parent? c = some id then 1 else 0 := by
      have hlinked := ht.linked id
      rw [← children_of_node? node, List.Nodup.count hlinked.nodup]
      simp only [ht.mem_children]
    rw [List.count_append, hparts] at ih
    rw [List.count_cons, ih, List.count_cons]
    cases t.parent? c with
    | none =>
      simp only [reduceCtorEq, if_false, Option.elim_none]
      omega
    | some p =>
      simp only [Option.some.injEq, Option.elim_some, List.count_cons, beq_iff_eq, @eq_comm _ p]
      omega

/-- A walk comes to a part only by way of its parent. -/
theorem mem_iff (ht : t.Sound) (h : t.Visits agenda out) :
    c ∈ out ↔ c ∈ agenda ∨ ∃ p ∈ out, t.parent? c = some p := by
  have hcount := h.count_eq ht c
  rw [← List.count_pos_iff, ← List.count_pos_iff (l := agenda), hcount]
  cases t.parent? c with
  | none => simp
  | some p =>
    simp only [Option.elim_some, Option.some.injEq, exists_eq_right', ← List.count_pos_iff]
    omega

/-- A walk from a node without a parent visits no node twice. -/
theorem nodup (ht : t.Sound) (h : t.Visits [id] out) (hid : t.parent? id = none) : out.Nodup := by
  rw [List.nodup_iff_count_le_one]
  intro c
  -- a part is visited as often as its parent, which has a smaller number
  induction c using Nat.strongRecOn with
  | _ c ih =>
    have hcount := h.count_eq ht c
    cases hp : t.parent? c with
    | none =>
      rw [hp, Option.elim_none] at hcount
      exact hcount ▸ List.nodup_iff_count_le_one.1 (List.nodup_singleton id) c
    | some p =>
      have hne : c ≠ id := by
        rintro rfl
        cases hp.symm.trans hid
      rw [hp, List.count_eq_zero_of_not_mem (mt List.mem_singleton.1 hne)] at hcount
      have := ih p (ht.parent_lt hp)
      simp only [Option.elim_some] at hcount
      omega

/-- A part comes after its parent. -/
theorem idxOf_lt (ht : t.Sound) (h : t.Visits agenda out) (hc : c ∈ out) (hagenda : c ∉ agenda)
    (hp : t.parent? c = some p) : out.idxOf p < out.idxOf c := by
  induction h with
  | nil => cases hc
  | @cons id n agenda out node _ ih =>
    obtain ⟨hne, hagenda⟩ := not_or.1 (mt List.mem_cons.2 hagenda)
    have hc := (List.mem_cons.1 hc).resolve_left hne
    rw [List.idxOf_cons_ne _ (Ne.symm hne)]
    by_cases hpid : p = id
    · subst hpid
      rw [List.idxOf_cons_self]
      exact Nat.zero_lt_succ _
    · have hparts : c ∉ n.children := by
        rw [← children_of_node? node, ht.mem_children, hp]
        exact mt Option.some.inj hpid
      rw [List.idxOf_cons_ne _ (Ne.symm hpid)]
      exact Nat.succ_lt_succ (ih hc (by simp [hparts, hagenda]))

end Visits

/-! ## The order of the nodes -/

theorem exists_visits_of_forall {ids : List Nat} (h : ∀ id ∈ ids, ∃ out, t.Visits [id] out) :
    ∃ out, t.Visits ids out := by
  induction ids with
  | nil => exact ⟨[], .nil⟩
  | cons id ids ih =>
    obtain ⟨out, hout⟩ := h id List.mem_cons_self
    obtain ⟨rest, hrest⟩ := ih fun id hid => h id (List.mem_cons_of_mem _ hid)
    exact ⟨out ++ rest, hout.append hrest⟩

/-- A walk through a sound tree ends. -/
theorem exists_visits (ht : t.Sound) (hid : id < t.nodes.length) : ∃ out, t.Visits [id] out := by
  refine ht.induction (fun id n hn ih => ?_) hid
  obtain ⟨out, hout⟩ := exists_visits_of_forall ih
  rw [children_of_node? hn] at hout
  exact ⟨id :: out, .cons hn (by rwa [List.append_nil])⟩

/-- A walk to the end gives the order of the nodes. -/
theorem visits_order (ht : t.Sound) : t.Visits [t.root] t.order := by
  obtain ⟨out, hout⟩ := exists_visits ht ht.root_lt
  have hlength : out.length ≤ t.nodes.length := by
    rw [← List.length_range (n := t.nodes.length)]
    refine ((hout.nodup ht ht.parent?_root).subperm fun c hc => ?_).length_le
    exact List.mem_range.2 (hout.lt_length hc)
  rwa [order, hout.walk_eq hlength]

theorem nodup_order (ht : t.Sound) : t.order.Nodup := (visits_order ht).nodup ht ht.parent?_root

/-- A node is in the order if it is the root or its parent is. -/
theorem mem_order (ht : t.Sound) :
    c ∈ t.order ↔ c = t.root ∨ ∃ p ∈ t.order, t.parent? c = some p := by
  rw [(visits_order ht).mem_iff ht, List.mem_singleton]

theorem lt_of_mem_order (ht : t.Sound) (h : c ∈ t.order) : c < t.nodes.length :=
  (visits_order ht).lt_length h

theorem root_mem_order (ht : t.Sound) : t.root ∈ t.order := (mem_order ht).2 (.inl rfl)

theorem parent_mem_order (ht : t.Sound) (h : c ∈ t.order) (hp : t.parent? c = some p) :
    p ∈ t.order := by
  rcases (mem_order ht).1 h with rfl | ⟨q, hq, hcq⟩
  · cases hp.symm.trans ht.parent?_root
  · rwa [Option.some.inj (hp.symm.trans hcq)]

theorem mem_order_of_mem_children (ht : t.Sound) (h : p ∈ t.order) (hc : c ∈ t.children p) :
    c ∈ t.order :=
  (mem_order ht).2 (.inr ⟨p, h, ht.mem_children.1 hc⟩)

/-- Parents come before their parts. -/
theorem idxOf_parent_lt (ht : t.Sound) (h : c ∈ t.order) (hp : t.parent? c = some p) :
    t.order.idxOf p < t.order.idxOf c := by
  refine (visits_order ht).idxOf_lt ht h (fun hroot => ?_) hp
  rw [List.mem_singleton.1 hroot, ht.parent?_root] at hp
  cases hp

/-! ## The expression at a node -/

theorem subtreeWithin_of_le (h : t.nodes.length ≤ id) (levels : Nat) :
    t.subtreeWithin levels id = .ofInt 0 := by
  cases levels with
  | zero => rfl
  | succ levels => rw [subtreeWithin, node?_eq_none h]

/-- Levels that nothing is on make no difference. -/
theorem subtreeWithin_congr (ht : t.Sound) {levels more : Nat}
    (hlevels : t.nodes.length ≤ id + levels) (hmore : t.nodes.length ≤ id + more) :
    t.subtreeWithin levels id = t.subtreeWithin more id := by
  induction levels generalizing more id with
  | zero => exact (subtreeWithin_of_le hlevels _).trans (subtreeWithin_of_le hlevels _).symm
  | succ levels ih =>
    cases more with
    | zero => exact (subtreeWithin_of_le hmore _).trans (subtreeWithin_of_le hmore _).symm
    | succ more =>
      rw [subtreeWithin, subtreeWithin]
      cases hn : t.node? id with
      | none => rfl
      | some n =>
        refine congrArg n.head.withChildren (List.map_congr_left fun c hc => ?_)
        rw [← children_of_node? hn] at hc
        have := (ht.lt_of_mem_children hc).1
        exact ih (by omega) (by omega)

/-- The expression at a node is put together from those at its parts. -/
theorem subtree_eq (ht : t.Sound) (hn : t.node? id = some n) :
    t.subtree id = n.head.withChildren (n.children.map t.subtree) := by
  obtain ⟨levels, hlevels⟩ := Nat.exists_eq_add_of_le' (Nat.zero_lt_of_lt (lt_of_node? hn))
  rw [subtree, hlevels, subtreeWithin, hn]
  refine congrArg n.head.withChildren (List.map_congr_left fun c hc => ?_)
  rw [← children_of_node? hn] at hc
  have := (ht.lt_of_mem_children hc).1
  exact subtreeWithin_congr ht (by omega) (by omega)

/-- Rebuilding the expressions at some nodes ends, and these are the expressions. -/
inductive Rebuilds (t : EditTree) : (ids : List Nat) → (es : List Expr) → Prop
  | nil : Rebuilds t [] []
  | cons {id n ids parts es} (node : t.node? id = some n) (children : Rebuilds t n.children parts)
      (rest : Rebuilds t ids es) : Rebuilds t (id :: ids) (n.head.withChildren parts :: es)

theorem rebuilds_of_forall {ids : List Nat} (h : ∀ id ∈ ids, t.Rebuilds [id] [t.subtree id]) :
    t.Rebuilds ids (ids.map t.subtree) := by
  induction ids with
  | nil => exact .nil
  | cons id ids ih =>
    have hrest := ih fun id hid => h id (List.mem_cons_of_mem _ hid)
    have hid := h id List.mem_cons_self
    rw [List.map_cons]
    generalize t.subtree id = e at hid
    cases hid with
    | cons node children rest => exact .cons node children hrest

theorem rebuilds_subtree (ht : t.Sound) (hid : id < t.nodes.length) :
    t.Rebuilds [id] [t.subtree id] := by
  refine ht.induction (fun id n hn ih => ?_) hid
  rw [subtree_eq ht hn]
  have hparts := rebuilds_of_forall ih
  rw [children_of_node? hn] at hparts
  exact .cons hn hparts .nil

/-- The expressions that were placed are the ones that are rebuilt. -/
theorem Placed.map_subtree (ht : t.Sound) {start : Nat} {parent : Option Nat} {es : List Expr}
    (h : Placed t start parent es) : (numbers start es).map t.subtree = es := by
  induction h with
  | nil => rfl
  | @cons start parent e es node parts rest ihparts ihrest =>
    rw [numbers, List.map_cons, ihrest, subtree_eq ht node, ihparts, headOf_withChildren]

/-- A new tree is rebuilt as the expression that it was made of. -/
theorem toExpr_ofExpr (e : Expr) : (ofExpr e).toExpr = e :=
  (List.cons.inj ((placed_ofExpr e).map_subtree (sound_ofExpr e))).1

end Formulary.EditTree
