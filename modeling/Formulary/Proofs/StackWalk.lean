import Mathlib.Data.List.Forall2

/-!
# Walking with a stack

A tree can be walked through without recursion by keeping a stack of the nodes that are still to
come. The node at the top of the stack is given out and its parts are pushed, the last one first.

`Produces parts stack out left` says that a walk with a stack gives out some nodes and is left with
another stack; a walk that is left with nothing is over. What is under a stack stays there until the
stack is used up (`Produces.above`), so that a walk can be put together from those through the nodes
of the stack. A walk is determined by its stack (`Produces.unique`), and the walks through two trees
go side by side if the parts of nodes that correspond to each other do (`Produces.forall₂`).
-/

namespace Formulary.StackWalk

variable {α β : Type}

/-- The node that a walk gives out next, and its stack after that. The top of a stack is its end. -/
def next? (parts : α → List α) (stack : List α) : Option (α × List α) :=
  stack.getLast?.map fun node => (node, stack.dropLast ++ (parts node).reverse)

/-- A walk with a stack gives out some nodes and is left with another stack. -/
inductive Produces (parts : α → List α) : (stack out left : List α) → Prop
  | pause {stack} : Produces parts stack [] stack
  | next {stack node rest out left} (step : next? parts stack = some (node, rest))
      (more : Produces parts rest out left) : Produces parts stack (node :: out) left

variable {parts : α → List α} {node : α} {stack out left : List α}

theorem next?_concat (below : List α) (node : α) :
    next? parts (below ++ [node]) = some (node, below ++ (parts node).reverse) := by
  rw [next?, List.getLast?_concat, List.dropLast_concat, Option.map_some]

theorem eq_of_next? {rest : List α} (h : next? parts stack = some (node, rest)) :
    ∃ below, stack = below ++ [node] ∧ rest = below ++ (parts node).reverse := by
  rcases List.eq_nil_or_concat stack with rfl | ⟨below, top, rfl⟩
  · cases h
  · rw [List.concat_eq_append, next?_concat] at h
    obtain ⟨rfl, rfl⟩ := Prod.mk.inj (Option.some.inj h)
    exact ⟨below, List.concat_eq_append, rfl⟩

namespace Produces

theorem trans {more last : List α} (h : Produces parts stack out left)
    (hmore : Produces parts left more last) : Produces parts stack (out ++ more) last := by
  induction h with
  | pause => exact hmore
  | next step _ ih => exact .next step (ih hmore)

/-- What is under a stack stays there. -/
theorem above (below : List α) (h : Produces parts stack out left) :
    Produces parts (below ++ stack) out (below ++ left) := by
  induction h with
  | pause => exact .pause
  | next step _ ih =>
    obtain ⟨under, rfl, rfl⟩ := eq_of_next? step
    refine .next ?_ ih
    rw [← List.append_assoc, next?_concat, List.append_assoc]

/-- The walk through a node begins with it and goes on through its parts. -/
theorem cons (h : Produces parts (parts node).reverse out []) :
    Produces parts [node] (node :: out) [] :=
  .next (next?_concat [] node) h

/-- The walks through the nodes of a stack, from the top down. -/
theorem concat {more : List α} (hnode : Produces parts [node] out [])
    (hstack : Produces parts stack more []) :
    Produces parts (stack ++ [node]) (out ++ more) [] := by
  have h := hnode.above stack
  rw [List.append_nil] at h
  exact h.trans hstack

/-- A stack can be walked through in one way only. -/
theorem unique {more : List α} (h : Produces parts stack out [])
    (hmore : Produces parts stack more []) : out = more := by
  generalize hleft : ([] : List α) = left at h
  induction h generalizing more with
  | pause =>
    subst hleft
    cases hmore with
    | pause => rfl
    | next step _ => cases step
  | next step _ ih =>
    cases hmore with
    | pause => cases step
    | next step' hrest =>
      obtain ⟨rfl, rfl⟩ := Prod.mk.inj (Option.some.inj (step.symm.trans step'))
      rw [ih hrest hleft]

theorem produces_iff {more : List α} (h : Produces parts stack out []) :
    Produces parts stack more [] ↔ more = out :=
  ⟨fun hmore => hmore.unique h, fun heq => heq ▸ h⟩

end Produces

/-! ## Walks side by side -/

theorem forall₂_concat {R : α → β → Prop} {as : List α} {a : α} {bs : List β}
    (h : List.Forall₂ R (as ++ [a]) bs) :
    ∃ cs b, bs = cs ++ [b] ∧ List.Forall₂ R as cs ∧ R a b := by
  rw [← List.forall₂_reverse_iff, List.reverse_concat, List.forall₂_cons_left_iff] at h
  obtain ⟨b, cs, hab, has, hbs⟩ := h
  refine ⟨cs.reverse, b, ?_, ?_, hab⟩
  · rw [← List.reverse_cons, ← hbs, List.reverse_reverse]
  · rwa [← List.forall₂_reverse_iff, List.reverse_reverse]

/-- The walk through a tree whose nodes correspond to those of another. -/
theorem Produces.forall₂ {R : α → β → Prop} {parts' : β → List β} {stack' : List β}
    (hparts : ∀ a b, R a b → List.Forall₂ R (parts a) (parts' b))
    (h : Produces parts stack out left) (hstack : List.Forall₂ R stack stack') :
    ∃ out' left', Produces parts' stack' out' left' ∧ List.Forall₂ R out out' ∧
      List.Forall₂ R left left' := by
  induction h generalizing stack' with
  | pause => exact ⟨[], stack', .pause, .nil, hstack⟩
  | next step _ ih =>
    obtain ⟨below, rfl, rfl⟩ := eq_of_next? step
    obtain ⟨below', node', rfl, hbelow, hnode⟩ := forall₂_concat hstack
    have hpushed := List.rel_append hbelow (List.rel_reverse (hparts _ _ hnode))
    obtain ⟨out', left', hmore, hout, hleft⟩ := ih hpushed
    exact ⟨node' :: out', left', .next (next?_concat below' node') hmore, .cons hnode hout, hleft⟩

end Formulary.StackWalk
