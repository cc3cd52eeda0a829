import Formulary.Expr.Names
import Formulary.Expr.Traversal

/-!
# The nodes of an expression

`Expr.nodes` walks through an expression with an agenda and a bound on its visits. The bound is
enough, so the walk is the recursion it stands for: an expression comes before the nodes of its
direct parts. From this the issues of an expression are the issues of its parts.
-/

namespace Formulary.Expr

/-- Induction on an expression, with the operands of a sum or product all at once. -/
@[elab_as_elim]
theorem induction {motive : Expr → Prop} (number : ∀ n, motive (number n))
    (var : ∀ name, motive (var name))
    (element : ∀ sequence index, motive index → motive (element sequence index))
    (unary : ∀ op u, motive u → motive (unary op u))
    (binary : ∀ op u v, motive u → motive v → motive (binary op u v))
    (nary : ∀ op es, (∀ e ∈ es, motive e) → motive (nary op es))
    (call : ∀ f primes u, motive u → motive (call f primes u))
    (derivative : ∀ body name, motive body → motive (derivative body name))
    (derivativeAt : ∀ body name point, motive body → motive point →
      motive (derivativeAt body name point))
    (invalid : ∀ issue, motive (invalid issue))
    (invalidPart : ∀ issue part, motive part → motive (invalidPart issue part)) (e : Expr) :
    motive e := by
  refine @Expr.rec motive (fun es => ∀ e ∈ es, motive e) number var element unary binary nary call
    derivative derivativeAt invalid invalidPart ?_ ?_ e
  · intro e he
    cases he
  · intro e es he hes
    exact List.forall_mem_cons.2 ⟨he, hes⟩

/-- Induction on an expression, with all direct parts at once. -/
theorem induction_children {motive : Expr → Prop}
    (step : ∀ e : Expr, (∀ part ∈ e.children, motive part) → motive e) (e : Expr) : motive e := by
  induction e using Expr.induction with
  | number n => exact step (number n) (List.forall_mem_nil _)
  | var name => exact step (var name) (List.forall_mem_nil _)
  | element sequence index ih =>
    exact step (element sequence index) (List.forall_mem_singleton.2 ih)
  | unary op u ih => exact step (unary op u) (List.forall_mem_singleton.2 ih)
  | binary op u v ihu ihv =>
    exact step (binary op u v) (List.forall_mem_cons.2 ⟨ihu, List.forall_mem_singleton.2 ihv⟩)
  | nary op es ih => exact step (nary op es) ih
  | call f primes u ih => exact step (call f primes u) (List.forall_mem_singleton.2 ih)
  | derivative body name ih => exact step (derivative body name) (List.forall_mem_singleton.2 ih)
  | derivativeAt body name point ihbody ihpoint =>
    exact step (derivativeAt body name point)
      (List.forall_mem_cons.2 ⟨ihbody, List.forall_mem_singleton.2 ihpoint⟩)
  | invalid issue => exact step (invalid issue) (List.forall_mem_nil _)
  | invalidPart issue part ih =>
    exact step (invalidPart issue part) (List.forall_mem_singleton.2 ih)

theorem sizeList_append (as bs : List Expr) :
    sizeList (as ++ bs) = sizeList as + sizeList bs := by
  induction as with
  | nil => simp [sizeList]
  | cons a as ih => simp only [List.cons_append, sizeList, ih]; omega

theorem occurrencesList_eq_flatMap (es : List Expr) :
    occurrencesList es = es.flatMap occurrences := by
  induction es with
  | nil => rfl
  | cons e es ih => rw [occurrencesList, ih, List.flatMap_cons]

/-! ## The walk -/

/-- Visiting an agenda of two parts is visiting the one and then the other. -/
theorem visit_append (as bs : List Expr) :
    visit (sizeList (as ++ bs)) (as ++ bs) =
      visit (sizeList as) as ++ visit (sizeList bs) bs := by
  obtain ⟨n, hn⟩ : ∃ n, sizeList as = n := ⟨_, rfl⟩
  induction n using Nat.strongRecOn generalizing as with
  | _ n ih =>
    cases as with
    | nil => cases bs <;> simp [visit, sizeList]
    | cons a as =>
      have hsplit : sizeList (a :: as) = sizeList (a.children ++ as) + 1 := by
        rw [sizeList, size_eq_sizeList_children, sizeList_append]
        omega
      have hall : sizeList (a :: as ++ bs) = sizeList (a.children ++ as ++ bs) + 1 := by
        rw [sizeList_append, hsplit, sizeList_append (a.children ++ as)]
        omega
      have hrest := ih _ (by omega) (a.children ++ as) rfl
      rw [hall, hsplit, List.cons_append, visit, visit, List.cons_append]
      rw [← List.append_assoc, hrest]

/-- The agenda of a traversal has room for all nodes. -/
theorem visit_eq_flatMap_nodes (es : List Expr) :
    visit (sizeList es) es = es.flatMap nodes := by
  induction es with
  | nil => simp [visit, sizeList]
  | cons e es ih =>
    have happend := visit_append [e] es
    rw [List.cons_append, List.nil_append] at happend
    rw [happend, ih, List.flatMap_cons]
    simp [nodes, sizeList]

/-- The nodes of an expression are the expression and then the nodes of its parts. -/
theorem nodes_eq (e : Expr) : e.nodes = e :: e.children.flatMap nodes := by
  rw [nodes, size_eq_sizeList_children, visit, List.append_nil, visit_eq_flatMap_nodes]

theorem mem_nodes_self (e : Expr) : e ∈ e.nodes := by
  rw [nodes_eq]
  exact List.mem_cons_self

theorem mem_nodes_of_child {e part node : Expr} (hpart : part ∈ e.children)
    (hnode : node ∈ part.nodes) : node ∈ e.nodes := by
  rw [nodes_eq]
  exact List.mem_cons_of_mem _ (List.mem_flatMap.2 ⟨part, hpart, hnode⟩)

/-- What holds of all nodes holds of the root and of all nodes of the direct parts. -/
theorem forall_mem_nodes {e : Expr} {p : Expr → Prop} :
    (∀ node ∈ e.nodes, p node) ↔ p e ∧ ∀ part ∈ e.children, ∀ node ∈ part.nodes, p node := by
  rw [nodes_eq, List.forall_mem_cons]
  simp only [List.mem_flatMap, forall_exists_index, and_imp]
  exact and_congr_right fun _ => ⟨fun h part hp node hn => h node part hp hn,
    fun h node part hp hn => h part hp node hn⟩

/-- What the root has holds of all nodes if it holds of those of the direct parts. -/
theorem forall_mem_nodes_of_root {e : Expr} {p : Expr → Prop} (h : p e) :
    (∀ node ∈ e.nodes, p node) ↔ ∀ part ∈ e.children, ∀ node ∈ part.nodes, p node :=
  forall_mem_nodes.trans (and_iff_right h)

theorem forall_mem_nodes_single {e part : Expr} {p : Expr → Prop} (h : p e)
    (hchildren : e.children = [part]) :
    (∀ node ∈ e.nodes, p node) ↔ ∀ node ∈ part.nodes, p node := by
  rw [forall_mem_nodes_of_root h, hchildren, List.forall_mem_singleton]

theorem forall_mem_pair {α : Type} {p : α → Prop} {a b : α} :
    (∀ c ∈ [a, b], p c) ↔ p a ∧ p b := by
  rw [List.forall_mem_cons, List.forall_mem_singleton]

theorem forall_mem_nodes_pair {e u v : Expr} {p : Expr → Prop} (h : p e)
    (hchildren : e.children = [u, v]) :
    (∀ node ∈ e.nodes, p node) ↔
      (∀ node ∈ u.nodes, p node) ∧ ∀ node ∈ v.nodes, p node := by
  rw [forall_mem_nodes_of_root h, hchildren, forall_mem_pair]

/-! ## Issues -/

theorem isSome_ownIssue? (e : Expr) : e.ownIssue?.isSome = e.isInvalid := by cases e <;> rfl

/-- An expression has an issue if one of its nodes stands for something that could not be read. -/
theorem hasIssue_eq_any_nodes (e : Expr) : e.hasIssue = e.nodes.any isInvalid := by
  rw [hasIssue, firstIssue?, List.isSome_findSome?]
  simp only [isSome_ownIssue?]

/-- An expression has an issue if it is a node for one or a part of it has one. -/
theorem hasIssue_eq (e : Expr) : e.hasIssue = (e.isInvalid || e.children.any hasIssue) := by
  rw [hasIssue_eq_any_nodes, nodes_eq, List.any_cons, List.any_flatMap]
  simp only [funext hasIssue_eq_any_nodes]

theorem hasIssue_of_single {e part : Expr} (h : e.isInvalid = false)
    (hchildren : e.children = [part]) : e.hasIssue = part.hasIssue := by
  rw [hasIssue_eq, h, Bool.false_or, hchildren, List.any_cons, List.any_nil, Bool.or_false]

theorem hasIssue_of_pair {e u v : Expr} (h : e.isInvalid = false)
    (hchildren : e.children = [u, v]) : e.hasIssue = (u.hasIssue || v.hasIssue) := by
  rw [hasIssue_eq, h, Bool.false_or, hchildren, List.any_cons, List.any_cons, List.any_nil,
    Bool.or_false]

section

variable (op : UnaryOp) (bop : BinaryOp) (a b : Expr) (name : String)

@[simp] theorem hasIssue_number (n : Number) : (number n).hasIssue = false :=
  hasIssue_eq (number n)

@[simp] theorem hasIssue_var : (var name).hasIssue = false := hasIssue_eq (var name)

@[simp] theorem hasIssue_element : (element name a).hasIssue = a.hasIssue :=
  hasIssue_of_single rfl rfl

@[simp] theorem hasIssue_unary : (unary op a).hasIssue = a.hasIssue := hasIssue_of_single rfl rfl

@[simp] theorem hasIssue_binary : (binary bop a b).hasIssue = (a.hasIssue || b.hasIssue) :=
  hasIssue_of_pair rfl rfl

@[simp] theorem hasIssue_nary (op : Family) (es : List Expr) :
    (nary op es).hasIssue = es.any hasIssue :=
  hasIssue_eq (nary op es)

@[simp] theorem hasIssue_call (primes : Nat) : (call name primes a).hasIssue = a.hasIssue :=
  hasIssue_of_single rfl rfl

@[simp] theorem hasIssue_derivative : (derivative a name).hasIssue = a.hasIssue :=
  hasIssue_of_single rfl rfl

@[simp] theorem hasIssue_derivativeAt :
    (derivativeAt a name b).hasIssue = (a.hasIssue || b.hasIssue) :=
  hasIssue_of_pair rfl rfl

@[simp] theorem hasIssue_invalid (issue : Issue) : (invalid issue).hasIssue = true :=
  hasIssue_eq (invalid issue)

@[simp] theorem hasIssue_invalidPart (issue : Issue) : (invalidPart issue a).hasIssue = true :=
  hasIssue_eq (invalidPart issue a)

end

end Formulary.Expr
