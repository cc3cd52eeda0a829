import Formulary.Expr.Traversal
import Formulary.Rule

/-!
# Editable trees

An expression taken apart into numbered nodes, for changing it piece by piece. A node knows its
parent, so that a selected part can be replaced where it stands. A replaced part stays among the
nodes, without a parent, until the tree is compacted.

New nodes get the numbers after those in use, each part after the node it belongs to. So the number
of a part is greater than that of its parent, and every walk downwards ends after as many steps as
there are nodes.
-/

namespace Formulary

/-- A node of an editable tree. -/
structure EditTree.Node where
  /-- The operation at the node. Its parts are zeros and stand for the children. -/
  head : Expr
  /-- The numbers of the parts. -/
  children : List Nat
  /-- The number of the node this one is a part of. -/
  parent : Option Nat
  /-- The node is selected. -/
  selected : Bool := false
deriving DecidableEq

/-- An expression as numbered nodes. -/
structure EditTree where
  nodes : List EditTree.Node
  root : Nat
deriving DecidableEq

namespace EditTree

/-! ## Building a tree -/

/-- The operation at the root of an expression. -/
def headOf (e : Expr) : Expr := e.withChildren (e.children.map fun _ => .ofInt 0)

/-- The numbers of some expressions that are laid out one after another. -/
def numbers : (start : Nat) → List Expr → List Nat
  | _, [] => []
  | start, e :: es => start :: numbers (start + e.size) es

/-- The nodes of some expressions with a common parent, each before its own parts and from left to
right, numbered from `start` on. -/
def layout (start : Nat) (parent : Option Nat) : List Expr → List Node
  | [] => []
  | e :: es =>
    { head := headOf e, children := numbers (start + 1) e.children, parent := parent } ::
      (layout (start + 1) (some start) e.children ++ layout (start + e.size) parent es)
termination_by es => Expr.sizeList es
decreasing_by
  · simp only [Expr.sizeList, Expr.size_eq_sizeList_children e]
    omega
  · simp only [Expr.sizeList]
    have := Expr.size_pos e
    omega

/-- The tree of an expression. -/
def ofExpr (e : Expr) : EditTree := ⟨layout 0 none [e], 0⟩

/-! ## Looking at a tree -/

/-- The node with a number. -/
def node? (t : EditTree) (id : Nat) : Option Node := t.nodes[id]?

/-- The numbers of the parts of a node. -/
def children (t : EditTree) (id : Nat) : List Nat :=
  match t.node? id with
  | some n => n.children
  | none => []

/-- The number of the node that a node is a part of. -/
def parent? (t : EditTree) (id : Nat) : Option Nat := t.node? id >>= Node.parent

/-- The node is selected. -/
def selected (t : EditTree) (id : Nat) : Bool := (t.node? id).any Node.selected

/-- Walks through the nodes of an agenda and their parts, for a number of steps. -/
def walk (t : EditTree) : (steps : Nat) → (agenda : List Nat) → List Nat
  | steps + 1, id :: agenda => id :: walk t steps (t.children id ++ agenda)
  | 0, _ | _, [] => []

/-- The nodes of the tree, each before its own parts and from left to right. -/
def order (t : EditTree) : List Nat := t.walk t.nodes.length [t.root]

/-- The selected nodes of the tree, in order. -/
def selection (t : EditTree) : List Nat := t.order.filter t.selected

/-- The expression at a node, put together over a number of levels. -/
def subtreeWithin (t : EditTree) : (levels : Nat) → (id : Nat) → Expr
  | 0, _ => .ofInt 0
  | levels + 1, id =>
    match t.node? id with
    | some n => n.head.withChildren (n.children.map (subtreeWithin t levels))
    | none => .ofInt 0

/-- The expression at a node. -/
def subtree (t : EditTree) (id : Nat) : Expr := t.subtreeWithin t.nodes.length id

/-- The expression of the tree. -/
def toExpr (t : EditTree) : Expr := t.subtree t.root

/-! ## Editing a tree -/

/-- Changes the node with a number. -/
def modify (t : EditTree) (id : Nat) (f : Node → Node) : EditTree :=
  { t with nodes := t.nodes.modify id f }

/-- Selects a node or takes it out of the selection. -/
def select (t : EditTree) (id : Nat) (selected : Bool) : EditTree :=
  t.modify id fun n => { n with selected := selected }

/-- Puts a number in the place of another among the parts of a node. -/
def relink (old new : Nat) (n : Node) : Node :=
  { n with children := n.children.map fun id => if id = old then new else id }

/-- Replaces the part at a node by an expression, and gives the number of its node. A node without a
parent counts as the root. -/
def replace (t : EditTree) (id : Nat) (e : Expr) : Nat × EditTree :=
  let parent := t.parent? id
  let new := t.nodes.length
  let grown : EditTree := { t with nodes := t.nodes ++ layout new parent [e] }
  let linked :=
    match parent with
    | some p => grown.modify p (relink id new)
    | none => { grown with root := new }
  (new, linked.modify id fun n => { n with parent := none })

/-- Drops the nodes that are no longer part of the tree and numbers the others in order. Gives the
old numbers in their new order. -/
def compact (t : EditTree) : List Nat × EditTree :=
  let order := t.order
  let renumber (n : Node) : Node :=
    { n with children := n.children.map order.idxOf, parent := n.parent.map order.idxOf }
  (order, ⟨(order.filterMap t.node?).map renumber, order.idxOf t.root⟩)

/-- What the placeholders of an offer stand for, numbered from one. -/
def inputsFrom : (number : Nat) → List Substitution → Substitutions
  | _, [] => []
  | number, s :: ss => ("input" ++ toString number, s) :: inputsFrom (number + 1) ss

/-- Replaces the part at a node by what a rule makes of it, with inputs for the placeholders.
Placeholders without an input stay. -/
def apply (t : EditTree) (id : Nat) (o : Offer) (inputs : List Substitution) : Nat × EditTree :=
  t.replace id (o.result.substitute [] (inputsFrom 1 inputs))

end EditTree

end Formulary
