import Formulary.Expr

/-!
# Walking through an expression

`Expr.nodes` visits an expression and all its parts with an agenda of expressions still to be
visited: the first of them is visited, and its direct parts go to the front of the agenda. The
number of nodes bounds the number of visits.
-/

namespace Formulary.Expr

mutual

/-- The number of nodes of an expression. -/
def size : Expr → Nat
  | number _ | var _ | invalid _ => 1
  | element _ index => index.size + 1
  | unary _ operand => operand.size + 1
  | binary _ lhs rhs => lhs.size + rhs.size + 1
  | nary _ operands => sizeList operands + 1
  | call _ _ argument => argument.size + 1
  | derivative body _ => body.size + 1
  | derivativeAt body _ point => body.size + point.size + 1
  | invalidPart _ part => part.size + 1

/-- The number of nodes of several expressions. -/
def sizeList : List Expr → Nat
  | [] => 0
  | e :: es => e.size + sizeList es

end

theorem size_pos (e : Expr) : 0 < e.size := by cases e <;> simp [size]

/-- An expression has one node more than all its parts together. -/
theorem size_eq_sizeList_children (e : Expr) : e.size = sizeList e.children + 1 := by
  cases e <;> simp [size, sizeList, children, Nat.add_assoc]

/-- Visits the expressions of an agenda and their parts, for a number of visits. -/
def visit : (visits : Nat) → (agenda : List Expr) → List Expr
  | visits + 1, e :: agenda => e :: visit visits (e.children ++ agenda)
  | 0, _ | _, [] => []

/-- An expression and all its parts, each before its own parts and from left to right. -/
def nodes (e : Expr) : List Expr := visit e.size [e]

/-- The issue of a node for something that could not be read. -/
def ownIssue? : Expr → Option Issue
  | invalid issue | invalidPart issue _ => some issue
  | _ => none

/-- The first issue of an expression. -/
def firstIssue? (e : Expr) : Option Issue := e.nodes.findSome? ownIssue?

/-- Some part of the expression could not be read. -/
def hasIssue (e : Expr) : Bool := e.firstIssue?.isSome

end Formulary.Expr
