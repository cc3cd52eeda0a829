import Formulary.Expr

/-!
# Equality of expressions

Whether two expressions are the same tree is decided by comparing them node by node.
-/

namespace Formulary.Expr

mutual

/-- The two expressions are the same tree. -/
def same : Expr → Expr → Bool
  | number m, number n => m = n
  | var x, var y => x = y
  | element x a, element y b => x = y && same a b
  | unary p a, unary q b => p = q && same a b
  | binary p a b, binary q c d => p = q && same a c && same b d
  | nary p as, nary q bs => p = q && sameList as bs
  | call f m a, call g n b => f = g && m = n && same a b
  | derivative a x, derivative b y => x = y && same a b
  | derivativeAt a x p, derivativeAt b y q => x = y && same a b && same p q
  | invalid i, invalid j => i = j
  | invalidPart i a, invalidPart j b => i = j && same a b
  | _, _ => false

/-- The two lists hold the same trees in the same order. -/
def sameList : List Expr → List Expr → Bool
  | [], [] => true
  | a :: as, b :: bs => same a b && sameList as bs
  | _, _ => false

end

mutual

theorem same_iff (a b : Expr) : same a b = true ↔ a = b := by
  cases a with
  | number m => cases b <;> simp [same]
  | var x => cases b <;> simp [same]
  | element x a => cases b <;> simp [same, same_iff a]
  | unary p a => cases b <;> simp [same, same_iff a]
  | binary p a c => cases b <;> simp [same, same_iff a, same_iff c, and_assoc]
  | nary p as => cases b <;> simp [same, sameList_iff as]
  | call f m a => cases b <;> simp [same, same_iff a, and_assoc]
  | derivative a x => cases b <;> simp [same, same_iff a, and_comm]
  | derivativeAt a x p =>
    cases b <;> simp [same, same_iff a, same_iff p]
    grind
  | invalid i => cases b <;> simp [same]
  | invalidPart i a => cases b <;> simp [same, same_iff a]

theorem sameList_iff (as bs : List Expr) : sameList as bs = true ↔ as = bs := by
  cases as with
  | nil => cases bs <;> simp [sameList]
  | cons a as => cases bs <;> simp [sameList, same_iff a, sameList_iff as]

end

instance : DecidableEq Expr := fun a b => decidable_of_iff (same a b = true) (same_iff a b)

end Formulary.Expr
