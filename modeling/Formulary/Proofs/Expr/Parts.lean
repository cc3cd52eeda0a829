import Formulary.Expr
import Mathlib.Data.List.Basic

/-!
# The parts of an expression

An expression is its root and its direct parts: given as many parts as it has, `withChildren` puts
them in the places of the old ones, of which nothing is left. `partAt?` and `replaceAt` go on from
there to a part at any depth.
-/

namespace Formulary.Expr

theorem fill_eq {places es : List Expr} (h : places.length = es.length) : fill places es = es := by
  induction places generalizing es with
  | nil => rw [List.length_eq_zero_iff.1 h.symm, fill]
  | cons place places ih =>
    cases es with
    | nil => cases h
    | cons e es => rw [fill, ih (Nat.succ.inj h)]

theorem withChildren_children (e : Expr) : e.withChildren e.children = e := by
  cases e with
  | nary op es => exact congrArg (nary op) (fill_eq rfl)
  | _ => rfl

/-- An expression stays a literal, the same one, or none. -/
theorem number?_withChildren (e : Expr) (es : List Expr) :
    (e.withChildren es).number? = e.number? := by
  unfold withChildren
  split <;> rfl

section

variable {e : Expr} {as bs : List Expr}

theorem children_withChildren (h : as.length = e.children.length) :
    (e.withChildren as).children = as := by
  cases e with
  | number | var | invalid =>
    rw [List.length_eq_zero_iff.1 h]
    rfl
  | nary op es => exact fill_eq h.symm
  | binary | derivativeAt =>
    obtain ⟨a, b, rfl⟩ := List.length_eq_two.1 h
    rfl
  | _ =>
    obtain ⟨a, rfl⟩ := List.length_eq_one_iff.1 h
    rfl

theorem withChildren_withChildren (ha : as.length = e.children.length)
    (hb : bs.length = e.children.length) :
    (e.withChildren as).withChildren bs = e.withChildren bs := by
  cases e with
  | number | var | invalid =>
    rw [List.length_eq_zero_iff.1 ha]
    rfl
  | nary op es =>
    have has : fill es as = as := fill_eq ha.symm
    have hbs : fill es bs = bs := fill_eq hb.symm
    change nary op (fill (fill es as) bs) = nary op (fill es bs)
    rw [has, hbs, fill_eq (ha.trans hb.symm)]
  | binary | derivativeAt =>
    obtain ⟨a, b, rfl⟩ := List.length_eq_two.1 ha
    obtain ⟨c, d, rfl⟩ := List.length_eq_two.1 hb
    rfl
  | _ =>
    obtain ⟨a, rfl⟩ := List.length_eq_one_iff.1 ha
    obtain ⟨b, rfl⟩ := List.length_eq_one_iff.1 hb
    rfl

end

/-- The part at a path, which says at each level which of the direct parts to go down to. -/
def partAt? : (path : List Nat) → (e : Expr) → Option Expr
  | [], e => some e
  | i :: path, e => e.children[i]? >>= partAt? path

/-- The expression with the part at a path replaced. -/
def replaceAt : (path : List Nat) → (e new : Expr) → Expr
  | [], _, new => new
  | i :: path, e, new => e.withChildren (e.children.modify i fun part => replaceAt path part new)

end Formulary.Expr
