import Formulary.Evaluation
import Formulary.Proofs.Expr.Traversal

/-!
# More depth

The depth of an evaluation only decides whether it ends. An evaluation that has ended gives the same
answer with more depth (`evaluate?_refines`), so that there is one answer for all depths that are
enough.
-/

namespace Formulary

namespace Evaluation

open Formulary.Expr

/-- An answer that came in time stays the same. -/
def Refines {α : Type} (o o' : Except Obstacle α) : Prop := o = .error .exhausted ∨ o' = o

theorem Refines.refl {α : Type} (o : Except Obstacle α) : Refines o o := .inr rfl

theorem Refines.bind {α β : Type} {o o' : Except Obstacle α} {k k' : α → Except Obstacle β}
    (ho : Refines o o') (hk : ∀ v, Refines (k v) (k' v)) : Refines (o >>= k) (o' >>= k') := by
  obtain rfl | rfl := ho
  · exact .inl rfl
  · cases o' with
    | error obstacle => exact .refl _
    | ok v => exact hk v

/-- What an evaluation of a given depth goes through: nothing is evaluated at depth zero. -/
def through : (depth : Nat) → Bindings → Expr → Outcome
  | 0 => fun _ _ => .error .exhausted
  | depth + 1 => evaluate? depth

theorem evaluate?_eq (depth : Nat) (b : Bindings) (e : Expr) :
    evaluate? depth b e = e.evalWith (through depth) b := by
  cases depth with
  | zero => rfl
  | succ depth => rfl

/-- Binding the symbol of an index changes no function. -/
theorem functions_withRow? {b b' : Bindings} {index : Expr} (h : withRow? b index = some b') :
    b'.functions = b.functions := by
  unfold withRow? at h
  split at h
  · rw [← Option.some.inj h]
  · split at h
    · rw [← Option.some.inj h]
    · obtain ⟨row, -, rfl⟩ := Option.map_eq_some_iff.1 h
      rfl

variable {again again' : Bindings → Expr → Outcome}

theorem refines_defined (hagain : ∀ b e, Refines (again b e) (again' b e)) (b : Bindings)
    (f : String) (primes : Nat) (v : Float) :
    Refines (defined again b f primes v) (defined again' b f primes v) := by
  unfold defined
  cases b.functions.get? f with
  | none => exact .refl _
  | some d =>
    cases d with
    | standIn s => exact .refl _
    | formula input body => exact (Refines.refl _).bind fun _ => hagain _ _

theorem refines_builtin (hagain : ∀ b e, Refines (again b e) (again' b e)) (f : String)
    (primes : Nat) (v : Float) : Refines (builtin again f primes v) (builtin again' f primes v) := by
  unfold builtin
  split
  · exact .refl _
  · exact (Refines.refl _).bind fun _ => hagain _ _

theorem refines_evalList {b : Bindings} {op : Family} {es : List Expr} {before : Float}
    (h : ∀ e ∈ es, Refines (e.evalWith again b) (e.evalWith again' b)) :
    Refines (evalList again b op before es) (evalList again' b op before es) := by
  induction es generalizing before with
  | nil =>
    rw [evalList, evalList]
    exact .refl _
  | cons e es ih =>
    obtain ⟨he, hes⟩ := List.forall_mem_cons.1 h
    rw [evalList, evalList]
    exact he.bind fun v => ih hes

theorem refines_evalWith (hagain : ∀ b e, Refines (again b e) (again' b e)) (b : Bindings)
    (e : Expr) : Refines (e.evalWith again b) (e.evalWith again' b) := by
  induction e using Expr.induction generalizing b with
  | number n =>
    rw [evalWith, evalWith]
    exact .refl _
  | var name =>
    rw [evalWith, evalWith]
    exact .refl _
  | element sequence index ih =>
    rw [evalWith, evalWith]
    cases b.sequence? sequence with
    | none => exact .refl _
    | some values =>
      cases withRow? b index with
      | none => exact .refl _
      | some b' => exact (ih b').bind fun _ => .refl _
  | unary op u ih =>
    rw [evalWith, evalWith]
    exact (ih b).bind fun _ => .refl _
  | binary op u v ihu ihv =>
    rw [evalWith, evalWith]
    exact (ihu b).bind fun _ => (ihv b).bind fun _ => .refl _
  | nary op es ih =>
    rw [evalWith, evalWith]
    exact refines_evalList fun e he => ih e he b
  | call f primes u ih =>
    rw [evalWith, evalWith]
    refine (ih b).bind fun v => ?_
    split
    · exact refines_builtin hagain f primes v
    · exact refines_defined hagain b f primes v
  | derivative body name _ =>
    rw [evalWith, evalWith]
    exact (Refines.refl _).bind fun _ => hagain _ _
  | derivativeAt body name point _ _ =>
    rw [evalWith, evalWith]
    exact (Refines.refl _).bind fun _ => hagain _ _
  | invalid issue =>
    rw [evalWith, evalWith]
    exact .refl _
  | invalidPart issue part _ =>
    rw [evalWith, evalWith]
    exact .refl _

/-- More depth changes no answer. -/
theorem refines_through {depth more : Nat} (hle : depth ≤ more) (b : Bindings) (e : Expr) :
    Refines (through depth b e) (through more b e) := by
  induction depth generalizing more b e with
  | zero => exact .inl rfl
  | succ depth ih =>
    cases more with
    | zero => cases hle
    | succ more =>
      simp only [through, evaluate?_eq]
      exact refines_evalWith (ih (Nat.le_of_succ_le_succ hle)) b e

/-- An evaluation that ends gives the same answer with more depth. -/
theorem evaluate?_refines {depth more : Nat} (hle : depth ≤ more) (b : Bindings) (e : Expr) :
    Refines (evaluate? depth b e) (evaluate? more b e) :=
  refines_through (Nat.succ_le_succ hle) b e

end Evaluation

end Formulary
