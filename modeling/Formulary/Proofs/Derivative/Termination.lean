import Formulary.Proofs.Derivative.Levels

/-!
# Derivatives that can be written out

The depth of a differentiation only decides whether it ends: a derivative that was found stays the
same with more depth (`differentiate?_refines`). The derivative of a disentangled expression is found
with one level for each node that has to be written out, whatever it is differentiated by
(`differentiate?_of_disentangled`). An operator that captures a name of a point may bring itself back
and go on forever (`endless_of_captured_point`).
-/

namespace Formulary

namespace Derivative

open Formulary.Expr

/-- An answer that was found stays the same. -/
def Refines {α : Type} (o o' : Option α) : Prop := o = none ∨ o' = o

theorem refines_iff {α : Type} {o o' : Option α} :
    Refines o o' ↔ ∀ a, o = some a → o' = some a := by
  unfold Refines
  cases o with
  | none => simp
  | some a => simp

variable {closed : String → Nat → Expr → Option Expr} {again again' : Continue} {x : String}
  {known : Scope}

/-- The rules only hand on what `again` finds. -/
theorem differentiates_mono (hagain : ∀ e x known, Refines (again e x known) (again' e x known))
    {e d : Expr} (h : Differentiates closed again e x known d) :
    Differentiates closed again' e x known d := by
  have found {e : Expr} {x : String} {known : Scope} {d : Expr} (hd : again e x known = some d) :
      again' e x known = some d := refines_iff.1 (hagain e x known) d hd
  induction h with
  | unread h => exact .unread h
  | constant h => exact .constant h
  | var h => exact .var h
  | element sequence index x known => exact .element sequence index x known
  | unary h _ ih => exact .unary h ih
  | boolean hop u v x known => exact .boolean hop u v x known
  | binary hop h _ _ ihu ihv => exact .binary hop h ihu ihv
  | nary h _ ih => exact .nary h ih
  | primed hf h he hd => exact .primed hf h he (found hd)
  | call hf h _ ih => exact .call hf h ih
  | derivative h _ hd ih => exact .derivative h ih (found hd)
  | derivativeAt h _ hd ih => exact .derivativeAt h ih (found hd)

theorem refines_differentiateWith
    (hagain : ∀ e x known, Refines (again e x known) (again' e x known)) (e : Expr) (x : String)
    (known : Scope) :
    Refines (e.differentiateWith closed again x known)
      (e.differentiateWith closed again' x known) :=
  refines_iff.2 fun _ hd =>
    differentiateWith_eq_some.2 (differentiates_mono hagain (differentiateWith_eq_some.1 hd))

/-- How a differentiation of a given depth goes on: nothing is written out at depth zero. -/
def through : (depth : Nat) → Continue
  | 0 => fun _ _ _ => none
  | depth + 1 => differentiate? depth

theorem differentiate?_eq (depth : Nat) (e : Expr) (x : String) (known : Scope) :
    differentiate? depth e x known = e.differentiateWith closedForm (through depth) x known := by
  cases depth with
  | zero => rfl
  | succ depth => rfl

/-- More depth changes no answer. -/
theorem refines_through {depth more : Nat} (hle : depth ≤ more) (e : Expr) (x : String)
    (known : Scope) : Refines (through depth e x known) (through more e x known) := by
  induction depth generalizing more e x known with
  | zero => exact .inl rfl
  | succ depth ih =>
    cases more with
    | zero => cases hle
    | succ more =>
      simp only [through, differentiate?_eq]
      exact refines_differentiateWith (ih (Nat.le_of_succ_le_succ hle)) e x known

/-- A derivative that was found stays the same with more depth. -/
theorem differentiate?_refines {depth more : Nat} (hle : depth ≤ more) (e : Expr) (x : String)
    (known : Scope) : Refines (differentiate? depth e x known) (differentiate? more e x known) :=
  refines_through (Nat.succ_le_succ hle) e x known

/-- There is one derivative for all depths that are enough. -/
theorem differentiate?_unique {depth other : Nat} {e de de' : Expr}
    (h : differentiate? depth e x known = some de)
    (h' : differentiate? other e x known = some de') : de = de' := by
  have hagree {depth more : Nat} {de de' : Expr} (hle : depth ≤ more)
      (h : differentiate? depth e x known = some de)
      (h' : differentiate? more e x known = some de') : de = de' := by
    obtain hnone | hsame := differentiate?_refines hle e x known
    · rw [h] at hnone
      cases hnone
    · rw [h, h'] at hsame
      exact (Option.some.inj hsame).symm
  obtain hle | hle := Nat.le_total depth other
  · exact hagree hle h h'
  · exact (hagree hle h' h).symm

/-- The derivative of a disentangled expression by any name is found as soon as there is a level for
each node that has to be written out, and more depth does not change it. -/
theorem differentiate?_of_disentangled {e : Expr} (he : e.Disentangled) (x : String) (known : Scope)
    {depth : Nat} (hdepth : e.nodes.countP isWrittenOut ≤ depth) :
    differentiate? depth e x known = some (e.differentiate x known) := by
  have hlevelled (d : Nat) (hd : e.levels ≤ d) : e.Levelled e.heavyVariables (fun _ => True) d := by
    refine ⟨hd, fun node hnode => ⟨he node hnode, ?_⟩⟩
    cases node with
    | call f primes u => exact fun _ => trivial
    | _ => trivial
  obtain ⟨de, hde⟩ := Option.isSome_iff_exists.1
    (isSome_differentiate? (hlevelled depth ((levels_le_countP e).trans hdepth)) x known)
  obtain ⟨de', hde'⟩ := Option.isSome_iff_exists.1
    (isSome_differentiate?_depth (hlevelled e.levels (Nat.le_refl _)) x known)
  rw [hde, Expr.differentiate, hde', Option.getD_some, differentiate?_unique hde hde']

/-- The point of one operator is another one, and the body holds a third one and a builtin function
with primes. -/
theorem differentiate?_of_nested :
    (ofText "D(x*D(sin''(z*y),y,t^z),x,D(f(u)^2,u))").Disentangled ∧
      (ofText "D(x*D(sin''(z*y),y,t^z),x,D(f(u)^2,u))").nodes.countP isWrittenOut = 4 ∧
      differentiate? 4 (ofText "D(x*D(sin''(z*y),y,t^z),x,D(f(u)^2,u))") "z" [] =
        some ((ofText "D(x*D(sin''(z*y),y,t^z),x,D(f(u)^2,u))").differentiate "z" []) := by
  have hdisentangled : (ofText "D(x*D(sin''(z*y),y,t^z),x,D(f(u)^2,u))").Disentangled := by
    decide +kernel
  have hcount : (ofText "D(x*D(sin''(z*y),y,t^z),x,D(f(u)^2,u))").nodes.countP isWrittenOut = 4 := by
    decide +kernel
  exact ⟨hdisentangled, hcount, differentiate?_of_disentangled hdisentangled "z" [] hcount.le⟩

/-! ## Derivatives that are never written out -/

section

variable {depth : Nat}

/-- Several expressions have no derivatives if one of them has none. -/
theorem differentiateList_eq_none {us : List Expr} {u : Expr} (hmem : u ∈ us)
    (h : u.differentiateWith closed again x known = none) :
    differentiateList closed again us x known = none := by
  induction us with
  | nil => cases hmem
  | cons first us ih =>
    rw [differentiateList]
    obtain rfl | hmem := List.mem_cons.1 hmem
    · rw [h]
      rfl
    · rw [ih hmem]
      cases first.differentiateWith closed again x known <;> rfl

theorem none_of_operand {op : Family} {us : List Expr} {u : Expr} (hmem : u ∈ us)
    (hind : independent x known (.nary op us) = false)
    (h : differentiate? depth u x known = none) :
    differentiate? depth (.nary op us) x known = none := by
  rw [differentiate?_eq] at h ⊢
  rw [differentiateWith_nary hind, differentiateList_eq_none hmem h]
  rfl

/-- An operator with a point is differentiated through what it stands for, with less depth. -/
theorem none_of_placed {body point first : Expr} {name : String} {enough : Nat}
    (hind : independent x known (derivativeAt body name point) = false)
    (hfirst : differentiate? enough body name (inside x known name) = some first)
    (h : ∀ less < depth, differentiate? less (first.substituteName name point) x known = none) :
    differentiate? depth (derivativeAt body name point) x known = none := by
  rw [differentiate?_eq, differentiateWith_derivativeAt hind, ← differentiate?_eq]
  cases hbody : differentiate? depth body name (inside x known name) with
  | none => rfl
  | some first' =>
    cases differentiate?_unique hbody hfirst
    cases depth with
    | zero => rfl
    | succ depth => exact h depth (Nat.lt_succ_self depth)

end

/-- The operator by `y` captures the `y` of the point that takes the place of `x`, and two levels
further the expression is back as a factor of a term. -/
theorem endless_of_captured_point :
    ¬ (ofText "D(x*D(z*y*x,y,x),x,D(x*D(z*y*x,y,x),x,y))").Disentangled ∧
      ∀ depth, differentiate? depth (ofText "D(x*D(z*y*x,y,x),x,D(x*D(z*y*x,y,x),x,y))") "z" [] =
        none := by
  let point := ofText "D(x*D(z*y*x,y,x),x,y)"
  let outer := derivativeAt (ofText "x*D(z*y*x,y,x)") "x" point
  let inner := derivativeAt (ofText "z*y*D(x*D(z*y*x,y,x),x,y)") "y" point
  have hread : ofText "D(x*D(z*y*x,y,x),x,D(x*D(z*y*x,y,x),x,y))" = outer := by decide +kernel
  have houter : differentiate? 1 (ofText "x*D(z*y*x,y,x)") "x" ["z"] =
      some (.nary .sum [ofText "D(z*y*x,y,x)", .nary .product [var "x", var "z"]]) := by
    decide +kernel
  have hinner : differentiate? 2 (ofText "z*y*D(x*D(z*y*x,y,x),x,y)") "y" ["z"] =
      some (.nary .sum [.nary .product [var "z", point], .nary .product [ofText "z*y", var "z"]]) := by
    decide +kernel
  have hcaptured : (Expr.nary .sum [ofText "D(z*y*x,y,x)",
      .nary .product [var "x", var "z"]]).substituteName "x" point =
        .nary .sum [inner, .nary .product [point, var "z"]] := by decide +kernel
  have hback : (Expr.nary .sum [.nary .product [var "z", point],
      .nary .product [ofText "z*y", var "z"]]).substituteName "y" point =
        .nary .sum [.nary .product [var "z", outer],
          .nary .product [.binary .mul (var "z") point, var "z"]] := by decide +kernel
  refine ⟨by decide +kernel, fun depth => ?_⟩
  rw [hread]
  induction depth using Nat.strong_induction_on with
  | _ depth ih =>
    refine none_of_placed (by decide +kernel) houter fun less hless => ?_
    rw [hcaptured]
    refine none_of_operand List.mem_cons_self (by decide +kernel) ?_
    refine none_of_placed (by decide +kernel) hinner fun least hleast => ?_
    rw [hback]
    refine none_of_operand List.mem_cons_self (by decide +kernel) ?_
    refine none_of_operand (List.mem_cons_of_mem _ List.mem_cons_self) (by decide +kernel) ?_
    exact ih least (hleast.trans hless)

end Derivative

end Formulary
