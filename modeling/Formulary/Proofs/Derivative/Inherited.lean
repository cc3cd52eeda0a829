import Formulary.Proofs.Evaluation.Slopes

/-!
# Properties that derivatives inherit

A rule of differentiation keeps what is closed under arithmetic and calls. On the way derivative
operators and builtin functions with primes are written out, and the result is differentiated again:
the derivative of a body, with a point put in the place of its variable, has to have the property
of the operator. `Inherited` says so of a family of properties, since a body may have a stronger one
than its operator: it may be smaller.
-/

namespace Formulary.Derivative

open Formulary.Expr

/-- What holds of all nodes of an expression, if it holds of every operation and says the same of
calls that differ in primes only. -/
theorem closed_of_nodes {p : Expr → Prop} (hnumber : ∀ n, p (.number n)) (heuler : p (.var "e"))
    (hunary : ∀ op u, p (.unary op u)) (hbinary : ∀ op u v, p (.binary op u v))
    (hnary : ∀ op es, p (.nary op es))
    (hbuiltin : ∀ f u, Names.isBuiltin f = true → p (.call f 0 u))
    (hraise : ∀ f primes u, p (.call f primes u) → p (.call f (primes + 1) u)) :
    Closed fun e => ∀ node ∈ e.nodes, p node where
  number n := (forall_mem_nodes_of_root (hnumber n)).2 (List.forall_mem_nil _)
  euler := (forall_mem_nodes_of_root heuler).2 (List.forall_mem_nil _)
  unary op u := forall_mem_nodes_single (hunary op u) rfl
  binary op u v := forall_mem_nodes_pair (hbinary op u v) rfl
  nary op es := forall_mem_nodes_of_root (hnary op es)
  builtin {f u} hf hu := (forall_mem_nodes_single (hbuiltin f u hf) rfl).2 hu
  raise {f primes u} _ hcall := by
    obtain ⟨hroot, hparts⟩ := forall_mem_nodes.1 hcall
    exact (forall_mem_nodes_of_root (hraise f primes u hroot)).2 hparts

/-- A family of properties that arithmetic and calls take over, that parts have if the whole has
them, and that a point that is put in place keeps. -/
structure Inherited {ι : Type} (Q : ι → Expr → Prop) : Prop where
  closed (i : ι) : Closed (Q i)
  var (i : ι) (name : String) : Q i (.var name)
  argument {i : ι} {f : String} {primes : Nat} {u : Expr} : Q i (.call f primes u) → Q i u
  body {i : ι} {body : Expr} {name : String} : Q i (.derivative body name) → Q i body
  point {i : ι} {body point : Expr} {name : String} : Q i (.derivativeAt body name point) →
    ∃ j, Q j body ∧ ∀ first, Q j first → Q i (first.substituteName name point)

/-- The derivative has all properties of the family that the expression has. -/
def Preserves {ι : Type} (Q : ι → Expr → Prop) (differentiate : Continue) : Prop :=
  ∀ ⦃i : ι⦄ ⦃e : Expr⦄ ⦃x : String⦄ ⦃known : Scope⦄ ⦃d : Expr⦄, Q i e →
    differentiate e x known = some d → Q i d

variable {ι : Type} {Q : ι → Expr → Prop}

theorem preserves_none : Preserves Q fun _ _ _ => none := by
  intro i e x known d _ hd
  cases hd

/-- The rules keep the properties; `again` only sees expressions that were written out. -/
theorem Inherited.differentiates (h : Inherited Q) {again : Continue} (hagain : Preserves Q again)
    {i : ι} {e d : Expr} {x : String} {known : Scope}
    (hd : Differentiates closedForm again e x known d) (he : Q i e) : Q i d := by
  induction hd generalizing i with
  | unread => exact he
  | constant | element | boolean => exact (h.closed i).ofInt 0
  | var =>
    split
    · exact (h.closed i).ofInt 1
    · exact h.var i _
  | unary _ _ ih =>
    have hu := ((h.closed i).unary _ _).1 he
    exact (h.closed i).unaryRule _ ⟨hu, ih hu⟩
  | binary _ _ _ _ ihu ihv =>
    obtain ⟨hu, hv⟩ := ((h.closed i).binary _ _ _).1 he
    exact (h.closed i).binaryRule _ ⟨hu, ihu hu⟩ ⟨hv, ihv hv⟩
  | nary _ _ ih =>
    have hes := ((h.closed i).nary _ _).1 he
    refine (h.closed i).naryRule _ fun s hs => ?_
    have hvalue := hes s.value (List.mem_map_of_mem hs)
    exact ⟨hvalue, ih s hs hvalue⟩
  | primed hf _ hform hd =>
    have hbuiltin := (Bool.and_eq_true _ _).mp hf
    exact hagain (inherits_closedForm (h.closed i) (fun name _ => h.var i name) hbuiltin.1
      (h.argument he) hform) hd
  | call hf _ _ ih =>
    have hu := h.argument he
    exact (h.closed i).chain ((h.closed i).function hf he hu) ⟨hu, ih hu⟩
  | derivative _ _ hd ih => exact hagain (ih (h.body he)) hd
  | derivativeAt _ _ hd ih =>
    obtain ⟨j, hbody, hplaced⟩ := h.point he
    exact hagain (hplaced _ (ih hbody)) hd

/-- One step of the differentiation preserves the family if what it goes on with does. -/
theorem Inherited.differentiateWith (h : Inherited Q) {again : Continue}
    (hagain : Preserves Q again) :
    Preserves Q fun e x known => e.differentiateWith closedForm again x known :=
  fun _ _ _ _ _ he hd => h.differentiates hagain (differentiateWith_eq_some.1 hd) he

/-- However often something is written out, the derivative has the properties. -/
theorem Inherited.differentiate? (h : Inherited Q) (depth : Nat) :
    Preserves Q (differentiate? depth) := by
  induction depth with
  | zero => exact h.differentiateWith preserves_none
  | succ depth ih => exact h.differentiateWith ih

/-- The derivative has the properties, also where it stays an operator. -/
theorem Inherited.differentiate (h : Inherited Q) {i : ι} {e : Expr} (he : Q i e) {x : String}
    (known : Scope) (hoperator : Q i (.derivative e x)) : Q i (e.differentiate x known) := by
  unfold Expr.differentiate
  cases hd : Derivative.differentiate? (Derivative.depth e) e x known with
  | some d => exact h.differentiate? _ he hd
  | none => exact hoperator

end Formulary.Derivative
