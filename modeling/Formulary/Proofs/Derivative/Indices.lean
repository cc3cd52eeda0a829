import Formulary.Proofs.Derivative.Inherited
import Formulary.Proofs.Expr.Indices
import Formulary.Proofs.Substitution.Avoided

/-!
# The indices of a derivative

When an operator with a point is written out, the point takes the place of its variable, in the
indices as well, and nothing asks whether they stay indices. So a derivative is indexed as long as no
index mentions the variable of such an operator (`Separate`): a point then gets into no index.
-/

namespace Formulary.Expr

open Substitution (forall_mem_without)

variable {p : Place} {e : Expr}

section

variable {V : List String} {scope : Scope} {σ : Substitutions}

/-- Without anything to put in place only literals that stand next to each other change. -/
theorem StandsAt.substitute_nil (h : StandsAt p e) (scope : Scope) :
    StandsAt p (e.substitute scope []) := by
  induction h with
  | number p n => exact .number p n
  | var h => exact .var h
  | element sequence _ ih => exact .element sequence ih
  | unary op _ ih => exact .unary op ih
  | @binary p op u v _ _ ihu ihv =>
    exact (Substitution.binary_iff (structural_standsAt p) (.number p) op).2 ⟨ihu, ihv⟩
  | @nary p op es _ ih =>
    rw [Expr.substitute, substituteList_eq_map]
    exact (Substitution.nary_iff (structural_standsAt p) op).2 (List.forall_mem_map.2 ih)
  | call f primes _ ih => exact .call f primes ih
  | derivative name _ ih => exact .derivative name ih
  | derivativeAt _ _ ihbody ihpoint => exact .derivativeAt ihbody ihpoint
  | invalid p issue => exact .invalid p issue
  | invalidPart issue h _ => exact .invalidPart issue h

/-! ## Points -/

/-- The index of an element mentions none of the names, and the variable of an operator with a point
is one of them. -/
def KeepsClear (V : List String) : Expr → Prop
  | element _ index => index.Avoids V
  | derivativeAt _ name _ => name ∈ V
  | _ => True

/-- The expression is indexed, and its indices keep clear of the variables that points replace. -/
def Apart (V : List String) (e : Expr) : Prop :=
  ∀ node ∈ e.nodes, node.HasIndex ∧ node.KeepsClear V

theorem apart_call {f : String} {primes : Nat} {u : Expr} :
    (call f primes u).Apart V ↔ u.Apart V :=
  forall_mem_nodes_single ⟨trivial, trivial⟩ rfl

theorem apart_derivative {body : Expr} {name : String} :
    (derivative body name).Apart V ↔ body.Apart V :=
  forall_mem_nodes_single ⟨trivial, trivial⟩ rfl

theorem closed_apart (V : List String) : Derivative.Closed (Apart V) :=
  Derivative.closed_of_nodes (fun _ => ⟨trivial, trivial⟩) ⟨trivial, trivial⟩
    (fun _ _ => ⟨trivial, trivial⟩) (fun _ _ _ => ⟨trivial, trivial⟩) (fun _ _ => ⟨trivial, trivial⟩)
    (fun _ _ _ => ⟨trivial, trivial⟩) fun _ _ _ _ => ⟨trivial, trivial⟩

theorem Apart.indexed (h : e.Apart V) : e.Indexed := fun node hnode => (h node hnode).1

/-- A point does not get into an index. The induction goes below the operators, whose variables are
among the names as well. -/
theorem Apart.substitute (he : e.Apart V) (hσ : ∀ entry ∈ σ, entry.1 ∈ V)
    (hplaced : ∀ entry ∈ σ, (entry.2.toExpr scope).Apart V) : (e.substitute scope σ).Apart V := by
  have hclosed := closed_apart V
  have hstructural := structural_of_closed hclosed
  induction e using Expr.induction generalizing σ with
  | number n => exact he
  | var name =>
    rw [Expr.substitute]
    cases hlookup : σ.lookup name with
    | none => exact he
    | some s => exact Substitution.of_lookup hplaced hlookup
  | element sequence index ih =>
    obtain ⟨⟨hindex, haway⟩, hparts⟩ := forall_mem_nodes.1 he
    obtain ⟨symbol, hindex⟩ := isIndex_iff.1 hindex
    have hkept : (index.substitute scope σ).IsIndex ∧ (index.substitute scope σ).Avoids V := by
      rw [substitute_of_avoids haway hσ]
      exact ⟨isIndex_iff.2 ⟨symbol, hindex.substitute_nil scope⟩,
        haway.substitute (List.forall_mem_nil _)⟩
    exact (forall_mem_nodes_single hkept rfl).2 (ih (hparts index List.mem_cons_self) hσ hplaced)
  | unary op u ih => exact (hclosed.unary op _).2 (ih ((hclosed.unary op u).1 he) hσ hplaced)
  | binary op u v ihu ihv =>
    obtain ⟨hu, hv⟩ := (hclosed.binary op u v).1 he
    exact (Substitution.binary_iff hstructural hclosed.number op).2
      ⟨ihu hu hσ hplaced, ihv hv hσ hplaced⟩
  | nary op es ih =>
    have hes := (hclosed.nary op es).1 he
    rw [Expr.substitute, substituteList_eq_map]
    exact (Substitution.nary_iff hstructural op).2
      (List.forall_mem_map.2 fun e hmem => ih e hmem (hes e hmem) hσ hplaced)
  | call f primes u ih =>
    exact apart_call.2 (ih (apart_call.1 he) hσ hplaced)
  | derivative body name ih =>
    exact apart_derivative.2 (ih (apart_derivative.1 he) (forall_mem_without hσ name)
      (forall_mem_without hplaced name))
  | derivativeAt body name point ihbody ihpoint =>
    obtain ⟨hroot, hparts⟩ := forall_mem_nodes.1 he
    obtain ⟨hbody, hpoint⟩ := forall_mem_pair.1 hparts
    refine (forall_mem_nodes_pair hroot rfl).2 ⟨?_, ihpoint hpoint hσ hplaced⟩
    exact ihbody hbody (forall_mem_without hσ name) (forall_mem_without hplaced name)
  | invalid issue => exact he
  | invalidPart issue part _ => exact he

/-- Indices stay apart from the names where points are put in place. -/
theorem inherited_apart (V : List String) : Derivative.Inherited fun _ : Unit => Apart V where
  closed _ := closed_apart V
  var _ name := (forall_mem_nodes_of_root ⟨trivial, trivial⟩).2 (List.forall_mem_nil _)
  argument := apart_call.1
  body := apart_derivative.1
  point {_ body point name} he := by
    obtain ⟨⟨-, hname⟩, hparts⟩ := forall_mem_nodes.1 he
    obtain ⟨hbody, hpoint⟩ := forall_mem_pair.1 hparts
    refine ⟨(), hbody, fun first hfirst => ?_⟩
    exact Apart.substitute hfirst (List.forall_mem_singleton.2 hname)
      (List.forall_mem_singleton.2 hpoint)

/-- The variable of an operator with a point. -/
def pointVariable? : Expr → Option String
  | derivativeAt _ name _ => some name
  | _ => none

/-- The variables of the operators with a point in the expression. -/
def pointVariables (e : Expr) : List String := e.nodes.filterMap pointVariable?

/-- The index of an element. -/
def index? : Expr → Option Expr
  | element _ index => some index
  | _ => none

/-- No index mentions the variable of an operator with a point. -/
def Separate (e : Expr) : Prop :=
  ∀ node ∈ e.nodes, ∀ index ∈ node.index?, index.Avoids e.pointVariables

instance (e : Expr) : Decidable e.Separate :=
  inferInstanceAs (Decidable (∀ node ∈ e.nodes, ∀ index ∈ node.index?, index.Avoids _))

/-- In an indexed expression that is separate, a point gets into no index. -/
theorem apart_of_separate (he : e.Indexed) (h : e.Separate) : e.Apart e.pointVariables := by
  intro node hnode
  refine ⟨he node hnode, ?_⟩
  cases node with
  | element sequence index => exact h _ hnode index rfl
  | derivativeAt body name point => exact List.mem_filterMap.2 ⟨_, hnode, rfl⟩
  | _ => trivial

theorem indexed_differentiate (he : e.Indexed) (h : e.Separate) (x : String) (known : Scope) :
    (e.differentiate x known).Indexed := by
  have hapart := apart_of_separate he h
  have hoperator : (derivative e x).Apart e.pointVariables := apart_derivative.2 hapart
  exact Apart.indexed ((inherited_apart _).differentiate (i := ()) hapart known hoperator)

end

/-! ## All operations -/

/-- What is read without an issue is indexed. Flattening and folding keep it so, and so does
differentiation as long as no index mentions a variable that a point replaces. After a substitution
the expression is indexed exactly if each index is one. -/
theorem indexed_of_operations {e : Expr} (he : e.Indexed) (settings : Reading.Settings)
    (scope : Scope) (source : String) (o : Options) (x : String) (known : Scope)
    {σ : Substitutions} (hσ : ∀ entry ∈ σ, (entry.2.toExpr scope).Indexed) :
    ((Reading.read settings scope source).hasIssue = false →
        (Reading.read settings scope source).Indexed) ∧
      e.flatten.Indexed ∧ (e.fold o).Indexed ∧
      (e.Separate → (e.differentiate x known).Indexed) ∧
      ((e.substitute scope σ).Indexed ↔
        ∀ entry ∈ e.indices σ, (entry.2.substitute scope entry.1).IsIndex) := by
  have hstands := standsAt_outside_iff.2 he
  refine ⟨Reading.indexed_read settings scope source, standsAt_outside_iff.1 hstands.flattened.whole,
    standsAt_outside_iff.1 (hstands.fold o), fun h => indexed_differentiate he h x known, ?_⟩
  rw [← standsAt_outside_iff]
  exact standsAt_substitute_iff hstands fun entry hentry => standsAt_outside_iff.2 (hσ entry hentry)

/-- The index `k+1` takes one name in the place of another, and the operator has the variable `y`. -/
theorem indexed_of_operations_shifted :
    ∃ (e : Expr) (σ : Substitutions), e = ofText "D(y^2*x,y,a[k+1])-(x-a[k+1])" ∧
      σ = [("k", .text "2*j"), ("x", .text "a[k]")] ∧ e.hasIssue = false ∧
      e.flatten.Indexed ∧ (e.fold {}).Indexed ∧ (e.differentiate "x" []).Indexed ∧
      (e.substitute [] σ).Indexed := by
  refine ⟨_, _, rfl, rfl, by decide +kernel, ?_⟩
  have hissue : (ofText "D(y^2*x,y,a[k+1])-(x-a[k+1])").hasIssue = false := by decide +kernel
  have hσ : ∀ entry ∈ ([("k", .text "2*j"), ("x", .text "a[k]")] : Substitutions),
      (entry.2.toExpr []).Indexed := by decide +kernel
  obtain ⟨-, hflatten, hfold, hdifferentiate, hsubstitute⟩ :=
    indexed_of_operations (Reading.indexed_read {} [] _ hissue) {} [] "" {} "x" [] hσ
  exact ⟨hflatten, hfold, hdifferentiate (by decide +kernel), hsubstitute.2 (by decide +kernel)⟩

/-- A sum in the place of `k`, and the point `x+y` in the place of the variable of its operator: both
get into the index. -/
theorem substitute_of_index :
    (ofText "a[k]").Indexed ∧ (ofText "x+y").Indexed ∧
      (ofText "a[k]").substitute [] [("k", .expr (ofText "x+y"))] = element "a" (ofText "x+y") ∧
      ¬ (element "a" (ofText "x+y")).Indexed ∧
      (ofText "D(a[k]*k^2,k,x+y)").Indexed ∧
      ¬ ((ofText "D(a[k]*k^2,k,x+y)").differentiate "x" []).Indexed := by
  decide +kernel

end Formulary.Expr
