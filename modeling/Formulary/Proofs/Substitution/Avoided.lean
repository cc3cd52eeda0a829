import Formulary.Expr.Equality
import Formulary.Proofs.Expr.Operations

/-!
# Names that are not mentioned

Putting something in the place of names that an expression does not mention changes nothing but
literals that stand next to each other, and that happens whatever is put in place.
-/

namespace Formulary.Expr

open Substitution (without forall_mem_without)

variable {V : List String} {e : Expr} {scope : Scope} {σ : Substitutions}

/-- The expression mentions none of the names, whether they are free in it or not. -/
def Avoids (V : List String) (e : Expr) : Prop := ∀ node ∈ e.nodes, ∀ name ∈ V, node ≠ var name

instance (V : List String) (e : Expr) : Decidable (e.Avoids V) :=
  inferInstanceAs (Decidable (∀ node ∈ e.nodes, ∀ name ∈ V, node ≠ var name))

theorem ne_var_of_var? (h : e.var? = none) : ∀ name ∈ V, e ≠ var name := by
  rintro name - rfl
  cases h

theorem structural_avoids (V : List String) : Structural (Avoids V) :=
  structural_of_nodes (ne_var_of_var? rfl) (ne_var_of_var? rfl) (fun _ _ => ne_var_of_var? rfl)
    (fun _ _ _ => ne_var_of_var? rfl) fun _ _ => ne_var_of_var? rfl

theorem avoids_number (n : Number) : (number n).Avoids V :=
  (forall_mem_nodes_of_root (ne_var_of_var? rfl)).2 (List.forall_mem_nil _)

theorem avoids_of_single {part : Expr} (h : e.var? = none) (hchildren : e.children = [part]) :
    e.Avoids V ↔ part.Avoids V :=
  forall_mem_nodes_single (ne_var_of_var? h) hchildren

theorem avoids_of_pair {u v : Expr} (h : e.var? = none) (hchildren : e.children = [u, v]) :
    e.Avoids V ↔ u.Avoids V ∧ v.Avoids V :=
  forall_mem_nodes_pair (ne_var_of_var? h) hchildren

theorem Avoids.subset {W : List String} (h : e.Avoids V) (hsub : W ⊆ V) : e.Avoids W :=
  fun node hnode name hname => h node hnode name (hsub hname)

theorem lookup_eq_none_of_avoids {name : String} (haway : (var name).Avoids V)
    (hσ : ∀ entry ∈ σ, entry.1 ∈ V) : σ.lookup name = none := by
  refine List.lookup_eq_none_iff.2 fun entry hentry => ?_
  rw [bne_iff_ne]
  rintro rfl
  exact haway _ (mem_nodes_self _) _ (hσ entry hentry) rfl

/-- What is put in the place of names that are not mentioned makes no difference. -/
theorem substitute_of_avoids (haway : e.Avoids V) (hσ : ∀ entry ∈ σ, entry.1 ∈ V) :
    e.substitute scope σ = e.substitute scope [] := by
  induction e using Expr.induction generalizing σ with
  | number n => rfl
  | var name => rw [substitute, substitute, lookup_eq_none_of_avoids haway hσ, List.lookup_nil]
  | element sequence index ih =>
    rw [substitute, substitute, ih ((avoids_of_single rfl rfl).1 haway) hσ]
  | unary op u ih => rw [substitute, substitute, ih ((avoids_of_single rfl rfl).1 haway) hσ]
  | binary op u v ihu ihv =>
    obtain ⟨hu, hv⟩ := (avoids_of_pair rfl rfl).1 haway
    rw [substitute, substitute, ihu hu hσ, ihv hv hσ]
  | nary op es ih =>
    have hes := ((structural_avoids V).nary op es).1 haway
    rw [substitute, substitute, substituteList_eq_map, substituteList_eq_map]
    exact congrArg _ (List.map_congr_left fun e he => ih e he (hes e he) hσ)
  | call f primes u ih => rw [substitute, substitute, ih ((avoids_of_single rfl rfl).1 haway) hσ]
  | derivative body name ih =>
    have hbody := ih ((avoids_of_single rfl rfl).1 haway) (forall_mem_without hσ name)
    rw [substitute, substitute, hbody]
    rfl
  | derivativeAt body name point ihbody ihpoint =>
    obtain ⟨hbody, hpoint⟩ := (avoids_of_pair rfl rfl).1 haway
    rw [substitute, substitute, ihbody hbody (forall_mem_without hσ name), ihpoint hpoint hσ]
    rfl
  | invalid issue => rfl
  | invalidPart issue part _ => rfl

/-- Nothing is mentioned afterwards that was not mentioned before or in what is put in place. -/
theorem Avoids.substitute (he : e.Avoids V) (hσ : ∀ entry ∈ σ, (entry.2.toExpr scope).Avoids V) :
    (e.substitute scope σ).Avoids V := by
  have hstructural := structural_avoids V
  induction e using Expr.induction generalizing σ with
  | number n => exact he
  | var name =>
    rw [Expr.substitute]
    cases hlookup : σ.lookup name with
    | none => exact he
    | some s => exact Substitution.of_lookup hσ hlookup
  | element sequence index ih =>
    exact (avoids_of_single rfl rfl).2 (ih ((avoids_of_single rfl rfl).1 he) hσ)
  | unary op u ih => exact (avoids_of_single rfl rfl).2 (ih ((avoids_of_single rfl rfl).1 he) hσ)
  | binary op u v ihu ihv =>
    obtain ⟨hu, hv⟩ := (avoids_of_pair rfl rfl).1 he
    exact (Substitution.binary_iff hstructural avoids_number op).2 ⟨ihu hu hσ, ihv hv hσ⟩
  | nary op es ih =>
    have hes := (hstructural.nary op es).1 he
    rw [Expr.substitute, substituteList_eq_map]
    exact (Substitution.nary_iff hstructural op).2
      (List.forall_mem_map.2 fun e hmem => ih e hmem (hes e hmem) hσ)
  | call f primes u ih => exact (avoids_of_single rfl rfl).2 (ih ((avoids_of_single rfl rfl).1 he) hσ)
  | derivative body name ih =>
    exact (avoids_of_single rfl rfl).2
      (ih ((avoids_of_single rfl rfl).1 he) (forall_mem_without hσ name))
  | derivativeAt body name point ihbody ihpoint =>
    obtain ⟨hbody, hpoint⟩ := (avoids_of_pair rfl rfl).1 he
    exact (avoids_of_pair rfl rfl).2 ⟨ihbody hbody (forall_mem_without hσ name), ihpoint hpoint hσ⟩
  | invalid issue => exact he
  | invalidPart issue part _ => exact he

end Formulary.Expr
