import Formulary.Proofs.Double.Sign
import Formulary.Proofs.Substitution.Value

/-!
# The literals of a substitution

A literal is unrounded if it is a fraction or stands for an undefined result. What is undefined
stays so in every operation, and two fractions that become a double without an overflow had a zero
divisor. So a substitution without overflows keeps all literals unrounded: a literal that is
not a fraction has no value because it is undefined, not because a value was rounded away.
-/

namespace Formulary

/-- The number is a fraction or stands for an undefined result. -/
def Number.Unrounded (n : Number) : Prop := n.isExact = true ∨ n = undefined

instance (n : Number) : Decidable n.Unrounded := inferInstanceAs (Decidable (_ ∨ _))

namespace Number

variable {m n : Number}

theorem add_undefined (h : m = undefined ∨ n = undefined) : m + n = undefined := by
  have hreal : m + n = real (m.value + n.value) := by
    obtain rfl | rfl := h
    · rfl
    · cases m <;> rfl
  rw [hreal]
  exact congrArg real (Double.add_nan (h.imp (congrArg value) (congrArg value)))

theorem sub_undefined (h : m = undefined ∨ n = undefined) : m - n = undefined := by
  have hreal : m - n = real (m.value - n.value) := by
    obtain rfl | rfl := h
    · rfl
    · cases m <;> rfl
  rw [hreal]
  exact congrArg real (Double.sub_nan (h.imp (congrArg value) (congrArg value)))

theorem mul_undefined (h : m = undefined ∨ n = undefined) : m * n = undefined := by
  have hreal : m * n = real (m.value * n.value) := by
    obtain rfl | rfl := h
    · rfl
    · cases m <;> rfl
  rw [hreal]
  exact congrArg real (Double.mul_nan (h.imp (congrArg value) (congrArg value)))

theorem div_undefined (h : m = undefined ∨ n = undefined) : m / n = undefined := by
  change div m n = undefined
  unfold div
  split
  · rfl
  · have hquotient := Double.div_nan (h.imp (congrArg value) (congrArg value))
    obtain rfl | rfl := h
    · exact congrArg real hquotient
    · cases m <;> exact congrArg real hquotient

end Number

namespace Substitution

variable {op : BinaryOp} {u v : Expr} {m n k : Number}

theorem onNumbers?_undefined (hop : op ≠ .pow) (h : Folding.onNumbers? op m n = some k)
    (hmn : m = .undefined ∨ n = .undefined) : k = .undefined := by
  cases op with
  | add => exact (Option.some.inj h).symm.trans (Number.add_undefined hmn)
  | sub => exact (Option.some.inj h).symm.trans (Number.sub_undefined hmn)
  | mul => exact (Option.some.inj h).symm.trans (Number.mul_undefined hmn)
  | div => exact (Option.some.inj h).symm.trans (Number.div_undefined hmn)
  | pow => exact absurd rfl hop
  | eq | and | or => cases h

/-- Two fractions have no quotient only if the divisor is zero. -/
theorem onNumbers?_of_binary_eq_none {p r : ℚ} (hop : op ≠ .pow)
    (h : Folding.onNumbers? op (.exact p) (.exact r) = some k)
    (hnone : Exact.binary op p r = none) : k = .undefined := by
  cases op with
  | div =>
    have hr : r = 0 := by
      by_contra hr
      rw [Exact.binary, Exact.quotient, if_neg hr] at hnone
      cases hnone
    subst hr
    obtain rfl := Option.some.inj h
    have hzero : (Number.exact 0).isZero = true := Number.isZero_zero
    change Number.div (.exact p) (.exact 0) = .undefined
    rw [Number.div, if_pos hzero]
  | pow => exact absurd rfl hop
  | add | sub | mul | eq | and | or => cases hnone

end Substitution

namespace Expr

open Exact Substitution

variable {e : Expr}

/-- Every literal of the expression is a fraction or stands for an undefined result. -/
def HasUnroundedLiterals (e : Expr) : Prop := ∀ node ∈ e.nodes, ∀ n ∈ node.number?, n.Unrounded

instance (e : Expr) : Decidable e.HasUnroundedLiterals :=
  inferInstanceAs (Decidable (∀ node ∈ e.nodes, ∀ n ∈ node.number?, n.Unrounded))

theorem hasUnroundedLiterals_iff : e.HasUnroundedLiterals ↔
    (∀ n ∈ e.number?, n.Unrounded) ∧ ∀ part ∈ e.children, part.HasUnroundedLiterals :=
  forall_mem_nodes

theorem hasUnroundedLiterals_number {n : Number} :
    (number n).HasUnroundedLiterals ↔ n.Unrounded := by
  rw [hasUnroundedLiterals_iff]
  simp [number?, children]

theorem HasUnroundedLiterals.of_child {part : Expr} (h : e.HasUnroundedLiterals)
    (hpart : part ∈ e.children) : part.HasUnroundedLiterals :=
  (hasUnroundedLiterals_iff.1 h).2 part hpart

/-- An expression that is not a literal is as unrounded as its parts. -/
theorem hasUnroundedLiterals_of_children (h : e.number? = none)
    (hparts : ∀ part ∈ e.children, part.HasUnroundedLiterals) : e.HasUnroundedLiterals :=
  hasUnroundedLiterals_iff.2 ⟨by simp [h], hparts⟩

/-- An operation that does not overflow rounds no literal. -/
theorem hasUnroundedLiterals_binary {op : BinaryOp} {u v : Expr} (h : overflow op u v = false)
    (hu : u.HasUnroundedLiterals) (hv : v.HasUnroundedLiterals) :
    (Substitution.binary op u v).HasUnroundedLiterals := by
  unfold Substitution.binary
  cases hw : literals? op u v with
  | none => exact hasUnroundedLiterals_of_children rfl (forall_mem_pair.2 ⟨hu, hv⟩)
  | some w =>
    obtain ⟨m, n, k, rfl, rfl, rfl, hop, hk⟩ := literals?_eq_some hw
    refine hasUnroundedLiterals_number.2 ?_
    cases k with
    | exact s => exact .inl rfl
    | real z =>
      refine .inr ?_
      obtain hm | hm := hasUnroundedLiterals_number.1 hu
      · obtain hn | hn := hasUnroundedLiterals_number.1 hv
        · obtain ⟨p, rfl⟩ := Number.exact_of_isExact hm
          obtain ⟨r, rfl⟩ := Number.exact_of_isExact hn
          exact onNumbers?_of_binary_eq_none hop hk (binary_eq_none hw h)
        · exact onNumbers?_undefined hop hk (.inr hn)
      · exact onNumbers?_undefined hop hk (.inl hm)

theorem hasUnroundedLiterals_nary {op : Family} {es : List Expr}
    (h : ∀ e ∈ es, e.HasUnroundedLiterals) : (Substitution.nary op es).HasUnroundedLiterals := by
  match es with
  | [] => exact hasUnroundedLiterals_number.2 (.inl rfl)
  | [e] => exact h e List.mem_cons_self
  | _ :: _ :: _ => exact hasUnroundedLiterals_of_children rfl h

/-- Without overflows a substitution puts no rounded literal together. The induction goes below the
derivative operators, where the substitutions without those for their variables remain. -/
theorem HasUnroundedLiterals.substitute {scope : Scope} {σ : Substitutions}
    (he : e.HasUnroundedLiterals)
    (hσ : ∀ entry ∈ σ, (entry.2.toExpr scope).HasUnroundedLiterals)
    (h : e.overflows scope σ = false) : (e.substitute scope σ).HasUnroundedLiterals := by
  induction e using Expr.induction generalizing σ with
  | number n => exact he
  | var name =>
    rw [Expr.substitute]
    cases hlookup : σ.lookup name with
    | none => exact he
    | some s => exact of_lookup hσ hlookup
  | element sequence index ih =>
    have hindex := ih (he.of_child List.mem_cons_self) hσ h
    exact hasUnroundedLiterals_of_children rfl (List.forall_mem_singleton.2 hindex)
  | unary op u ih =>
    have hu := ih (he.of_child List.mem_cons_self) hσ h
    exact hasUnroundedLiterals_of_children rfl (List.forall_mem_singleton.2 hu)
  | binary op u v ihu ihv =>
    simp only [overflows, Bool.or_eq_false_iff] at h
    obtain ⟨hu, hv⟩ := forall_mem_pair.1 (hasUnroundedLiterals_iff.1 he).2
    exact hasUnroundedLiterals_binary h.2 (ihu hu hσ h.1.1) (ihv hv hσ h.1.2)
  | nary op es ih =>
    rw [overflows, overflowsList_eq_any, List.any_eq_false] at h
    rw [Expr.substitute, substituteList_eq_map]
    refine hasUnroundedLiterals_nary (List.forall_mem_map.2 fun e he' => ?_)
    exact ih e he' (he.of_child he') hσ (Bool.eq_false_iff.2 (h e he'))
  | call f primes u ih =>
    have hu := ih (he.of_child List.mem_cons_self) hσ h
    exact hasUnroundedLiterals_of_children rfl (List.forall_mem_singleton.2 hu)
  | derivative body name ih =>
    have hbody := ih (he.of_child List.mem_cons_self) (forall_mem_without hσ name) h
    exact hasUnroundedLiterals_of_children rfl (List.forall_mem_singleton.2 hbody)
  | derivativeAt body name point ihbody ihpoint =>
    simp only [overflows, Bool.or_eq_false_iff] at h
    obtain ⟨hbody, hpoint⟩ := forall_mem_pair.1 (hasUnroundedLiterals_iff.1 he).2
    exact hasUnroundedLiterals_of_children rfl (forall_mem_pair.2
      ⟨ihbody hbody (forall_mem_without hσ name) h.1, ihpoint hpoint hσ h.2⟩)
  | invalid issue => exact he
  | invalidPart issue part _ => exact he

/-- Substituting all names at once is giving them the values of what is put in their place. -/
theorem value_substitute_of_unrounded (F : FunctionValues) (scope : Scope) (σ : Substitutions)
    (ρ : Assignment) (e : Expr) (he : e.HasUnroundedLiterals)
    (hσ : ∀ entry ∈ σ, (entry.2.toExpr scope).HasUnroundedLiterals)
    (h : e.overflows scope σ = false) :
    value F.interpretation (e.substitute scope σ) ρ =
        value F.interpretation e (assigned F.interpretation scope σ ρ) ∧
      (e.substitute scope σ).HasUnroundedLiterals :=
  ⟨value_substitute_of_overflows F ρ h, he.substitute hσ h⟩

/-- The names of `x*a+f(y-a/3)` change places while `a/3` becomes a literal. -/
theorem value_substitute_exchanged :
    ∃ (e : Expr) (σ : Substitutions) (F : FunctionValues) (ρ : Assignment),
      e = binary .add (binary .mul (var "x") (var "a"))
        (call "f" 0 (binary .sub (var "y") (binary .div (var "a") (ofInt 3)))) ∧
      σ = [("x", .expr (var "y")), ("y", .expr (var "x")), ("a", .expr (ofInt 2))] ∧
      e.HasUnroundedLiterals ∧ (∀ entry ∈ σ, (entry.2.toExpr []).HasUnroundedLiterals) ∧
      e.overflows [] σ = false ∧
      value F.interpretation e (assigned F.interpretation [] σ ρ) = some (16 / 3) ∧
      value F.interpretation (e.substitute [] σ) ρ =
        value F.interpretation e (assigned F.interpretation [] σ ρ) ∧
      (e.substitute [] σ).HasUnroundedLiterals := by
  refine ⟨_, _, fun _ _ q => some (q + 1), fun name => if name = "x" then some 1 else some 2, rfl,
    rfl, ?literals, ?placed, ?overflows, ?value,
    value_substitute_of_unrounded _ [] _ _ _ ?literals ?placed ?overflows⟩
  case literals => decide +kernel
  case placed => decide +kernel
  case overflows => decide +kernel
  case value =>
    simp [value, assigned, Exact.binary, quotient, literal, ofInt, Number.ofInt, toExpr,
      FunctionValues.interpretation, List.lookup_cons]
    norm_num

end Expr

end Formulary
