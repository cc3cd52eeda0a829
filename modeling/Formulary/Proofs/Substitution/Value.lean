import Formulary.Proofs.Folding.Value
import Formulary.Substitution

/-!
# The value of a substitution

Putting expressions in the place of names gives an expression whose value is that of the old one
with these names standing for the values of what is put in place. On the way two literals may become
one. `Expr.overflows` says that this happens to two fractions whose result has a value but becomes a
double, and it is all that can go wrong.

A result without doubles shows that nothing overflowed: an operation on a double is a double again,
so one that was formed on the way would still be there.
-/

namespace Formulary

open Exact

/-- What is found under a name is an entry. -/
theorem mem_of_lookup_eq_some {α : Type} {entries : List (String × α)} {name : String} {a : α}
    (h : entries.lookup name = some a) : (name, a) ∈ entries := by
  obtain ⟨before, after, rfl, -⟩ := List.lookup_eq_some_iff.1 h
  exact List.mem_append_right before List.mem_cons_self

namespace Substitution

theorem forall_mem_without {σ : Substitutions} {p : String × Substitution → Prop}
    (hσ : ∀ entry ∈ σ, p entry) (name : String) : ∀ entry ∈ without σ name, p entry :=
  fun entry hentry => hσ entry (List.mem_of_mem_filter hentry)

/-- What is put in the place of a name is one of the expressions to put in place. -/
theorem of_lookup {P : Expr → Prop} {scope : Scope} {σ : Substitutions} {name : String}
    {s : Substitution} (hσ : ∀ entry ∈ σ, P (entry.2.toExpr scope)) (h : σ.lookup name = some s) :
    P (s.toExpr scope) :=
  hσ (name, s) (mem_of_lookup_eq_some h)

variable {I : Interpretation} {ρ : Assignment} {op : BinaryOp} {u v w : Expr}

/-- What the names stand for once those of a substitution have the values of what is put in their
place. -/
def assigned (I : Interpretation) (scope : Scope) (σ : Substitutions) (ρ : Assignment) :
    Assignment :=
  fun name =>
    match σ.lookup name with
    | some s => value I (s.toExpr scope) ρ
    | none => ρ name

/-! ## Two literals that become one -/

theorem literals?_eq_some (h : literals? op u v = some w) :
    ∃ m n k, u = .number m ∧ v = .number n ∧ w = .number k ∧ op ≠ .pow ∧
      Folding.onNumbers? op m n = some k := by
  unfold literals? at h
  split at h
  · exact ⟨_, _, _, rfl, rfl, (Option.some.inj h).symm, by decide, rfl⟩
  · exact ⟨_, _, _, rfl, rfl, (Option.some.inj h).symm, by decide, rfl⟩
  · exact ⟨_, _, _, rfl, rfl, (Option.some.inj h).symm, by decide, rfl⟩
  · exact ⟨_, _, _, rfl, rfl, (Option.some.inj h).symm, by decide, rfl⟩
  · cases h

/-- An operation on a double is a double. -/
theorem isExact_of_onNumbers? {m n k : Number} (hop : op ≠ .pow)
    (h : Folding.onNumbers? op m n = some k) (hk : k.isExact = true) :
    m.isExact = true ∧ n.isExact = true := by
  cases op with
  | add => exact Number.isExact_of_add ((congrArg _ (Option.some.inj h)).trans hk)
  | sub => exact Number.isExact_of_sub ((congrArg _ (Option.some.inj h)).trans hk)
  | mul => exact Number.isExact_of_mul ((congrArg _ (Option.some.inj h)).trans hk)
  | div => exact Number.isExact_of_div ((congrArg _ (Option.some.inj h)).trans hk)
  | pow => exact absurd rfl hop
  | eq | and | or => cases h

/-- An operation on two numbers that is exact has a value. -/
theorem binary_of_onNumbers? {p r s : ℚ} (hop : op ≠ .pow)
    (h : Folding.onNumbers? op (.exact p) (.exact r) = some (.exact s)) :
    Exact.binary op p r = some s := by
  cases hq : Exact.binary op p r with
  | some q =>
    have hs := Folding.onNumbers?_eq_exact h rfl (fun hpow => absurd hpow hop) hq
    rw [Number.exact.inj hs]
  | none =>
    cases op with
    | div =>
      have hr := (Number.div_eq_exact (r := p) (s := r) (by rw [Option.some.inj h]; rfl)).1
      simp [Exact.binary, quotient, hr] at hq
    | pow => exact absurd rfl hop
    | _ => cases hq

/-- The expressions are two fractions that become a double although the operation has a value. -/
def overflow (op : BinaryOp) (lhs rhs : Expr) : Bool :=
  match literals? op lhs rhs, lhs, rhs with
  | some (.number (.real _)), .number (.exact p), .number (.exact r) =>
    (Exact.binary op p r).isSome
  | _, _, _ => false

/-- Two fractions that become a double without an overflow have no value. -/
theorem binary_eq_none {p r : ℚ} {v : Float}
    (hw : literals? op (.number (.exact p)) (.number (.exact r)) = some (.number (.real v)))
    (h : overflow op (.number (.exact p)) (.number (.exact r)) = false) :
    Exact.binary op p r = none := by
  simp only [overflow, hw] at h
  exact Option.not_isSome_iff_eq_none.1 (Bool.eq_false_iff.1 h)

/-- Putting literals together keeps the value unless it overflows. -/
theorem value_binary (h : overflow op u v = false) :
    value I (binary op u v) ρ = value I (.binary op u v) ρ := by
  unfold binary
  cases hw : literals? op u v with
  | none => rfl
  | some w =>
    obtain ⟨m, n, k, rfl, rfl, rfl, hop, hk⟩ := literals?_eq_some hw
    cases k with
    | exact s =>
      obtain ⟨hm, hn⟩ := isExact_of_onNumbers? hop hk rfl
      obtain ⟨p, rfl⟩ := Number.exact_of_isExact hm
      obtain ⟨r, rfl⟩ := Number.exact_of_isExact hn
      exact (binary_of_onNumbers? hop hk).symm
    | real z =>
      -- a double has no value, and neither has the operation that gave it
      cases m with
      | real _ => rfl
      | exact p =>
        cases n with
        | real _ => rfl
        | exact r => exact (binary_eq_none hw h).symm

theorem value_nary (op : Family) (es : List Expr) :
    value I (nary op es) ρ = value I (.nary op es) ρ := by
  match es with
  | [] => rw [nary, value, values]; exact congrArg some (family_nil op).symm
  | [e] => cases h : value I e ρ <;> simp [nary, value, values, h, family_singleton]
  | _ :: _ :: _ => rfl

end Substitution

namespace Expr

open Substitution

variable {e : Expr}

/-- No literal of the expression is a double. -/
def HasExactLiterals (e : Expr) : Prop := ∀ node ∈ e.nodes, ∀ n ∈ node.number?, n.isExact = true

instance (e : Expr) : Decidable e.HasExactLiterals :=
  inferInstanceAs (Decidable (∀ node ∈ e.nodes, ∀ n ∈ node.number?, n.isExact = true))

theorem hasExactLiterals_iff : e.HasExactLiterals ↔
    (∀ n ∈ e.number?, n.isExact = true) ∧ ∀ part ∈ e.children, part.HasExactLiterals :=
  forall_mem_nodes

theorem hasExactLiterals_number {n : Number} (h : n.isExact = true) :
    (number n).HasExactLiterals :=
  hasExactLiterals_iff.2 ⟨fun _ hm => Option.some.inj hm ▸ h, List.forall_mem_nil _⟩

theorem HasExactLiterals.of_binary {op : BinaryOp} {u v : Expr}
    (h : (Substitution.binary op u v).HasExactLiterals) :
    u.HasExactLiterals ∧ v.HasExactLiterals := by
  unfold Substitution.binary at h
  cases hw : literals? op u v with
  | some w =>
    obtain ⟨m, n, k, rfl, rfl, rfl, hop, hk⟩ := literals?_eq_some hw
    rw [hw] at h
    have hexact := isExact_of_onNumbers? hop hk (h _ (mem_nodes_self _) k rfl)
    exact ⟨hasExactLiterals_number hexact.1, hasExactLiterals_number hexact.2⟩
  | none =>
    rw [hw] at h
    exact forall_mem_pair.1 (hasExactLiterals_iff.1 h).2

theorem HasExactLiterals.of_nary {op : Family} {es : List Expr}
    (h : (Substitution.nary op es).HasExactLiterals) : ∀ e ∈ es, e.HasExactLiterals := by
  match es with
  | [] => exact List.forall_mem_nil _
  | [_] => exact List.forall_mem_singleton.2 h
  | _ :: _ :: _ => exact (hasExactLiterals_iff.1 h).2

end Expr

namespace Substitution

/-- A result without doubles was formed without an overflow. -/
theorem overflow_of_hasExactLiterals {op : BinaryOp} {u v : Expr}
    (h : (binary op u v).HasExactLiterals) : overflow op u v = false := by
  unfold binary at h
  unfold overflow
  split
  · rename_i hw
    rw [hw] at h
    cases h _ (Expr.mem_nodes_self _) _ rfl
  · rfl

end Substitution

namespace Expr

open Substitution

theorem values_congr {I J : Interpretation} {ρ τ : Assignment} {es fs : List Expr}
    (h : List.Forall₂ (fun e f => value I e ρ = value J f τ) es fs) :
    values I es ρ = values J fs τ := by
  induction h with
  | nil => rw [values, values]
  | cons he _ ih => rw [values, values, he, ih]

mutual

/-- Two fractions that come to stand next to each other overflow. -/
def overflows (scope : Scope) (σ : Substitutions) : Expr → Bool
  | number _ | var _ | invalid _ | invalidPart _ _ => false
  | element _ index => index.overflows scope σ
  | unary _ operand => operand.overflows scope σ
  | binary op lhs rhs =>
    lhs.overflows scope σ || rhs.overflows scope σ ||
      overflow op (lhs.substitute scope σ) (rhs.substitute scope σ)
  | nary _ operands => overflowsList scope σ operands
  | call _ _ argument => argument.overflows scope σ
  | derivative body name => body.overflows scope (without σ name)
  | derivativeAt body name point =>
    body.overflows scope (without σ name) || point.overflows scope σ

/-- Two fractions that come to stand next to each other in one of the expressions overflow. -/
def overflowsList (scope : Scope) (σ : Substitutions) : List Expr → Bool
  | [] => false
  | e :: es => e.overflows scope σ || overflowsList scope σ es

end

theorem overflowsList_eq_any (scope : Scope) (σ : Substitutions) (es : List Expr) :
    overflowsList scope σ es = es.any (overflows scope σ) := by
  induction es with
  | nil => rfl
  | cons e es ih => rw [overflowsList, ih, List.any_cons]

/-- The value after a substitution without overflows is the value under what the names stand for
then. -/
theorem value_substitute_of_overflows (F : FunctionValues) {scope : Scope} {σ : Substitutions}
    (ρ : Assignment) {e : Expr} (h : e.overflows scope σ = false) :
    value F.interpretation (e.substitute scope σ) ρ =
      value F.interpretation e (assigned F.interpretation scope σ ρ) := by
  induction e using Expr.induction with
  | number n => rfl
  | var name =>
    rw [substitute, value, assigned]
    cases σ.lookup name with
    | some s => rfl
    | none => rfl
  | unary op u ih => rw [substitute, value, value, ih h]
  | binary op u v ihu ihv =>
    simp only [overflows, Bool.or_eq_false_iff] at h
    obtain ⟨⟨hu, hv⟩, huv⟩ := h
    rw [substitute, Substitution.value_binary huv, value, value, ihu hu, ihv hv]
  | nary op es ih =>
    rw [overflows, overflowsList_eq_any, List.any_eq_false] at h
    rw [substitute, Substitution.value_nary, substituteList_eq_map, value, value]
    refine congrArg (· >>= _) (values_congr ?_)
    refine List.forall₂_map_left_iff.2 (List.forall₂_same.2 fun e he => ?_)
    exact ih e he (Bool.eq_false_iff.2 (h e he))
  | call f primes u ih => rw [substitute, value, value, ih h]
  | element sequence index _ =>
    simp [substitute, value, FunctionValues.interpretation]
  | derivative body name _ => rfl
  | derivativeAt body name point _ _ =>
    simp [substitute, value, FunctionValues.interpretation]
  | invalid issue => rfl
  | invalidPart issue part _ => rfl

/-- Where no double appears, nothing overflowed. The induction goes below the derivative operators,
where their variables are not replaced. -/
theorem overflows_of_hasExactLiterals {scope : Scope} {σ : Substitutions} {e : Expr}
    (h : (e.substitute scope σ).HasExactLiterals) : e.overflows scope σ = false := by
  induction e using Expr.induction generalizing σ with
  | number n => rfl
  | var name => rfl
  | element sequence index ih =>
    exact ih ((hasExactLiterals_iff.1 h).2 _ List.mem_cons_self)
  | unary op u ih => exact ih ((hasExactLiterals_iff.1 h).2 _ List.mem_cons_self)
  | binary op u v ihu ihv =>
    obtain ⟨hu, hv⟩ := HasExactLiterals.of_binary h
    rw [overflows, ihu hu, ihv hv, overflow_of_hasExactLiterals h]
    rfl
  | nary op es ih =>
    have hall := HasExactLiterals.of_nary h
    rw [substituteList_eq_map, List.forall_mem_map] at hall
    rw [overflows, overflowsList_eq_any, List.any_eq_false]
    exact fun e he => Bool.eq_false_iff.1 (ih e he (hall e he))
  | call f primes u ih => exact ih ((hasExactLiterals_iff.1 h).2 _ List.mem_cons_self)
  | derivative body name ih => exact ih ((hasExactLiterals_iff.1 h).2 _ List.mem_cons_self)
  | derivativeAt body name point ihbody ihpoint =>
    obtain ⟨hbody, hpoint⟩ := forall_mem_pair.1 (hasExactLiterals_iff.1 h).2
    rw [overflows, ihbody hbody, ihpoint hpoint]
    rfl
  | invalid issue => rfl
  | invalidPart issue part _ => rfl

/-- The value after a substitution is the value under what the names stand for then. -/
theorem value_substitute (F : FunctionValues) (scope : Scope) (σ : Substitutions) (ρ : Assignment)
    (e : Expr) (hexact : (e.substitute scope σ).HasExactLiterals) :
    value F.interpretation (e.substitute scope σ) ρ =
      value F.interpretation e (assigned F.interpretation scope σ ρ) :=
  value_substitute_of_overflows F ρ (overflows_of_hasExactLiterals hexact)

end Expr

end Formulary
