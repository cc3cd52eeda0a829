import Formulary.Proofs.Expr.Parts
import Formulary.Proofs.Matching.Value
import Formulary.Rule.Reduction

/-!
# Reduction keeps the value

A rule is sound if its replacement has the value of its pattern wherever the pattern has one. A
sound rule that is applied keeps the value of the expression, as long as the pattern can be told
from the texts that its wildcards stand for (`Matching.Faithful`). So do all rules that are applied
one after another, and so does reduction on the whole, since it only folds, reduces parts and
applies rules.

The conditions are on what happens while an expression is reduced: `Expr.foldedParts` are the
expressions that are folded, and `Expr.rewrites` those that a rule is applied to, with what the rule
makes of them. The steps that reduction reports are these rewrites (`Expr.reduce_steps`).
-/

namespace Formulary

open Exact Matching

variable {F : FunctionValues} {ρ : Assignment} {e : Expr} {q : ℚ}

/-! ## Rules -/

namespace Rule

/-- The replacement has the value of the pattern wherever the pattern has one. -/
def Sound (F : FunctionValues) (r : Rule) : Prop :=
  ∀ τ q, value F.interpretation r.pattern τ = some q →
    value F.interpretation r.replacement τ = some q

theorem images_of_closed {r : Rule} {σ : Images} (h : (r.offerFor σ).placeholders = 0) :
    (r.offerFor σ).images = σ := by
  have hnone : r.openNames σ = [] := List.length_eq_zero_iff.1 h
  simp [offerFor, hnone, placeholdersFrom]

end Rule

namespace Reduction

/-- The meaning of the rule can be told from its texts, and what it makes of the expression is
exact. -/
structure Faithful (F : FunctionValues) (ρ : Assignment) (e : Expr) (offer : Offer) : Prop where
  matching : Matching.Faithful F ρ offer.images offer.rule.pattern e
  exact : offer.result.HasExactLiterals

instance (F : FunctionValues) (ρ : Assignment) (e : Expr) (offer : Offer) :
    Decidable (Faithful F ρ e offer) :=
  decidable_of_iff (Matching.Faithful F ρ offer.images offer.rule.pattern e ∧
    offer.result.HasExactLiterals) ⟨fun h => ⟨h.1, h.2⟩, fun h => ⟨h.1, h.2⟩⟩

/-- An offer of a sound rule has the value of the expression. -/
theorem value_offer {r : Rule} {offer : Offer} (hoffer : r.offer? e = some offer)
    (hclosed : offer.placeholders = 0) (hsound : r.Sound F) (hfaithful : Faithful F ρ e offer)
    (he : value F.interpretation e ρ = some q) :
    value F.interpretation offer.result ρ = some q := by
  obtain ⟨σ, hmatches, rfl⟩ := Option.map_eq_some_iff.1 hoffer
  have hmatching := hfaithful.matching
  have hexact := hfaithful.exact
  rw [Rule.images_of_closed hclosed] at hmatching
  have himages := Rule.images_of_closed hclosed
  have hresult : (r.offerFor σ).result = r.replacement.substitute [] (substitutions σ) := by
    conv_rhs => rw [← himages]
    rfl
  rw [hresult] at hexact ⊢
  rw [Expr.value_substitute F [] _ ρ r.replacement hexact]
  exact hsound _ q (value_of_matches hmatches hmatching he)

/-! ## Rules one after another -/

/-- The expressions that a rule is applied to, with the offers that are taken. -/
def taken (c : Catalog) : (count : Nat) → Expr → List (Expr × Offer)
  | 0, _ => []
  | count + 1, e =>
    match offer? c e with
    | none => []
    | some offer => (e, offer) :: taken c count offer.result

/-- A rule that was applied, as it is reported. -/
def report (rewrite : Expr × Offer) : Step :=
  ⟨rewrite.2.rule, rewrite.1.text, rewrite.2.text⟩

variable {c : Catalog} {o : Options}

/-- The active valid rules of the catalog are sound. -/
def SoundCatalog (F : FunctionValues) (c : Catalog) : Prop :=
  ∀ r ∈ c.rules, r.applies true = true → r.Sound F

theorem offer?_eq_some {offer : Offer} (h : offer? c e = some offer) :
    offer.placeholders = 0 ∧ ∃ r ∈ c.rules, r.applies true = true ∧ r.offer? e = some offer := by
  have hclosed := List.find?_some h
  obtain ⟨r, hr, hoffer⟩ := List.mem_filterMap.1 (List.mem_of_find?_eq_some h)
  obtain ⟨hr, happlies⟩ := List.mem_filter.1 hr
  exact ⟨of_decide_eq_true hclosed, r, hr, happlies, hoffer⟩

theorem value_applyRules (hsound : SoundCatalog F c) (count : Nat)
    (hfaithful : ∀ rewrite ∈ taken c count e, Faithful F ρ rewrite.1 rewrite.2)
    (he : value F.interpretation e ρ = some q) :
    value F.interpretation (applyRules c count e).1 ρ = some q := by
  induction count generalizing e with
  | zero => exact he
  | succ count ih =>
    rw [applyRules]
    rw [taken] at hfaithful
    cases hoffer : offer? c e with
    | none => exact he
    | some offer =>
      rw [hoffer, List.forall_mem_cons] at hfaithful
      obtain ⟨hclosed, r, hr, happlies, hfrom⟩ := offer?_eq_some hoffer
      exact ih hfaithful.2 (value_offer hfrom hclosed (hsound r hr happlies) hfaithful.1 he)

/-- The steps that are reported are the rewrites that were taken. -/
theorem steps_applyRules (c : Catalog) (count : Nat) (e : Expr) :
    (applyRules c count e).2 = (taken c count e).map report := by
  induction count generalizing e with
  | zero => rfl
  | succ count ih =>
    rw [applyRules, taken]
    cases offer? c e with
    | none => rfl
    | some offer => exact congrArg _ (ih offer.result)

/-! ## Parts in their places -/

/-- An expression keeps its value if its parts keep theirs. -/
theorem value_withChildren {f : Expr → Expr}
    (hparts : ∀ part ∈ e.children, ∀ r, value F.interpretation part ρ = some r →
      value F.interpretation (f part) ρ = some r)
    (he : value F.interpretation e ρ = some q) :
    value F.interpretation (e.withChildren (e.children.map f)) ρ = some q := by
  cases e with
  | number | var => exact he
  | unary op u =>
    obtain ⟨r, hu, hq⟩ := value_unary.1 he
    exact value_unary.2 ⟨r, hparts u List.mem_cons_self r hu, hq⟩
  | binary op u v =>
    obtain ⟨r, hu, s, hv, hq⟩ := value_binary.1 he
    obtain ⟨hleft, hright⟩ := Expr.forall_mem_pair.1 hparts
    exact value_binary.2 ⟨r, hleft r hu, s, hright s hv, hq⟩
  | nary op es =>
    obtain ⟨qs, hqs, hq⟩ := value_nary.1 he
    have hvalues : Values F.interpretation ρ (es.map f) qs := by
      have hall := (List.forall₂_and_left es qs).2 ⟨hparts, hqs⟩
      exact List.forall₂_map_left_iff.2 (hall.imp fun e r h => h.1 r h.2)
    have hchildren : (Expr.nary op es).withChildren (es.map f) = .nary op (es.map f) := by
      rw [Expr.withChildren, Expr.fill_eq (List.length_map f).symm]
    exact hchildren ▸ value_nary.2 ⟨qs, hvalues, hq⟩
  | call g primes u =>
    obtain ⟨r, hu, hq⟩ := value_call.1 he
    exact value_call.2 ⟨r, hparts u List.mem_cons_self r hu, hq⟩
  | element | derivative | derivativeAt => simp [value, FunctionValues.interpretation] at he
  | invalid | invalidPart => simp [value] at he

/-! ## The whole expression -/

/-- The expressions that are folded while an expression is reduced. -/
def foldedWithin (o : Options) : (fuel : Nat) → Expr → List Expr
  | 0, _ => []
  | fuel + 1, e => e :: (e.fold o).children.flatMap (foldedWithin o fuel)

/-- The rewrites while an expression is reduced, those of its parts first. -/
def takenWithin (c : Catalog) (o : Options) : (fuel : Nat) → Expr → List (Expr × Offer)
  | 0, _ => []
  | fuel + 1, e =>
    let e := e.fold o
    e.children.flatMap (takenWithin c o fuel) ++
      taken c limit (e.withChildren (e.children.map fun part => (reduceWithin c o fuel part).1))

theorem reduceWithin_succ (c : Catalog) (o : Options) (fuel : Nat) (e : Expr) :
    (reduceWithin c o (fuel + 1) e).1 = (applyRules c limit ((e.fold o).withChildren
      ((e.fold o).children.map fun part => (reduceWithin c o fuel part).1))).1 := by
  simp only [reduceWithin, gather, List.map_map]
  rfl

/-- The induction is on the fuel: folding keeps the value, then the parts keep theirs, then the
rules keep the value of the whole. -/
theorem value_reduceWithin (hsound : SoundCatalog F c) (fuel : Nat)
    (hfolded : ∀ part ∈ foldedWithin o fuel e, part.FoldsExactly o)
    (hfaithful : ∀ rewrite ∈ takenWithin c o fuel e, Faithful F ρ rewrite.1 rewrite.2)
    (he : value F.interpretation e ρ = some q) :
    value F.interpretation (reduceWithin c o fuel e).1 ρ = some q := by
  induction fuel generalizing e q with
  | zero => exact he
  | succ fuel ih =>
    rw [foldedWithin, List.forall_mem_cons] at hfolded
    rw [takenWithin, List.forall_mem_append] at hfaithful
    rw [reduceWithin_succ]
    refine value_applyRules hsound limit hfaithful.2 (value_withChildren ?_
      (Expr.value_fold F hfolded.1 he))
    intro part hpart r hr
    exact ih (fun e he => hfolded.2 e (List.mem_flatMap.2 ⟨part, hpart, he⟩))
      (fun rewrite h => hfaithful.1 rewrite (List.mem_flatMap.2 ⟨part, hpart, h⟩)) hr

theorem steps_reduceWithin (c : Catalog) (o : Options) (fuel : Nat) (e : Expr) :
    (reduceWithin c o fuel e).2 = (takenWithin c o fuel e).map report := by
  induction fuel generalizing e with
  | zero => rfl
  | succ fuel ih =>
    rw [takenWithin, List.map_append, ← steps_applyRules, List.map_flatMap]
    simp only [reduceWithin, gather, List.map_map, List.flatMap_map, ih]
    rfl

end Reduction

namespace Expr

open Reduction

/-- The expressions that are folded while the expression is reduced. -/
def foldedParts (o : Options) (e : Expr) : List Expr := foldedWithin o (2 * e.size + 1) e

/-- The expressions that a rule is applied to while the expression is reduced, with what the rule
offers for them. -/
def rewrites (c : Catalog) (o : Options) (e : Expr) : List (Expr × Offer) :=
  takenWithin c o (2 * e.size + 1) e

/-- The steps that are reported are the rewrites. -/
theorem reduce_steps (c : Catalog) (o : Options) (e : Expr) :
    (e.reduce c o).2 = (e.rewrites c o).map report :=
  steps_reduceWithin c o _ e

/-- Wherever an expression has a value, the reduced expression has the same value: the rules are
sound, folding stays exact, and the rules that are applied are told from their texts. -/
theorem value_reduce (F : FunctionValues) {c : Catalog} {o : Options} (hsound : SoundCatalog F c)
    (hfolded : ∀ part ∈ e.foldedParts o, part.FoldsExactly o)
    (hfaithful : ∀ rewrite ∈ e.rewrites c o, Faithful F ρ rewrite.1 rewrite.2)
    (h : value F.interpretation e ρ = some q) :
    value F.interpretation (e.reduce c o).1 ρ = some q :=
  value_reduceWithin hsound _ hfolded hfaithful h

theorem value_reduce_squares :
    ∃ c e, c = Catalog.mk [
        ⟨nary .sum [unary .neg (call "f" 0 (var "a")), var "b"],
          binary .sub (var "b") (call "f" 0 (var "a")), "subtract", true, true, 1⟩,
        ⟨binary .pow (var "a") (ofInt 2), binary .mul (var "a") (var "a"), "square",
          true, true, 2⟩] ∧
      e = nary .sum [unary .neg (call "f" 0 (binary .pow (var "x") (ofInt 2))), var "y",
        binary .pow (var "z") (ofInt 2)] ∧
      SoundCatalog (fun _ _ q => some (q + 1)) c ∧
      (∀ part ∈ e.foldedParts {}, part.FoldsExactly {}) ∧
      (∀ rewrite ∈ e.rewrites c {},
        Faithful (fun _ _ q => some (q + 1)) (fun _ => some 2) rewrite.1 rewrite.2) ∧
      (e.reduce c {}).2.length = 3 ∧
      value (FunctionValues.interpretation fun _ _ q => some (q + 1)) e (fun _ => some 2) =
        some 1 ∧
      value (FunctionValues.interpretation fun _ _ q => some (q + 1)) (e.reduce c {}).1
        (fun _ => some 2) = some 1 := by
  refine ⟨_, _, rfl, rfl, ?sound, ?folded, ?faithful, ?steps, ?before,
    value_reduce _ ?sound ?folded ?faithful ?before⟩
  case sound =>
    refine List.forall_mem_cons.2 ⟨fun _ τ q h => ?_, List.forall_mem_singleton.2 fun _ τ q h => ?_⟩
    · cases ha : τ "a" <;> cases hb : τ "b" <;>
        simp_all [value, values, Exact.unary, Exact.binary, family, FunctionValues.interpretation]
      linarith
    · cases ha : τ "a" <;>
        simp_all [value, Exact.binary, power, literal, ofInt, Number.ofInt]
      rw [← h]
      ring
  case folded => decide +kernel
  case faithful => decide +kernel
  case steps => decide +kernel
  case before => decide +kernel

/-- The text `x^-3^2` that the wildcard stands for is read with the exponent below the sign. -/
theorem reduce_of_open_base :
    ∃ r e, r = Rule.mk (binary .sub (binary .add (var "a") (var "b")) (var "b")) (var "a") "cancel"
        true true 1 ∧
      e = ofText "(x^-3)^2+y-y" ∧
      (∀ F, SoundCatalog F ⟨[r]⟩) ∧ e.Legible ∧ (∀ part ∈ e.foldedParts {}, part.FoldsExactly {}) ∧
      (∀ rewrite ∈ e.rewrites ⟨[r]⟩ {}, rewrite.1.Legible ∧ rewrite.2.result.HasExactLiterals) ∧
      (e.reduce ⟨[r]⟩ {}).1 = binary .pow (var "x") (unary .neg (binary .pow (ofInt 3) (ofInt 2))) ∧
      ∀ F : FunctionValues, value F.interpretation e (fun _ => some 2) = some (1 / 64) ∧
        value F.interpretation (e.reduce ⟨[r]⟩ {}).1 (fun _ => some 2) = some (1 / 512) := by
  refine ⟨_, _, rfl, rfl, fun F => ?_, ?_, ?_, ?_, ?_⟩
  · refine List.forall_mem_singleton.2 fun _ τ q h => ?_
    cases ha : τ "a" <;> cases hb : τ "b" <;> simp_all [value, Exact.binary]
  · decide +kernel
  · decide +kernel
  · decide +kernel
  · have hread : ofText "(x^-3)^2+y-y" = binary .sub (binary .add (binary .pow
        (binary .pow (var "x") (ofInt (-3))) (ofInt 2)) (var "y")) (var "y") := by decide +kernel
    have hreduced : ((ofText "(x^-3)^2+y-y").reduce ⟨[⟨binary .sub (binary .add (var "a") (var "b"))
        (var "b"), var "a", "cancel", true, true, 1⟩]⟩ {}).1 =
          binary .pow (var "x") (unary .neg (binary .pow (ofInt 3) (ofInt 2))) := by decide +kernel
    refine ⟨hreduced, fun F => ⟨?_, ?_⟩⟩
    · rw [hread]
      norm_num [value, Exact.binary, power, literal, ofInt, Number.ofInt]
    · rw [hreduced]
      norm_num [value, Exact.binary, Exact.unary, power, literal, ofInt, Number.ofInt]

end Expr

end Formulary
