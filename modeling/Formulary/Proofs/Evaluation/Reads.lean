import Formulary.Proofs.Expr.Traversal
import Formulary.Proofs.Derivative.Closure
import Formulary.Proofs.Derivative.Steps
import Formulary.Substitution
import Mathlib.Data.Set.Basic

/-!
# The names an evaluation reads

A derivative operator with a point is evaluated by differentiating its body and putting the point in
the place of its variable. Two things keep a name from going away with that. The point is evaluated
outside of the operator, so a point that mentions the variable reads it. And an operator without a
point keeps its own variable from being replaced below it; where such an operator is still part of
the derivative, the name it shields is read after all.

`Expr.reads` collects the names that an evaluation may read for these reasons. Differentiating and
putting a point in place add no name to them.
-/

namespace Formulary

/-- What becomes of an expression: it is evaluated where it stands, it is differentiated, or it
stays as a part of a derivative, and a point may still be put in place in it. -/
inductive Use where
  | evaluated
  | differentiated
  | kept
deriving DecidableEq

namespace Use

/-- What becomes of the operands. A linear operation does not stay around a derivative. -/
def operand (linear : Bool) : Use → Use
  | differentiated => if linear then differentiated else kept
  | use => use

/-- What becomes of the body of a derivative operator. -/
def body : Use → Use
  | kept => kept
  | _ => differentiated

end Use

/-- The derivative of the operation is made of the derivatives of its operands. -/
def UnaryOp.isLinear (op : UnaryOp) : Bool := op != recip

/-- The derivative of the operation is made of the derivatives of its operands. -/
def BinaryOp.isLinear (op : BinaryOp) : Bool := op == add || op == sub

/-- The derivative of the operation is made of the derivatives of its operands. -/
def Family.isLinear (op : Family) : Bool := op == sum

namespace Expr

mutual

/-- The variables of operators without a point into which a point may still be put. -/
def shielded (use : Use) : Expr → List String
  | number _ | var _ | invalid _ => []
  | element _ index => index.shielded (use.operand false)
  | unary op u => u.shielded (use.operand op.isLinear)
  | binary op u v =>
    u.shielded (use.operand op.isLinear) ++ v.shielded (use.operand op.isLinear)
  | nary op us => shieldedList (use.operand op.isLinear) us
  | call _ _ u => u.shielded (use.operand false)
  | derivative body name => (if use = .kept then [name] else []) ++ body.shielded use.body
  | derivativeAt body _ point => body.shielded use.body ++ point.shielded .kept
  | invalidPart _ part => part.shielded .kept

/-- The variables of operators without a point in several expressions. -/
def shieldedList (use : Use) : List Expr → List String
  | [] => []
  | e :: es => e.shielded use ++ shieldedList use es

end

mutual

/-- The names that may be read, where some names are shielded from being replaced. -/
def readsWith (shielded : List String) : Expr → List String
  | number _ | invalid _ => []
  | var name => if Names.isSpecial name then [] else [name]
  | element _ index => index.readsWith shielded
  | unary _ u => u.readsWith shielded
  | binary _ u v => u.readsWith shielded ++ v.readsWith shielded
  | nary _ us => readsListWith shielded us
  | call _ _ u => u.readsWith shielded
  | derivative body _ => body.readsWith shielded
  | derivativeAt body name point =>
    (body.readsWith shielded).filter (fun other => other != name || shielded.contains name) ++
      point.readsWith shielded
  | invalidPart _ part => part.readsWith shielded

/-- The names that may be read in several expressions. -/
def readsListWith (shielded : List String) : List Expr → List String
  | [] => []
  | e :: es => e.readsWith shielded ++ readsListWith shielded es

end

/-- The names that the evaluation of an expression may read. -/
def reads (e : Expr) : List String := e.readsWith (e.shielded .evaluated)

theorem shieldedList_eq_flatMap (use : Use) (es : List Expr) :
    shieldedList use es = es.flatMap (shielded use) := by
  induction es with
  | nil => rfl
  | cons e es ih => rw [shieldedList, ih, List.flatMap_cons]

theorem readsListWith_eq_flatMap (shielded : List String) (es : List Expr) :
    readsListWith shielded es = es.flatMap (readsWith shielded) := by
  induction es with
  | nil => rfl
  | cons e es ih => rw [readsListWith, ih, List.flatMap_cons]

/-- An expression that stays as it is shields the most. -/
theorem shielded_subset_kept (e : Expr) (use : Use) : e.shielded use ⊆ e.shielded .kept := by
  induction e using Expr.induction generalizing use with
  | number n => exact List.Subset.refl _
  | var name => exact List.Subset.refl _
  | element sequence index ih => exact ih _
  | unary op u ih => exact ih _
  | binary op u v ihu ihv =>
    rw [shielded, shielded]
    exact List.append_subset.2
      ⟨List.subset_append_of_subset_left _ (ihu _), List.subset_append_of_subset_right _ (ihv _)⟩
  | nary op es ih =>
    rw [shielded, shielded, shieldedList_eq_flatMap, shieldedList_eq_flatMap]
    intro name hname
    obtain ⟨e, he, hname⟩ := List.mem_flatMap.1 hname
    exact List.mem_flatMap.2 ⟨e, he, ih e he _ hname⟩
  | call f primes u ih => exact ih _
  | derivative body name ih =>
    rw [shielded, shielded, if_pos rfl]
    refine List.append_subset.2 ⟨?_, List.subset_append_of_subset_right _ (ih _)⟩
    split
    · exact List.subset_append_left _ _
    · exact List.nil_subset _
  | derivativeAt body name point ihbody ihpoint =>
    rw [shielded, shielded]
    exact List.append_subset.2
      ⟨List.subset_append_of_subset_left _ (ihbody _), List.subset_append_right _ _⟩
  | invalid issue => exact List.Subset.refl _
  | invalidPart issue part ih => exact List.Subset.refl _

theorem occurrences_subset_readsWith (e : Expr) (shielded : List String) :
    e.occurrences ⊆ e.readsWith shielded := by
  induction e using Expr.induction with
  | number n => exact List.Subset.refl _
  | var name => exact List.Subset.refl _
  | element sequence index ih => exact ih
  | unary op u ih => exact ih
  | binary op u v ihu ihv =>
    rw [occurrences, readsWith]
    exact List.append_subset.2
      ⟨List.subset_append_of_subset_left _ ihu, List.subset_append_of_subset_right _ ihv⟩
  | nary op es ih =>
    rw [occurrences, readsWith, occurrencesList_eq_flatMap, readsListWith_eq_flatMap]
    intro name hname
    obtain ⟨e, he, hname⟩ := List.mem_flatMap.1 hname
    exact List.mem_flatMap.2 ⟨e, he, ih e he hname⟩
  | call f primes u ih => exact ih
  | derivative body name ih => exact ih
  | derivativeAt body name point ihbody ihpoint =>
    intro other hother
    rw [occurrences, List.mem_filter, List.mem_append] at hother
    obtain ⟨hother | hother, hne⟩ := hother
    · refine List.mem_append_left _ (List.mem_filter.2 ⟨ihbody hother, ?_⟩)
      rw [hne, Bool.true_or]
    · exact List.mem_append_right _ (ihpoint hother)
  | invalid issue => exact List.Subset.refl _
  | invalidPart issue part ih => exact ih

/-! ## Expressions that read certain names only -/

/-- The expression has no issue and reads certain names only, with the names that its operators
without a point may keep from being replaced. -/
structure Within (use : Use) (shielded : List String) (names : Set String) (e : Expr) : Prop where
  valid : e.hasIssue = false
  reads : ∀ name ∈ e.readsWith shielded, name ∈ names
  shields : ∀ name ∈ e.shielded use, name ∈ shielded

variable {use : Use} {S : List String} {N M : Set String}

theorem Within.of_kept {e : Expr} (h : Within .kept S N e) : Within use S N e :=
  ⟨h.valid, h.reads, fun name hname => h.shields name (shielded_subset_kept e use hname)⟩

/-- The operands of an operation are differentiated together with it, or stay. -/
theorem Within.operand {e : Expr} (linear : Bool)
    (h : Within (Use.operand linear .differentiated) S N e) : Within .differentiated S N e := by
  cases linear with
  | true => exact h
  | false => exact h.of_kept

theorem Within.mono {e : Expr} (h : Within use S N e) (hsub : N ⊆ M) : Within use S M e :=
  ⟨h.valid, fun name hname => hsub (h.reads name hname), h.shields⟩

theorem Within.occurrences {e : Expr} (h : Within use S N e) :
    ∀ name ∈ e.occurrences, name ∈ N :=
  fun name hname => h.reads name (occurrences_subset_readsWith e S hname)

/-- A node with a single part, which reads what that part reads. -/
theorem within_iff {e u : Expr} {part : Use} (hvalid : e.hasIssue = u.hasIssue)
    (hreads : e.readsWith S = u.readsWith S) (hshields : e.shielded use = u.shielded part) :
    Within use S N e ↔ Within part S N u := by
  constructor
  · rintro ⟨h₁, h₂, h₃⟩
    exact ⟨hvalid ▸ h₁, hreads ▸ h₂, hshields ▸ h₃⟩
  · rintro ⟨h₁, h₂, h₃⟩
    exact ⟨hvalid ▸ h₁, hreads ▸ h₂, hshields ▸ h₃⟩

theorem within_unary {op : UnaryOp} {u : Expr} :
    Within use S N (unary op u) ↔ Within (use.operand op.isLinear) S N u :=
  within_iff (hasIssue_unary op u) rfl rfl

theorem within_element {sequence : String} {index : Expr} :
    Within use S N (element sequence index) ↔ Within (use.operand false) S N index :=
  within_iff (hasIssue_element index sequence) rfl rfl

theorem within_call {f : String} {primes : Nat} {u : Expr} :
    Within use S N (call f primes u) ↔ Within (use.operand false) S N u :=
  within_iff (hasIssue_call u f primes) rfl rfl

theorem within_binary {op : BinaryOp} {u v : Expr} :
    Within use S N (binary op u v) ↔
      Within (use.operand op.isLinear) S N u ∧ Within (use.operand op.isLinear) S N v := by
  constructor
  · rintro ⟨hvalid, hreads, hshields⟩
    rw [hasIssue_binary, Bool.or_eq_false_iff] at hvalid
    rw [readsWith, List.forall_mem_append] at hreads
    rw [shielded, List.forall_mem_append] at hshields
    exact ⟨⟨hvalid.1, hreads.1, hshields.1⟩, ⟨hvalid.2, hreads.2, hshields.2⟩⟩
  · rintro ⟨hu, hv⟩
    refine ⟨?_, ?_, ?_⟩
    · rw [hasIssue_binary, hu.valid, hv.valid, Bool.or_false]
    · rw [readsWith, List.forall_mem_append]
      exact ⟨hu.reads, hv.reads⟩
    · rw [shielded, List.forall_mem_append]
      exact ⟨hu.shields, hv.shields⟩

theorem within_nary {op : Family} {es : List Expr} :
    Within use S N (nary op es) ↔ ∀ e ∈ es, Within (use.operand op.isLinear) S N e := by
  constructor
  · rintro ⟨hvalid, hreads, hshields⟩ e he
    rw [hasIssue_nary, List.any_eq_false] at hvalid
    rw [readsWith, readsListWith_eq_flatMap] at hreads
    rw [shielded, shieldedList_eq_flatMap] at hshields
    exact ⟨by simpa using hvalid e he,
      fun name hname => hreads name (List.mem_flatMap.2 ⟨e, he, hname⟩),
      fun name hname => hshields name (List.mem_flatMap.2 ⟨e, he, hname⟩)⟩
  · intro hes
    refine ⟨?_, ?_, ?_⟩
    · rw [hasIssue_nary, List.any_eq_false]
      intro e he
      simp [(hes e he).valid]
    · rw [readsWith, readsListWith_eq_flatMap]
      intro name hname
      obtain ⟨e, he, hname⟩ := List.mem_flatMap.1 hname
      exact (hes e he).reads name hname
    · rw [shielded, shieldedList_eq_flatMap]
      intro name hname
      obtain ⟨e, he, hname⟩ := List.mem_flatMap.1 hname
      exact (hes e he).shields name hname

/-- An operator without a point shields its variable as long as it stays. -/
theorem within_derivative {body : Expr} {name : String} :
    Within use S N (derivative body name) ↔
      (use = .kept → name ∈ S) ∧ Within use.body S N body := by
  constructor
  · rintro ⟨hvalid, hreads, hshields⟩
    rw [shielded, List.forall_mem_append] at hshields
    refine ⟨fun hkept => hshields.1 name ?_, by simpa using hvalid, hreads, hshields.2⟩
    rw [if_pos hkept]
    exact List.mem_singleton_self name
  · rintro ⟨hname, hbody⟩
    refine ⟨by simpa using hbody.valid, hbody.reads, ?_⟩
    rw [shielded, List.forall_mem_append]
    refine ⟨fun other hother => ?_, hbody.shields⟩
    split at hother
    · rename_i hkept
      rw [List.mem_singleton.1 hother]
      exact hname hkept
    · cases hother

/-- The names that may be read below an operator with a point: its variable as well, unless it is
shielded. -/
def inner (shielded : List String) (names : Set String) (name : String) : Set String :=
  {other | other ∈ names ∨ other = name ∧ name ∉ shielded}

theorem subset_inner (name : String) : N ⊆ inner S N name := fun _ h => .inl h

/-- The body of an operator may read its variable as well; the point stays as it is. -/
theorem within_derivativeAt {body point : Expr} {name : String} :
    Within use S N (derivativeAt body name point) ↔
      Within use.body S (inner S N name) body ∧ Within .kept S N point := by
  constructor
  · rintro ⟨hvalid, hreads, hshields⟩
    rw [hasIssue_derivativeAt, Bool.or_eq_false_iff] at hvalid
    rw [readsWith, List.forall_mem_append] at hreads
    rw [shielded, List.forall_mem_append] at hshields
    refine ⟨⟨hvalid.1, fun other hother => ?_, hshields.1⟩, hvalid.2, hreads.2, hshields.2⟩
    by_cases haway : other = name ∧ name ∉ S
    · exact .inr haway
    · refine .inl (hreads.1 other (List.mem_filter.2 ⟨hother, ?_⟩))
      rw [not_and_not_right] at haway
      by_cases hne : other = name
      · simp [haway hne]
      · simp [hne]
  · rintro ⟨hbody, hpoint⟩
    refine ⟨?_, ?_, ?_⟩
    · rw [hasIssue_derivativeAt, hbody.valid, hpoint.valid, Bool.or_false]
    · rw [readsWith, List.forall_mem_append]
      refine ⟨fun other hother => ?_, hpoint.reads⟩
      obtain ⟨hother, hkept⟩ := List.mem_filter.1 hother
      obtain hmem | ⟨rfl, hshielded⟩ := hbody.reads other hother
      · exact hmem
      · simp [hshielded] at hkept
    · rw [shielded, List.forall_mem_append]
      exact ⟨hbody.shields, hpoint.shields⟩

/-- The rules of differentiation keep to the names of what they are put together from. -/
theorem closed_within : Derivative.Closed (Within .kept S N) where
  number n := ⟨by simp, by simp [readsWith], by simp [shielded]⟩
  euler := ⟨by simp, by simp [readsWith, Names.isSpecial, Names.specials], by simp [shielded]⟩
  unary _ _ := within_unary
  binary _ _ _ := within_binary
  nary _ _ := within_nary
  builtin _ hu := within_call.2 hu
  raise _ hcall := within_call.2 (within_call.1 hcall)

end Expr

end Formulary
