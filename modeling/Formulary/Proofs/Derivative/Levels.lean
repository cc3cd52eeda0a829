import Formulary.Proofs.Derivative.Inherited
import Formulary.Proofs.Substitution.Avoided

/-!
# How often something is written out

Writing out a derivative operator or a builtin function with primes gives an expression that may
have to be written out again. `Expr.levels` counts how often that happens, one inside the result of
another: a derivative has no more levels than its expression, and the body of an operator has one
level less than the operator.

A point that takes the place of a variable brings its own levels. They add up as long as the variable
occurs in no other point, and otherwise they may grow without bound. An expression is disentangled
if the variables whose points have levels keep out of the points of other operators
(`Expr.Disentangled`). Then `Levelled` is inherited by derivatives, and every derivative is written
out within as many levels as there are nodes to write out (`isSome_differentiate?`).
-/

namespace Formulary

namespace Expr

/-- The level that a call takes of its own: a builtin function with primes is written out. -/
def ownLevel (function : String) (primes : Nat) : Nat :=
  if Names.isBuiltin function && primes != 0 then 1 else 0

mutual

/-- How often something in an expression is written out, one inside the result of another. -/
def levels : Expr → Nat
  | number _ | var _ | invalid _ | invalidPart _ _ => 0
  | element _ index => index.levels
  | unary _ operand => operand.levels
  | binary _ lhs rhs => max lhs.levels rhs.levels
  | nary _ operands => levelsList operands
  | call function primes argument => argument.levels + ownLevel function primes
  | derivative body _ => body.levels + 1
  | derivativeAt body _ point => body.levels + point.levels + 1

/-- The levels of several expressions. -/
def levelsList : List Expr → Nat
  | [] => 0
  | e :: es => max e.levels (levelsList es)

end

theorem levelsList_le_iff {es : List Expr} {d : Nat} :
    levelsList es ≤ d ↔ ∀ e ∈ es, e.levels ≤ d := by
  induction es with
  | nil => simp [levelsList]
  | cons e es ih => rw [levelsList, Nat.max_le, ih, List.forall_mem_cons]

/-- The name, if the node is an operator whose point has levels. -/
def heavyVariable? : Expr → Option String
  | derivativeAt _ name point => if point.levels = 0 then none else some name
  | _ => none

/-- The variables of operators whose points have levels. -/
def heavyVariables (e : Expr) : List String := e.nodes.filterMap heavyVariable?

/-- The point of an operator has no levels unless the variable is one of the names, and it mentions
none of the other names. -/
def PointClear (V : List String) : Expr → Prop
  | derivativeAt _ name point =>
    (point.levels = 0 ∨ name ∈ V) ∧ point.Avoids (V.filter (· != name))
  | _ => True

instance (V : List String) : (e : Expr) → Decidable (e.PointClear V)
  | derivativeAt _ name point =>
    inferInstanceAs (Decidable ((point.levels = 0 ∨ name ∈ V) ∧ point.Avoids _))
  | number _ | var _ | element _ _ | unary _ _ | binary _ _ _ | nary _ _ | call _ _ _
  | derivative _ _ | invalid _ | invalidPart _ _ => isTrue trivial

/-- No point mentions the variable of another operator whose point has levels. -/
def Disentangled (e : Expr) : Prop := ∀ node ∈ e.nodes, node.PointClear e.heavyVariables

instance (e : Expr) : Decidable e.Disentangled :=
  inferInstanceAs (Decidable (∀ node ∈ e.nodes, node.PointClear _))

/-- A node that calls a function calls one of a set, unless the function is builtin. -/
def CallsIn (F : String → Prop) : Expr → Prop
  | call function _ _ => Names.isBuiltin function = false → F function
  | _ => True

/-- The expression has at most `d` levels, its points keep clear of the names, and the functions that
it calls are in a set. -/
def Levelled (V : List String) (F : String → Prop) (d : Nat) (e : Expr) : Prop :=
  e.levels ≤ d ∧ ∀ node ∈ e.nodes, node.PointClear V ∧ node.CallsIn F

variable {V : List String} {F : String → Prop} {c d : Nat} {e p : Expr} {x : String}

theorem Levelled.mono (h : e.Levelled V F c) (hle : c ≤ d) : e.Levelled V F d :=
  ⟨h.1.trans hle, h.2⟩

theorem closed_levels (d : Nat) : Derivative.Closed fun e => e.levels ≤ d where
  number _ := Nat.zero_le d
  euler := Nat.zero_le d
  unary _ _ := Iff.rfl
  binary _ _ _ := Nat.max_le
  nary _ _ := levelsList_le_iff
  builtin {f u} _ hu := by simpa [levels, ownLevel] using hu
  raise {f primes u} hf hcall := by simpa [levels, ownLevel, hf] using hcall

theorem closed_levelled (V : List String) (F : String → Prop) (d : Nat) :
    Derivative.Closed (Levelled V F d) := by
  refine (closed_levels d).and (Derivative.closed_of_nodes (fun _ => ⟨trivial, trivial⟩)
    ⟨trivial, trivial⟩ (fun _ _ => ⟨trivial, trivial⟩) (fun _ _ _ => ⟨trivial, trivial⟩)
    (fun _ _ => ⟨trivial, trivial⟩) (fun f u hf => ⟨trivial, fun hdefined => ?_⟩) fun _ _ _ h => h)
  rw [hf] at hdefined
  cases hdefined

theorem levelled_var (name : String) : (var name).Levelled V F d :=
  ⟨Nat.zero_le d, (forall_mem_nodes_of_root ⟨trivial, trivial⟩).2 (List.forall_mem_nil _)⟩

theorem levelled_element {sequence : String} {index : Expr} :
    (element sequence index).Levelled V F d ↔ index.Levelled V F d :=
  and_congr_right' (forall_mem_nodes_single ⟨trivial, trivial⟩ rfl)

theorem levelled_call {f : String} {primes : Nat} {u : Expr} :
    (call f primes u).Levelled V F d ↔ (Names.isBuiltin f = false → F f) ∧
      ∃ i, i + ownLevel f primes ≤ d ∧ u.Levelled V F i := by
  unfold Levelled
  rw [forall_mem_nodes, levels, children, List.forall_mem_singleton]
  constructor
  · rintro ⟨hlevels, hroot, hu⟩
    exact ⟨hroot.2, u.levels, hlevels, Nat.le_refl _, hu⟩
  · rintro ⟨hf, i, hi, hlevels, hu⟩
    exact ⟨by omega, ⟨trivial, hf⟩, hu⟩

theorem levelled_derivative {body : Expr} {name : String} :
    (derivative body name).Levelled V F d ↔ ∃ i < d, body.Levelled V F i := by
  unfold Levelled
  rw [forall_mem_nodes_single ⟨trivial, trivial⟩ rfl, levels]
  constructor
  · rintro ⟨hlevels, hbody⟩
    exact ⟨body.levels, hlevels, Nat.le_refl _, hbody⟩
  · rintro ⟨i, hi, hlevels, hbody⟩
    exact ⟨by omega, hbody⟩

/-- An operator with a point is one level above its body and its point together. -/
theorem levelled_derivativeAt {body point : Expr} {name : String} :
    (derivativeAt body name point).Levelled V F d ↔
      ∃ i j, i + j < d ∧ (j = 0 ∨ name ∈ V) ∧ point.Avoids (V.filter (· != name)) ∧
        body.Levelled V F i ∧ point.Levelled V F j := by
  unfold Levelled
  rw [forall_mem_nodes, levels, children, forall_mem_pair]
  constructor
  · rintro ⟨hlevels, ⟨⟨hheavy, haway⟩, -⟩, hbody, hpoint⟩
    exact ⟨body.levels, point.levels, hlevels, hheavy, haway, ⟨Nat.le_refl _, hbody⟩,
      Nat.le_refl _, hpoint⟩
  · rintro ⟨i, j, hij, hheavy, haway, ⟨hi, hbody⟩, hj, hpoint⟩
    refine ⟨by omega, ⟨⟨hheavy.imp_left fun hzero => ?_, haway⟩, trivial⟩, hbody, hpoint⟩
    omega

/-! ## Putting a point in place -/

open Substitution (without forall_mem_without)

/-- An expression in the place of a name brings its levels once, if it has none or the name is one
that occurs in no other point. -/
theorem Levelled.substitute (he : e.Levelled V F d) (hp : p.Levelled V F c) (hx : c = 0 ∨ x ∈ V)
    (haway : p.Avoids (V.filter (· != x))) {scope : Scope} {σ : Substitutions}
    (hσ : ∀ entry ∈ σ, entry = (x, .expr p)) : (e.substitute scope σ).Levelled V F (d + c) := by
  have hclosed (d : Nat) := closed_levelled V F d
  have hstructural (d : Nat) := structural_of_closed (hclosed d)
  induction e using Expr.induction generalizing c d p x σ with
  | number n => exact (hclosed _).number n
  | var name =>
    rw [Expr.substitute]
    cases hlookup : σ.lookup name with
    | none => exact levelled_var name
    | some s =>
      refine Substitution.of_lookup (fun entry hentry => ?_) hlookup
      rw [hσ entry hentry]
      exact hp.mono (Nat.le_add_left c d)
  | element sequence index ih =>
    exact levelled_element.2 (ih (levelled_element.1 he) hp hx haway hσ)
  | unary op u ih =>
    exact ((hclosed _).unary op _).2 (ih (((hclosed d).unary op u).1 he) hp hx haway hσ)
  | binary op u v ihu ihv =>
    obtain ⟨hu, hv⟩ := ((hclosed d).binary op u v).1 he
    exact (Substitution.binary_iff (hstructural _) (hclosed _).number op).2
      ⟨ihu hu hp hx haway hσ, ihv hv hp hx haway hσ⟩
  | nary op es ih =>
    have hes := ((hclosed d).nary op es).1 he
    rw [Expr.substitute, substituteList_eq_map]
    exact (Substitution.nary_iff (hstructural _) op).2
      (List.forall_mem_map.2 fun e hmem => ih e hmem (hes e hmem) hp hx haway hσ)
  | call f primes u ih =>
    obtain ⟨hf, i, hi, hu⟩ := levelled_call.1 he
    exact levelled_call.2 ⟨hf, i + c, by omega, ih hu hp hx haway hσ⟩
  | derivative body name ih =>
    obtain ⟨i, hi, hbody⟩ := levelled_derivative.1 he
    refine levelled_derivative.2 ⟨i + c, by omega, ?_⟩
    exact ih hbody hp hx haway (forall_mem_without hσ name)
  | derivativeAt body name point ihbody ihpoint =>
    obtain ⟨i, j, hij, hheavy, hother, hbody, hpoint⟩ := levelled_derivativeAt.1 he
    have hzero : (ofInt 0).Levelled V F 0 := (hclosed 0).ofInt 0
    rw [Expr.substitute]
    by_cases hname : name = x
    · -- the variable is not replaced in the body, and the new point may mention it
      subst hname
      have hnone : without σ name = [] := by
        refine List.filter_eq_nil_iff.2 fun entry hentry => ?_
        simp [hσ entry hentry]
      have hpoint := ihpoint hpoint hp hx haway hσ
      have hbody := ihbody hbody hzero (.inl rfl) (x := name) (avoids_number _) (List.forall_mem_nil _)
      rw [hnone]
      refine levelled_derivativeAt.2 ⟨i, j + c, by omega, ?_, ?_, hbody, hpoint⟩
      · exact hx.elim (fun hc => hheavy.imp_left fun hj => by omega) .inr
      · exact hother.substitute fun entry hentry => by rwa [hσ entry hentry]
    · have hbody := ihbody hbody hp hx haway (forall_mem_without hσ name)
      by_cases hmem : x ∈ V
      · -- the point does not mention the name
        have hkeys : ∀ entry ∈ σ, entry.1 ∈ V.filter (· != name) := fun entry hentry => by
          rw [hσ entry hentry]
          exact List.mem_filter.2 ⟨hmem, by simpa using Ne.symm hname⟩
        have hpoint := ihpoint hpoint hzero (.inl rfl) (x := name) (avoids_number _)
          (List.forall_mem_nil _)
        rw [substitute_of_avoids hother hkeys]
        exact levelled_derivativeAt.2 ⟨i + c, j, by omega, hheavy,
          hother.substitute (List.forall_mem_nil _), hbody, hpoint⟩
      · -- what is put in place has no levels
        have hc := hx.resolve_right hmem
        have hpoint := ihpoint hpoint hp hx haway hσ
        subst hc
        refine levelled_derivativeAt.2 ⟨i, j, by omega, hheavy, ?_, hbody, hpoint⟩
        refine hother.substitute fun entry hentry => ?_
        rw [hσ entry hentry]
        refine haway.subset fun other hmem' => ?_
        have hother := (List.mem_filter.1 hmem').1
        exact List.mem_filter.2 ⟨hother, by simpa using ne_of_mem_of_not_mem hother hmem⟩
  | invalid issue => exact ⟨Nat.zero_le _, he.2⟩
  | invalidPart issue part _ => exact ⟨Nat.zero_le _, he.2⟩

theorem Levelled.substituteName (he : e.Levelled V F d) (hp : p.Levelled V F c)
    (hx : c = 0 ∨ x ∈ V) (haway : p.Avoids (V.filter (· != x))) :
    (e.substituteName x p).Levelled V F (d + c) :=
  he.substitute hp hx haway (List.forall_mem_singleton.2 rfl)

/-- A derivative has no more levels than its expression, and calls no other functions. -/
theorem inherited_levelled (V : List String) (F : String → Prop) :
    Derivative.Inherited (Levelled V F) where
  closed := closed_levelled V F
  var _ := levelled_var
  argument he := by
    obtain ⟨-, i, hi, hu⟩ := levelled_call.1 he
    exact hu.mono (Nat.le_of_add_right_le hi)
  body he := by
    obtain ⟨i, hi, hbody⟩ := levelled_derivative.1 he
    exact hbody.mono hi.le
  point he := by
    obtain ⟨i, j, hij, hheavy, haway, hbody, hpoint⟩ := levelled_derivativeAt.1 he
    exact ⟨i, hbody, fun first hfirst => (hfirst.substituteName hpoint hheavy haway).mono hij.le⟩

end Expr

namespace Derivative

open Formulary.Expr

variable {V : List String} {F : String → Prop} {d : Nat} {e : Expr} {x : String} {known : Scope}

/-! ## Depths that are enough -/

section

variable {closed : String → Nat → Expr → Option Expr} {again : Continue}

/-- Whatever has to be written out in an expression of at most `d` levels can be written out and
differentiated. -/
structure Suffices (V : List String) (F : String → Prop) (d : Nat)
    (closed : String → Nat → Expr → Option Expr) (again : Continue) : Prop where
  primed {f : String} {primes : Nat} {u : Expr} (hf : (Names.isBuiltin f && primes != 0) = true)
    (hcall : (call f primes u).Levelled V F d) (x : String) (known : Scope) :
    (closed f primes u >>= fun e => again e x known).isSome
  operator {body first : Expr} {name x : String} {known : Scope}
    (hoperator : (derivative body name).Levelled V F d)
    (hfirst : body.differentiateWith closed again name (inside x known name) = some first) :
    (again first x known).isSome
  point {body point first : Expr} {name x : String} {known : Scope}
    (hoperator : (derivativeAt body name point).Levelled V F d)
    (hfirst : body.differentiateWith closed again name (inside x known name) = some first) :
    (again (first.substituteName name point) x known).isSome

/-- It is enough to look at expressions that are not independent of the variable. -/
theorem isSome_of_rule
    (hrule : independent x known e = false → (e.differentiateWith closed again x known).isSome) :
    (e.differentiateWith closed again x known).isSome := by
  cases hind : independent x known e with
  | true =>
    rw [differentiateWith_independent hind]
    rfl
  | false => exact hrule hind

theorem isSome_differentiateList {es : List Expr}
    (h : ∀ e ∈ es, (e.differentiateWith closed again x known).isSome) :
    (differentiateList closed again es x known).isSome := by
  induction es with
  | nil => rfl
  | cons e es ih =>
    obtain ⟨he, hes⟩ := List.forall_mem_cons.1 h
    obtain ⟨de, hde⟩ := Option.isSome_iff_exists.1 he
    obtain ⟨slopes, hslopes⟩ := Option.isSome_iff_exists.1 (ih hes)
    rw [differentiateList, hde, hslopes]
    rfl

/-- An expression of at most `d` levels can be differentiated if what has to be written out can. -/
theorem Suffices.isSome (h : Suffices V F d closed again) (he : e.Levelled V F d) (x : String)
    (known : Scope) : (e.differentiateWith closed again x known).isSome := by
  have hclosed := closed_levelled V F d
  induction e using Expr.induction generalizing x known with
  | number n =>
    rw [differentiateWith_number]
    rfl
  | var name =>
    refine isSome_of_rule fun hind => ?_
    rw [differentiateWith_var hind]
    rfl
  | element sequence index _ =>
    rw [differentiateWith_element]
    rfl
  | unary op u ih =>
    refine isSome_of_rule fun hind => ?_
    obtain ⟨du, hdu⟩ := Option.isSome_iff_exists.1 (ih ((hclosed.unary op u).1 he) x known)
    rw [differentiateWith_unary hind, hdu]
    rfl
  | binary op u v ihu ihv =>
    refine isSome_of_rule fun hind => ?_
    by_cases hop : op.valueType = .boolean
    · rw [differentiateWith_boolean hop]
      rfl
    · obtain ⟨hu, hv⟩ := (hclosed.binary op u v).1 he
      obtain ⟨du, hdu⟩ := Option.isSome_iff_exists.1 (ihu hu x known)
      obtain ⟨dv, hdv⟩ := Option.isSome_iff_exists.1 (ihv hv x known)
      rw [differentiateWith_binary hop hind, hdu, hdv]
      rfl
  | nary op es ih =>
    refine isSome_of_rule fun hind => ?_
    have hes := (hclosed.nary op es).1 he
    obtain ⟨slopes, hslopes⟩ := Option.isSome_iff_exists.1
      (isSome_differentiateList fun e hmem => ih e hmem (hes e hmem) x known)
    rw [differentiateWith_nary hind, hslopes]
    rfl
  | call f primes u ih =>
    refine isSome_of_rule fun hind => ?_
    cases hf : Names.isBuiltin f && primes != 0 with
    | true =>
      rw [differentiateWith_primed hf hind]
      exact h.primed hf he x known
    | false =>
      have hu := (inherited_levelled V F).argument he
      obtain ⟨du, hdu⟩ := Option.isSome_iff_exists.1 (ih hu x known)
      rw [differentiateWith_call hf hind, hdu]
      rfl
  | derivative body name ih =>
    refine isSome_of_rule fun hind => ?_
    have hbody := (inherited_levelled V F).body he
    obtain ⟨first, hfirst⟩ := Option.isSome_iff_exists.1 (ih hbody name (inside x known name))
    rw [differentiateWith_derivative hind, hfirst]
    exact h.operator he hfirst
  | derivativeAt body name point ihbody _ =>
    refine isSome_of_rule fun hind => ?_
    obtain ⟨i, j, hij, -, -, hbody, -⟩ := levelled_derivativeAt.1 he
    obtain ⟨first, hfirst⟩ := Option.isSome_iff_exists.1
      (ihbody (hbody.mono (by omega)) name (inside x known name))
    rw [differentiateWith_derivativeAt hind, hfirst]
    exact h.point he hfirst
  | invalid issue => rfl
  | invalidPart issue part _ => rfl

/-- Without levels nothing has to be written out. -/
theorem suffices_zero : Suffices V F 0 closed again where
  primed hf hcall := by
    obtain ⟨-, i, hi, -⟩ := levelled_call.1 hcall
    rw [ownLevel, if_pos hf] at hi
    cases hi
  operator hoperator := by
    obtain ⟨i, hi, -⟩ := levelled_derivative.1 hoperator
    cases hi
  point hoperator := by
    obtain ⟨i, j, hij, -⟩ := levelled_derivativeAt.1 hoperator
    cases hij

end

theorem levelled_of_elementary (h : Elementary "x" e) : e.Levelled V F 0 :=
  h.inherits (closed_levelled V F 0) (fun name _ => levelled_var name) (levelled_var "x")

theorem isSome_closedAtX {f : String} (hf : Names.isBuiltin f = true) (order : Nat) :
    (closedAtX f order).isSome := by
  induction order with
  | zero => rfl
  | succ order ih =>
    obtain ⟨e, he⟩ := Option.isSome_iff_exists.1 ih
    rw [closedAtX, he]
    have hlevels : e.Levelled [] (fun _ => True) 0 :=
      levelled_of_elementary (elementary_closedAtX hf he)
    exact suffices_zero.isSome hlevels "x" []

theorem isSome_closedForm {f : String} (hf : Names.isBuiltin f = true) (primes : Nat) (u : Expr) :
    (closedForm f primes u).isSome := by
  obtain ⟨e, he⟩ := Option.isSome_iff_exists.1 (isSome_closedAtX hf primes)
  rw [closedForm, he]
  rfl

/-- A depth that differentiates everything of `d` levels suffices for `d + 1` levels. -/
theorem suffices_succ
    (h : ∀ e x known, e.Levelled V F d → (differentiate? d e x known).isSome) :
    Suffices V F (d + 1) closedForm (differentiate? d) where
  primed {f primes u} hf hcall x known := by
    obtain ⟨-, i, hi, hu⟩ := levelled_call.1 hcall
    rw [ownLevel, if_pos hf] at hi
    have hbuiltin := ((Bool.and_eq_true _ _).mp hf).1
    obtain ⟨e, he⟩ := Option.isSome_iff_exists.1 (isSome_closedForm hbuiltin primes u)
    have hlevels := inherits_closedForm (closed_levelled V F i) (fun name _ => levelled_var name)
      hbuiltin hu he
    rw [he]
    exact h e x known (hlevels.mono (Nat.le_of_lt_succ hi))
  operator hoperator hfirst := by
    obtain ⟨i, hi, hbody⟩ := levelled_derivative.1 hoperator
    have hinherited := inherited_levelled V F
    have hlevels := hinherited.differentiateWith (hinherited.differentiate? d) hbody hfirst
    exact h _ _ _ (hlevels.mono (Nat.le_of_lt_succ hi))
  point hoperator hfirst := by
    obtain ⟨i, j, hij, hheavy, haway, hbody, hpoint⟩ := levelled_derivativeAt.1 hoperator
    have hinherited := inherited_levelled V F
    have hlevels := hinherited.differentiateWith (hinherited.differentiate? d) hbody hfirst
    have hplaced := hlevels.substituteName hpoint hheavy haway
    exact h _ _ _ (hplaced.mono (Nat.le_of_lt_succ hij))

/-- As many levels as the expression has are enough. -/
theorem isSome_differentiate? (he : e.Levelled V F d) (x : String) (known : Scope) :
    (differentiate? d e x known).isSome := by
  induction d generalizing e x known with
  | zero => exact suffices_zero.isSome he x known
  | succ d ih => exact (suffices_succ fun e x known he => ih he x known).isSome he x known

theorem levels_le_children (e : Expr) :
    e.levels ≤ (e.children.map levels).sum + if isWrittenOut e then 1 else 0 := by
  cases e with
  | nary op es =>
    refine Nat.le_trans (levelsList_le_iff.2 fun e he => ?_) (Nat.le_add_right _ _)
    exact List.le_sum_of_mem (List.mem_map_of_mem he)
  | binary op u v =>
    simp only [levels, children, List.map_cons, List.map_nil, List.sum_cons, List.sum_nil]
    omega
  | _ => simp [levels, children, isWrittenOut, ownLevel]

/-- An expression has at most as many levels as nodes that are written out. -/
theorem levels_le_countP (e : Expr) : e.levels ≤ e.nodes.countP isWrittenOut := by
  induction e using Expr.induction_children with
  | _ e ih =>
    rw [nodes_eq, List.countP_cons, List.countP_flatMap]
    refine (levels_le_children e).trans (Nat.add_le_add_right ?_ _)
    exact List.sum_le_sum ih

/-- The depth that differentiation starts with is enough. -/
theorem isSome_differentiate?_depth (he : e.Levelled V F d) (x : String) (known : Scope) :
    (differentiate? (Derivative.depth e) e x known).isSome := by
  have hdepth : e.levels ≤ Derivative.depth e := by
    refine (levels_le_countP e).trans ((Nat.le_mul_self _).trans ?_)
    exact Nat.lt_two_pow_self.le
  exact isSome_differentiate? ⟨hdepth, he.2⟩ x known

end Derivative

end Formulary
