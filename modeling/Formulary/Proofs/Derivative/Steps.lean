import Formulary.Derivative
import Formulary.Proofs.Expr.Traversal
import Mathlib.Tactic.ByContra

/-!
# The cases of differentiation

`Expr.differentiateWith` first looks whether there is anything to read and whether the expression
changes at all. These are its equations once both questions are settled.

`Differentiates` has the same cases as rules, one for each way to get a derivative. What is shown of
all derivatives is shown by induction over these rules.
-/

namespace Formulary.Expr

open Formulary.Derivative

variable {closed : String → Nat → Expr → Option Expr} {again : Continue} {x : String}
  {known : Scope}

theorem isInvalid_of_independent {e : Expr} (h : independent x known e = true) :
    e.isInvalid = false := by
  rw [independent, Bool.and_eq_true, Bool.not_eq_true'] at h
  exact h.1

theorem ne_of_independent {e : Expr} (h : independent x known e = true) {name : String}
    (hname : name ∈ e.occurrences) : name ≠ x := by
  rw [independent, Bool.and_eq_true, List.all_eq_true] at h
  have hboth := h.2 name hname
  rw [Bool.and_eq_true, bne_iff_ne] at hboth
  exact hboth.1

/-- A name that is not independent is the variable if all others are known. -/
theorem eq_of_not_independent {name : String} (h : independent x known (var name) = false)
    (hknown : ∀ other ∈ (var name).occurrences, other ≠ x → other ∈ known) : name = x := by
  by_contra hne
  cases hspecial : Names.isSpecial name with
  | true => simp [independent, isInvalid, occurrences, hspecial] at h
  | false =>
    have hmem : name ∈ known := hknown name (by simp [occurrences, hspecial]) hne
    simp [independent, isInvalid, occurrences, hspecial, hne, hmem] at h

/-- The definition, opened once for all the cases below. -/
theorem differentiateWith_eq (e : Expr) :
    e.differentiateWith closed again x known =
      if e.isInvalid then some e
      else if independent x known e then some (ofInt 0)
      else
        match e with
        | number _ | element _ _ => some (ofInt 0)
        | var name => some (if name = x then ofInt 1 else var (Names.withPrimes name 1))
        | unary op u => do
          let du ← u.differentiateWith closed again x known
          return Derivative.unary op ⟨u, du⟩
        | binary op u v =>
          if op.valueType = .boolean then some (ofInt 0)
          else do
            let du ← u.differentiateWith closed again x known
            let dv ← v.differentiateWith closed again x known
            return Derivative.binary x (independent x known) op ⟨u, du⟩ ⟨v, dv⟩
        | nary op us => do
          let slopes ← differentiateList closed again us x known
          return Derivative.nary op slopes
        | call f primes u =>
          if Names.isBuiltin f && primes != 0 then do
            again (← closed f primes u) x known
          else do
            let du ← u.differentiateWith closed again x known
            return chain x (function f primes u) ⟨u, du⟩
        | derivative body name => do
          let first ← body.differentiateWith closed again name (inside x known name)
          again first x known
        | derivativeAt body name point => do
          let first ← body.differentiateWith closed again name (inside x known name)
          again (first.substituteName name point) x known
        | e => some e := by
  refine (differentiateWith.eq_def ..).trans ?_
  cases e <;> rfl

theorem differentiateWith_independent {e : Expr} (h : independent x known e = true) :
    e.differentiateWith closed again x known = some (ofInt 0) := by
  rw [differentiateWith_eq, isInvalid_of_independent h, h]
  rfl

theorem differentiateWith_number (n : Number) :
    (number n).differentiateWith closed again x known = some (ofInt 0) :=
  differentiateWith_independent (by simp [independent, isInvalid, occurrences])

theorem differentiateWith_element {sequence : String} {index : Expr} :
    (element sequence index).differentiateWith closed again x known = some (ofInt 0) := by
  cases h : independent x known (element sequence index) with
  | true => exact differentiateWith_independent h
  | false =>
    rw [differentiateWith_eq, h]
    rfl

theorem differentiateWith_boolean {op : BinaryOp} {u v : Expr} (hop : op.valueType = .boolean) :
    (binary op u v).differentiateWith closed again x known = some (ofInt 0) := by
  cases h : independent x known (binary op u v) with
  | true => exact differentiateWith_independent h
  | false =>
    rw [differentiateWith_eq, h]
    exact if_pos hop

/-- The derivative of a name is one, or the name with one more prime if it depends on the variable.
-/
theorem differentiateWith_var {name : String} (h : independent x known (var name) = false) :
    (var name).differentiateWith closed again x known =
      some (if name = x then ofInt 1 else var (Names.withPrimes name 1)) := by
  rw [differentiateWith_eq, h]
  rfl

theorem differentiateWith_unary {op : UnaryOp} {u : Expr}
    (h : independent x known (unary op u) = false) :
    (unary op u).differentiateWith closed again x known = do
      let du ← u.differentiateWith closed again x known
      return Derivative.unary op ⟨u, du⟩ := by
  rw [differentiateWith_eq, h]
  rfl

theorem differentiateWith_binary {op : BinaryOp} {u v : Expr} (hop : op.valueType ≠ .boolean)
    (h : independent x known (binary op u v) = false) :
    (binary op u v).differentiateWith closed again x known = do
      let du ← u.differentiateWith closed again x known
      let dv ← v.differentiateWith closed again x known
      return Derivative.binary x (independent x known) op ⟨u, du⟩ ⟨v, dv⟩ := by
  rw [differentiateWith_eq, h]
  exact if_neg hop

theorem differentiateWith_nary {op : Family} {us : List Expr}
    (h : independent x known (nary op us) = false) :
    (nary op us).differentiateWith closed again x known = do
      let slopes ← differentiateList closed again us x known
      return Derivative.nary op slopes := by
  rw [differentiateWith_eq, h]
  rfl

theorem differentiateWith_call {f : String} {primes : Nat} {u : Expr}
    (hf : (Names.isBuiltin f && primes != 0) = false)
    (h : independent x known (call f primes u) = false) :
    (call f primes u).differentiateWith closed again x known = do
      let du ← u.differentiateWith closed again x known
      return chain x (function f primes u) ⟨u, du⟩ := by
  rw [differentiateWith_eq, h]
  dsimp only
  rw [hf]
  rfl

theorem differentiateWith_primed {f : String} {primes : Nat} {u : Expr}
    (hf : (Names.isBuiltin f && primes != 0) = true)
    (h : independent x known (call f primes u) = false) :
    (call f primes u).differentiateWith closed again x known =
      (closed f primes u >>= fun e => again e x known) := by
  rw [differentiateWith_eq, h]
  dsimp only
  rw [hf]
  rfl

theorem differentiateWith_derivative {body : Expr} {name : String}
    (h : independent x known (derivative body name) = false) :
    (derivative body name).differentiateWith closed again x known =
      (body.differentiateWith closed again name (inside x known name) >>= fun first =>
        again first x known) := by
  rw [differentiateWith_eq, h]
  rfl

theorem differentiateWith_derivativeAt {body point : Expr} {name : String}
    (h : independent x known (derivativeAt body name point) = false) :
    (derivativeAt body name point).differentiateWith closed again x known =
      (body.differentiateWith closed again name (inside x known name) >>= fun first =>
        again (first.substituteName name point) x known) := by
  rw [differentiateWith_eq, h]
  rfl

/-- At every depth the rules are the same; only what was written out is treated differently. -/
theorem exists_differentiateWith (depth : Nat) (e : Expr) (x : String) (known : Scope) :
    ∃ again : Continue,
      differentiate? depth e x known = e.differentiateWith closedForm again x known := by
  cases depth with
  | zero => exact ⟨_, rfl⟩
  | succ depth => exact ⟨_, rfl⟩

/-- Several expressions are differentiated one by one. -/
theorem differentiateList_eq_some {us : List Expr} {slopes : List Slope} :
    differentiateList closed again us x known = some slopes ↔
      slopes.map Slope.value = us ∧
        ∀ s ∈ slopes, s.value.differentiateWith closed again x known = some s.slope := by
  induction us generalizing slopes with
  | nil =>
    rw [differentiateList, Option.some.injEq, eq_comm, List.map_eq_nil_iff]
    exact ⟨fun h => ⟨h, h ▸ List.forall_mem_nil _⟩, And.left⟩
  | cons u us ih =>
    constructor
    · intro h
      simp only [differentiateList, Option.bind_eq_bind, Option.bind_eq_some_iff, Option.pure_def,
        Option.some.injEq] at h
      obtain ⟨du, hdu, rest, hrest, rfl⟩ := h
      obtain ⟨rfl, heach⟩ := ih.1 hrest
      exact ⟨rfl, List.forall_mem_cons.2 ⟨hdu, heach⟩⟩
    · rintro ⟨hvalues, heach⟩
      obtain ⟨s, rest, rfl, rfl, rfl⟩ := List.map_eq_cons_iff.1 hvalues
      obtain ⟨hs, hrest⟩ := List.forall_mem_cons.1 heach
      rw [differentiateList, hs, ih.2 ⟨rfl, hrest⟩]
      rfl

/-! ## Rules -/

/-- How an expression gets its derivative. What had to be written out is differentiated by
`again`. -/
inductive Differentiates (closed : String → Nat → Expr → Option Expr) (again : Continue) :
    Expr → String → Scope → Expr → Prop
  | unread {e : Expr} {x : String} {known : Scope} (h : e.isInvalid = true) :
    Differentiates closed again e x known e
  | constant {e : Expr} {x : String} {known : Scope} (h : independent x known e = true) :
    Differentiates closed again e x known (ofInt 0)
  | var {name x : String} {known : Scope} (h : independent x known (.var name) = false) :
    Differentiates closed again (.var name) x known
      (if name = x then ofInt 1 else .var (Names.withPrimes name 1))
  | element (sequence : String) (index : Expr) (x : String) (known : Scope) :
    Differentiates closed again (.element sequence index) x known (ofInt 0)
  | unary {op : UnaryOp} {u du : Expr} {x : String} {known : Scope}
    (h : independent x known (.unary op u) = false)
    (hu : Differentiates closed again u x known du) :
    Differentiates closed again (.unary op u) x known (Derivative.unary op ⟨u, du⟩)
  | boolean {op : BinaryOp} (hop : op.valueType = .boolean) (u v : Expr) (x : String)
    (known : Scope) : Differentiates closed again (.binary op u v) x known (ofInt 0)
  | binary {op : BinaryOp} {u v du dv : Expr} {x : String} {known : Scope}
    (hop : op.valueType ≠ .boolean) (h : independent x known (.binary op u v) = false)
    (hu : Differentiates closed again u x known du)
    (hv : Differentiates closed again v x known dv) :
    Differentiates closed again (.binary op u v) x known
      (Derivative.binary x (independent x known) op ⟨u, du⟩ ⟨v, dv⟩)
  | nary {op : Family} {slopes : List Slope} {x : String} {known : Scope}
    (h : independent x known (.nary op (slopes.map Slope.value)) = false)
    (hslopes : ∀ s ∈ slopes, Differentiates closed again s.value x known s.slope) :
    Differentiates closed again (.nary op (slopes.map Slope.value)) x known
      (Derivative.nary op slopes)
  | primed {f : String} {primes : Nat} {u e d : Expr} {x : String} {known : Scope}
    (hf : (Names.isBuiltin f && primes != 0) = true)
    (h : independent x known (.call f primes u) = false) (he : closed f primes u = some e)
    (hd : again e x known = some d) : Differentiates closed again (.call f primes u) x known d
  | call {f : String} {primes : Nat} {u du : Expr} {x : String} {known : Scope}
    (hf : (Names.isBuiltin f && primes != 0) = false)
    (h : independent x known (.call f primes u) = false)
    (hu : Differentiates closed again u x known du) :
    Differentiates closed again (.call f primes u) x known (chain x (function f primes u) ⟨u, du⟩)
  | derivative {body first d : Expr} {name x : String} {known : Scope}
    (h : independent x known (.derivative body name) = false)
    (hbody : Differentiates closed again body name (inside x known name) first)
    (hd : again first x known = some d) :
    Differentiates closed again (.derivative body name) x known d
  | derivativeAt {body point first d : Expr} {name x : String} {known : Scope}
    (h : independent x known (.derivativeAt body name point) = false)
    (hbody : Differentiates closed again body name (inside x known name) first)
    (hd : again (first.substituteName name point) x known = some d) :
    Differentiates closed again (.derivativeAt body name point) x known d

variable {e d : Expr}

/-- What does not change has the derivative zero; otherwise the other rules decide. -/
theorem differentiates_of_rule (hd : e.differentiateWith closed again x known = some d)
    (hrule : independent x known e = false → Differentiates closed again e x known d) :
    Differentiates closed again e x known d := by
  cases hind : independent x known e with
  | true =>
    rw [differentiateWith_independent hind] at hd
    cases hd
    exact .constant hind
  | false => exact hrule hind

/-- What the program finds comes about by the rules. -/
theorem differentiates_of_differentiateWith
    (hd : e.differentiateWith closed again x known = some d) :
    Differentiates closed again e x known d := by
  induction e using Expr.induction generalizing x known d with
  | number n =>
    have hind : independent x known (number n) = true := by
      simp [independent, isInvalid, occurrences]
    rw [differentiateWith_independent hind] at hd
    cases hd
    exact .constant hind
  | var name =>
    refine differentiates_of_rule hd fun hind => ?_
    rw [differentiateWith_var hind] at hd
    cases hd
    exact .var hind
  | element sequence index _ =>
    rw [differentiateWith_element] at hd
    cases hd
    exact .element sequence index x known
  | unary op u ih =>
    refine differentiates_of_rule hd fun hind => ?_
    rw [differentiateWith_unary hind] at hd
    obtain ⟨du, hdu, hd⟩ := Option.bind_eq_some_iff.1 hd
    cases hd
    exact .unary hind (ih hdu)
  | binary op u v ihu ihv =>
    by_cases hop : op.valueType = .boolean
    · rw [differentiateWith_boolean hop] at hd
      cases hd
      exact .boolean hop u v x known
    · refine differentiates_of_rule hd fun hind => ?_
      rw [differentiateWith_binary hop hind] at hd
      obtain ⟨du, hdu, hd⟩ := Option.bind_eq_some_iff.1 hd
      obtain ⟨dv, hdv, hd⟩ := Option.bind_eq_some_iff.1 hd
      cases hd
      exact .binary hop hind (ihu hdu) (ihv hdv)
  | nary op es ih =>
    refine differentiates_of_rule hd fun hind => ?_
    rw [differentiateWith_nary hind] at hd
    obtain ⟨slopes, hslopes, hd⟩ := Option.bind_eq_some_iff.1 hd
    cases hd
    obtain ⟨rfl, heach⟩ := differentiateList_eq_some.1 hslopes
    exact .nary hind fun s hs => ih s.value (List.mem_map_of_mem hs) (heach s hs)
  | call f primes u ih =>
    refine differentiates_of_rule hd fun hind => ?_
    cases hf : Names.isBuiltin f && primes != 0 with
    | true =>
      rw [differentiateWith_primed hf hind] at hd
      obtain ⟨e, he, hd⟩ := Option.bind_eq_some_iff.1 hd
      exact .primed hf hind he hd
    | false =>
      rw [differentiateWith_call hf hind] at hd
      obtain ⟨du, hdu, hd⟩ := Option.bind_eq_some_iff.1 hd
      cases hd
      exact .call hf hind (ih hdu)
  | derivative body name ih =>
    refine differentiates_of_rule hd fun hind => ?_
    rw [differentiateWith_derivative hind] at hd
    obtain ⟨first, hfirst, hd⟩ := Option.bind_eq_some_iff.1 hd
    exact .derivative hind (ih hfirst) hd
  | derivativeAt body name point ihbody _ =>
    refine differentiates_of_rule hd fun hind => ?_
    rw [differentiateWith_derivativeAt hind] at hd
    obtain ⟨first, hfirst, hd⟩ := Option.bind_eq_some_iff.1 hd
    exact .derivativeAt hind (ihbody hfirst) hd
  | invalid issue =>
    cases hd
    exact .unread rfl
  | invalidPart issue part _ =>
    cases hd
    exact .unread rfl

/-- What comes about by the rules is what the program finds. -/
theorem Differentiates.eq_some (h : Differentiates closed again e x known d) :
    e.differentiateWith closed again x known = some d := by
  induction h with
  | unread h => rw [differentiateWith_eq, if_pos h]
  | constant h => exact differentiateWith_independent h
  | var h => exact differentiateWith_var h
  | element => exact differentiateWith_element
  | unary h _ ih =>
    rw [differentiateWith_unary h, ih]
    rfl
  | boolean hop => exact differentiateWith_boolean hop
  | binary hop h _ _ ihu ihv =>
    rw [differentiateWith_binary hop h, ihu, ihv]
    rfl
  | nary h _ ih =>
    rw [differentiateWith_nary h, differentiateList_eq_some.2 ⟨rfl, ih⟩]
    rfl
  | primed hf h he hd =>
    rw [differentiateWith_primed hf h, he]
    exact hd
  | call hf h _ ih =>
    rw [differentiateWith_call hf h, ih]
    rfl
  | derivative h _ hd ih =>
    rw [differentiateWith_derivative h, ih]
    exact hd
  | derivativeAt h _ hd ih =>
    rw [differentiateWith_derivativeAt h, ih]
    exact hd

/-- The rules give exactly the derivatives that are computed. -/
theorem differentiateWith_eq_some :
    e.differentiateWith closed again x known = some d ↔ Differentiates closed again e x known d :=
  ⟨differentiates_of_differentiateWith, Differentiates.eq_some⟩

end Formulary.Expr
