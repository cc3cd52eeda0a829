import Formulary.Proofs.Reading.Rearrangement

/-!
# The tree of a canonical text

`regrouped` is the tree that a canonical text is read as, up to rearranged signs. It differs from
the tree that was written where the base of a power ends in a negative literal: the power is then
read as one of the digits of that literal, below the minus sign. If all bases are closed, nothing
but signs moves (`rearranged_regrouped`).
-/

namespace Formulary.Expr

open Reading

/-- A base and the exponents after it, from the left. -/
def powers (base : Expr) (exponents : List Expr) : Expr := exponents.foldl (.binary .pow) base

/-- What an operand and the exponents after it are read as: parentheses keep the operand whole. -/
def enclosed (grouped : Bool) (read : List Expr → Expr) (exponents : List Expr) : Expr :=
  if grouped then powers (read []) exponents else read exponents

/-- The tree that the text of the expression is read as, if the text is followed by exponents. Those
after a negative literal belong to its digits. -/
def regrouped : Expr → List Expr → Expr
  | .number n, exponents =>
    if n.isNegative && !exponents.isEmpty then .unary .neg (powers (.number (-n)) exponents)
    else powers (.number n) exponents
  | .unary op operand, exponents =>
    .unary op (enclosed (operand.groupedLeft op.precedence) operand.regrouped exponents)
  | .binary .pow base exponent, exponents =>
    enclosed (base.groupedBase .pow) base.regrouped
      (if (Expr.binary .pow base exponent).endsNegative then [exponent.regrouped exponents]
      else exponent.regrouped [] :: exponents)
  | .binary op lhs rhs, exponents =>
    powers (.binary op (lhs.regrouped []) (rhs.regrouped [])) exponents
  | .element sequence index, exponents => powers (.element sequence (index.regrouped [])) exponents
  | .call function primes argument, exponents =>
    powers (.call function primes (argument.regrouped [])) exponents
  | .derivative body name, exponents => powers (.derivative (body.regrouped []) name) exponents
  | .derivativeAt body name point, exponents =>
    powers (.derivativeAt (body.regrouped []) name (point.regrouped [])) exponents
  | e, exponents => powers e exponents

theorem enclosed_nil (grouped : Bool) (read : List Expr → Expr) :
    enclosed grouped read [] = read [] := by
  cases grouped <;> rfl

/-- An operation that is no power is read on its own and is the base of the powers behind it. -/
theorem regrouped_binary {op : BinaryOp} (hop : op ≠ .pow) (lhs rhs : Expr) :
    (Expr.binary op lhs rhs).regrouped =
      powers (.binary op (lhs.regrouped []) (rhs.regrouped [])) := by
  cases op <;> first | exact absurd rfl hop | rfl

theorem rearranged_powers {a b : Expr} (h : Rearranged a b) {es fs : List Expr}
    (hes : List.Forall₂ Rearranged es fs) : Rearranged (powers a es) (powers b fs) := by
  induction hes generalizing a b with
  | nil => exact h
  | cons he _ ih => exact ih (.binary .pow h he)

theorem rearranged_powers_base {a b : Expr} (h : Rearranged a b) (es : List Expr) :
    Rearranged (powers a es) (powers b es) :=
  rearranged_powers h (List.forall₂_same.2 fun e _ => .refl e)

theorem rearranged_powers_recip (a : Expr) (es : List Expr) :
    Rearranged (powers (.unary .recip a) es) (.unary .recip (powers a es)) := by
  induction es generalizing a with
  | nil => exact .refl _
  | cons e es ih =>
    exact .trans (rearranged_powers_base (.recipPower a e) es) (ih (.binary .pow a e))

/-- What is rearranged on its own and under powers is so with and without parentheses. -/
theorem rearranged_enclosed {grouped : Bool} {a : Expr} {read : List Expr → Expr} {es : List Expr}
    (hself : Rearranged a (read []))
    (hes : grouped = false → Rearranged (powers a es) (read es)) :
    Rearranged (powers a es) (enclosed grouped read es) := by
  cases grouped
  · exact hes rfl
  · exact rearranged_powers_base hself es

/-- With closed bases the text is read as the expression itself, as long as the exponents after it
do not follow a negative literal. -/
theorem Writable.rearranged_regrouped {signs elements : Bool} {e : Expr}
    (h : Writable signs elements e) (hclosed : e.basesClosed = true) {es : List Expr}
    (hes : es = [] ∨ (.power ≤ e.precedence ∧ e.endsNegative = false)) :
    Rearranged (powers e es) (e.regrouped es) := by
  induction h generalizing es with
  | @number _ k _ _ =>
    have hwhole : ((Number.ofInt k).isNegative && !es.isEmpty) = false := by
      rcases hes with rfl | ⟨-, hnegative⟩
      · simp
      · rw [show (Number.ofInt k).isNegative = false from hnegative, Bool.false_and]
    rw [ofInt, regrouped, hwhole]
    exact .refl _
  | var _ => exact .refl _
  | element _ _ _ ih =>
    rw [basesClosed_eq] at hclosed
    exact rearranged_powers_base
      (.element _ (ih (by simpa [baseClosed, children] using hclosed) (.inl rfl))) es
  | @unary _ op u _ _ writable ih =>
    have hu : u.basesClosed = true := by
      rw [basesClosed_eq] at hclosed
      simpa [baseClosed, children] using hclosed
    rcases hes with rfl | ⟨hlevel, hnegative⟩
    · rw [regrouped, enclosed_nil]
      exact .unary op (ih hu (.inl rfl))
    · have htight : Precedence.power ≤ op.precedence := hlevel
      obtain rfl : op = .recip := by
        cases op <;> first | rfl | exact absurd htight (by decide)
      refine .trans (rearranged_powers_recip u es) (.unary .recip ?_)
      refine rearranged_enclosed (ih hu (.inl rfl)) fun hopen => ih hu (.inr ⟨?_, ?_⟩)
      · rw [writable.groupedLeft, decide_eq_false_iff_not] at hopen
        exact Nat.not_lt.1 hopen
      · rw [endsNegative, hopen] at hnegative
        exact hnegative
  | @binary _ op l r left right ihl ihr =>
    rw [basesClosed_eq] at hclosed
    simp only [children, List.all_cons, List.all_nil, Bool.and_eq_true] at hclosed
    obtain ⟨hbase, hl, hr, -⟩ := hclosed
    by_cases hop : op = .pow
    · subst hop
      have hlist : (if (Expr.binary .pow l r).endsNegative then [r.regrouped es]
          else r.regrouped [] :: es) = r.regrouped [] :: es := by
        rcases hes with rfl | ⟨-, hnegative⟩
        · exact ite_self _
        · rw [hnegative]
          rfl
      rw [regrouped, hlist]
      have hexponents : Rearranged (powers l (r :: es)) (powers l (r.regrouped [] :: es)) :=
        rearranged_powers_base (.binary .pow (.refl l) (ihr hr (.inl rfl))) es
      refine .trans hexponents (rearranged_enclosed (ihl hl (.inl rfl)) fun hopen => ?_)
      rw [baseClosed, hopen, Bool.false_or, Bool.not_eq_true'] at hbase
      rw [groupedBase, left.groupedLeft, Bool.or_eq_false_iff, decide_eq_false_iff_not] at hopen
      exact ihl hl (.inr ⟨Nat.not_lt.1 hopen.1, hbase⟩)
    · rw [regrouped_binary hop]
      exact rearranged_powers_base (.binary op (ihl hl (.inl rfl)) (ihr hr (.inl rfl))) es
  | call _ _ _ _ _ ih =>
    rw [basesClosed_eq] at hclosed
    exact rearranged_powers_base
      (.call _ _ (ih (by simpa [baseClosed, children] using hclosed) (.inl rfl))) es
  | derivative _ _ ih =>
    rw [basesClosed_eq] at hclosed
    exact rearranged_powers_base
      (.derivative _ (ih (by simpa [baseClosed, children] using hclosed) (.inl rfl))) es
  | derivativeAt _ _ _ ihl ihr =>
    rw [basesClosed_eq] at hclosed
    simp only [children, List.all_cons, List.all_nil, Bool.and_eq_true] at hclosed
    obtain ⟨-, hbody, hpoint, -⟩ := hclosed
    exact rearranged_powers_base
      (.derivativeAt _ (ihl hbody (.inl rfl)) (ihr hpoint (.inl rfl))) es

end Formulary.Expr
