import Formulary.Proofs.Exact.Value
import Formulary.Proofs.Expr.Traversal
import Formulary.Proofs.Reading.Writable

/-!
# Rearranged signs

A canonical text leaves out parentheses that make no difference to its value, and the tree that is
read from it is not always the tree that was written. A minus sign before a product goes to its
first factor, and one before a literal becomes part of it; the reciprocal of a base goes around the
power. `Rearranged` is the congruence of these steps, and they all keep the exact value.

One case does make a difference. A base of a power that ends in a negative literal, such as the
reciprocal of `-3`, is written without parentheses unless the base is that literal itself, and then
the power is read as part of the sign. `basesClosed` says that no base is of that kind.
-/

namespace Formulary.Expr

open Reading

/-! ## The relation -/

/-- The second expression is the first with some signs and reciprocals moved. -/
inductive Rearranged : Expr → Expr → Prop
  | refl (e : Expr) : Rearranged e e
  | trans {a b c : Expr} (first : Rearranged a b) (second : Rearranged b c) : Rearranged a c
  | element (sequence : String) {a b : Expr} (h : Rearranged a b) :
      Rearranged (.element sequence a) (.element sequence b)
  | unary (op : UnaryOp) {a b : Expr} (h : Rearranged a b) : Rearranged (.unary op a) (.unary op b)
  | binary (op : BinaryOp) {a b c d : Expr} (left : Rearranged a b) (right : Rearranged c d) :
      Rearranged (.binary op a c) (.binary op b d)
  | call (function : String) (primes : Nat) {a b : Expr} (h : Rearranged a b) :
      Rearranged (.call function primes a) (.call function primes b)
  | derivative (name : String) {a b : Expr} (h : Rearranged a b) :
      Rearranged (.derivative a name) (.derivative b name)
  | derivativeAt (name : String) {a b c d : Expr} (left : Rearranged a b)
      (right : Rearranged c d) : Rearranged (.derivativeAt a name c) (.derivativeAt b name d)
  | negLiteral (k : Int) : Rearranged (.unary .neg (.ofInt k)) (.ofInt (-k))
  | negProduct (a b : Expr) :
      Rearranged (.unary .neg (.binary .mul a b)) (.binary .mul (.unary .neg a) b)
  | negQuotient (a b : Expr) :
      Rearranged (.unary .neg (.binary .div a b)) (.binary .div (.unary .neg a) b)
  | recipPower (a b : Expr) :
      Rearranged (.binary .pow (.unary .recip a) b) (.unary .recip (.binary .pow a b))

/-- Moving signs keeps the exact value, at every assignment. -/
theorem Rearranged.value_eq {a b : Expr} (h : Rearranged a b) (I : Exact.Interpretation) :
    Exact.value I a = Exact.value I b := by
  induction h with
  | refl => rfl
  | trans _ _ ih1 ih2 => exact ih1.trans ih2
  | element sequence _ ih => funext ρ; rw [Exact.value, Exact.value, ih]
  | unary op _ ih => funext ρ; rw [Exact.value, Exact.value, ih]
  | binary op _ _ ihl ihr => funext ρ; rw [Exact.value, Exact.value, ihl, ihr]
  | call function primes _ ih => funext ρ; rw [Exact.value, Exact.value, ih]
  | derivative name _ ih => funext ρ; rw [Exact.value, Exact.value, ih]
  | derivativeAt name _ _ ihl ihr => funext ρ; rw [Exact.value, Exact.value, ihl, ihr]
  | negLiteral k =>
    funext ρ
    simp [Exact.value, Expr.ofInt, Number.ofInt, Exact.literal, Exact.unary]
  | negProduct a b =>
    funext ρ
    simp only [Exact.value]
    cases Exact.value I a ρ <;> cases Exact.value I b ρ <;>
      simp [Exact.unary, Exact.binary]
  | negQuotient a b =>
    funext ρ
    simp only [Exact.value]
    cases Exact.value I a ρ with
    | none => rfl
    | some q =>
      cases Exact.value I b ρ with
      | none => rfl
      | some r =>
        by_cases hr : r = 0
        · simp [Exact.unary, Exact.binary, Exact.quotient, hr]
        · simp [Exact.unary, Exact.binary, Exact.quotient, hr, neg_div]
  | recipPower a b =>
    funext ρ
    simp only [Exact.value]
    cases Exact.value I a ρ with
    | none => rfl
    | some q =>
      cases Exact.value I b ρ with
      | none => by_cases hq : q = 0 <;> simp [Exact.unary, Exact.quotient, hq]
      | some r => exact Exact.power_reciprocal q r

/-- Without signs there is nothing to move. -/
theorem Writable.eq_of_rearranged {elements : Bool} {a b : Expr} (hw : Writable false elements a)
    (h : Rearranged a b) : a = b := by
  induction h generalizing elements with
  | refl => rfl
  | trans _ _ ih1 ih2 =>
    have hfirst := ih1 hw
    exact hfirst.trans (ih2 (hfirst ▸ hw))
  | element sequence _ ih =>
    cases hw with
    | element _ writable _ => rw [ih writable]
  | binary op _ _ ihl ihr =>
    cases hw with
    | binary _ left right => rw [ihl left, ihr right]
  | call function primes _ ih =>
    cases hw with
    | call _ _ _ _ writable => rw [ih writable]
  | derivative name _ ih =>
    cases hw with
    | derivative _ writable => rw [ih writable]
  | derivativeAt name _ _ ihl ihr =>
    cases hw with
    | derivativeAt _ left right => rw [ihl left, ihr right]
  | recipPower a b =>
    cases hw with
    | binary _ left _ =>
      cases left with
      | unary signed _ _ => cases signed
  | _ =>
    cases hw with
    | unary signed _ _ => cases signed

/-! ## Bases that end in a negative literal -/

/-- The text of the expression ends in a negative literal that no parentheses enclose. -/
def endsNegative : Expr → Bool
  | .number n => n.isNegative
  | .unary op operand => !operand.groupedLeft op.precedence && operand.endsNegative
  | .binary op _ rhs => !rhs.groupedRight op.precedence && rhs.endsNegative
  | _ => false

/-- If the expression is a power, its base is in parentheses or does not end in a negative
literal. -/
def baseClosed : Expr → Bool
  | .binary .pow base _ => base.groupedBase .pow || !base.endsNegative
  | _ => true

/-- No power in the expression has a base that ends in a negative literal without parentheses. -/
def basesClosed (e : Expr) : Bool := e.nodes.all baseClosed

theorem basesClosed_eq (e : Expr) :
    e.basesClosed = (e.baseClosed && e.children.all basesClosed) := by
  rw [basesClosed, nodes_eq, List.all_cons, List.all_flatMap]
  rfl

end Formulary.Expr
