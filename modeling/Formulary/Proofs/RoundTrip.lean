import Formulary.Expr.Equality
import Formulary.Proofs.Reading.Source
import Formulary.Proofs.Reading.Text
import Mathlib.Tactic.NormNum

/-!
# Writing and reading again

Two round trips. An expression without signs is read from its own text (`ofText_text`). An
expression that was read from a text is read again from its canonical text with the same value, as
long as the bases of its powers are closed (`text_reads_again`).
-/

namespace Formulary.Expr

open Reading

theorem Writable.endsNegative_eq_false {elements : Bool} {e : Expr}
    (h : Writable false elements e) : e.endsNegative = false := by
  induction h with
  | @number _ k small nonneg =>
    have hk := nonneg rfl
    have hbound : k.natAbs < 2 ^ 53 := by unfold literalBound at small; omega
    have hnegative : (Expr.ofInt k).endsNegative = decide (k < 0) := Number.isNegative_ofInt hbound
    rw [hnegative, decide_eq_false (by omega)]
  | unary signed _ _ _ => cases signed
  | binary op _ _ _ ihr => rw [endsNegative, ihr, Bool.and_false]
  | _ => rfl

/-- Without negative literals all bases are closed. -/
theorem Writable.basesClosed {elements : Bool} {e : Expr} (h : Writable false elements e) :
    e.basesClosed = true := by
  induction h with
  | number _ _ => rw [basesClosed_eq]; rfl
  | var _ => rw [basesClosed_eq]; rfl
  | unary signed _ _ _ => cases signed
  | @binary _ op l r left _ ihl ihr =>
    have hbase : (Expr.binary op l r).baseClosed = true := by
      cases op <;> simp [baseClosed, left.endsNegative_eq_false]
    rw [basesClosed_eq, hbase]
    simp [children, ihl, ihr]
  | element _ _ _ ih => rw [basesClosed_eq]; simp [baseClosed, children, ih]
  | call _ _ _ _ _ ih => rw [basesClosed_eq]; simp [baseClosed, children, ih]
  | derivative _ _ ih => rw [basesClosed_eq]; simp [baseClosed, children, ih]
  | derivativeAt _ _ _ ihl ihr => rw [basesClosed_eq]; simp [baseClosed, children, ihl, ihr]

/-- An expression without signs is read from its canonical text. -/
theorem ofText_text {e : Expr} (h : Writable false true e) : Expr.ofText e.text = e :=
  (h.eq_of_rearranged (.trans (h.rearranged_regrouped h.basesClosed (.inl rfl))
    (regains_text h).rearranged)).symm

theorem ofText_text_derivative :
    Expr.ofText (Expr.binary .sub (.var "a") (.binary .sub
        (.derivativeAt (.call "f" 2 (.var "x")) "x" (.ofInt 3)) (.element "c" (.var "k")))).text =
      .binary .sub (.var "a") (.binary .sub
        (.derivativeAt (.call "f" 2 (.var "x")) "x" (.ofInt 3)) (.element "c" (.var "k"))) := by
  have hcall : Writable false true (.call "f" 2 (.var "x")) :=
    .call (by decide +kernel) (by decide) (by decide) (by decide) (.var (by decide +kernel))
  have hpoint : Writable false true (.ofInt 3) := .number (by decide) (by decide)
  have helement : Writable false true (.element "c" (.var "k")) :=
    .element (by decide +kernel) (.var (by decide +kernel)) (by decide)
  exact ofText_text (.binary .sub (.var (by decide +kernel))
    (.binary .sub (.derivativeAt (by decide +kernel) hcall hpoint) helement))

/-- The canonical text of what was read without an issue is read without an issue. What is read has
the exact value of the regrouped expression, and that is the value of the expression itself as long
as the bases of powers are closed. -/
theorem text_reads_again {source : String} (hliterals : WholeLiterals source)
    (hissue : (Expr.ofText source).hasIssue = false) :
    (Expr.ofText (Expr.ofText source).text).hasIssue = false ∧
      (∀ I ρ, Exact.value I (Expr.ofText (Expr.ofText source).text) ρ =
        Exact.value I ((Expr.ofText source).regrouped []) ρ) ∧
      ((Expr.ofText source).basesClosed = true → ∀ I ρ,
        Exact.value I (Expr.ofText (Expr.ofText source).text) ρ =
          Exact.value I (Expr.ofText source) ρ) := by
  have hwritable := writable_ofText hliterals hissue
  have hregains := regains_text hwritable
  refine ⟨hregains.proper.noIssue, fun I ρ => ?_, fun hclosed I ρ => ?_⟩
  · rw [hregains.rearranged.value_eq I]
  · have hsame := hwritable.rearranged_regrouped hclosed (.inl rfl)
    rw [← hregains.rearranged.value_eq I, ← hsame.value_eq I]
    rfl

theorem text_reads_again_negated_product :
    WholeLiterals "-(x*y)+2" ∧ (Expr.ofText "-(x*y)+2").hasIssue = false ∧
      (Expr.ofText (Expr.ofText "-(x*y)+2").text).hasIssue = false ∧
      ∀ I ρ, Exact.value I (Expr.ofText (Expr.ofText "-(x*y)+2").text) ρ =
        Exact.value I (Expr.ofText "-(x*y)+2") ρ := by
  have hliterals : WholeLiterals "-(x*y)+2" := by decide +kernel
  have hissue : (Expr.ofText "-(x*y)+2").hasIssue = false := by decide +kernel
  have hclosed : (Expr.ofText "-(x*y)+2").basesClosed = true := by decide +kernel
  obtain ⟨hagain, -, hvalue⟩ := text_reads_again hliterals hissue
  exact ⟨hliterals, hissue, hagain, hvalue hclosed⟩

/-- A base that ends in a negative literal: `x^-3^2` is read as `x^(-(3^2))`. -/
theorem text_of_power_reads_differently :
    WholeLiterals "(x^-3)^2" ∧ (Expr.ofText "(x^-3)^2").hasIssue = false ∧
      (Expr.ofText (Expr.ofText "(x^-3)^2").text).hasIssue = false ∧
      ∃ ρ, ∀ I, Exact.value I (Expr.ofText (Expr.ofText "(x^-3)^2").text) ρ ≠
        Exact.value I (Expr.ofText "(x^-3)^2") ρ := by
  have hwritten : Expr.ofText "(x^-3)^2" =
      .binary .pow (.binary .pow (.var "x") (.ofInt (-3))) (.ofInt 2) := by decide +kernel
  have htext : (Expr.ofText "(x^-3)^2").text = "x^-3^2" := by decide +kernel
  have hread : Expr.ofText "x^-3^2" =
      .binary .pow (.var "x") (.unary .neg (.binary .pow (.ofInt 3) (.ofInt 2))) := by
    decide +kernel
  refine ⟨by decide +kernel, by decide +kernel, by decide +kernel, fun _ => some 2, fun I => ?_⟩
  rw [htext, hread, hwritten]
  simp [Exact.value, Exact.binary, Exact.unary, Exact.power, Exact.literal, Expr.ofInt,
    Number.ofInt]
  norm_num

end Formulary.Expr
