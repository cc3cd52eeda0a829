import Formulary.Proofs.Environment.Operations
import Formulary.Proofs.Folding.Value
import Formulary.Proofs.Number.Rational
import Formulary.Proofs.Reading.Literal

/-!
# Calculated parameters

A parameter may be calculated by a formula in other parameters. Substituting and folding compute the
number of such a formula from the bottom up, and as long as that stays exact the folded formula is
the literal of its exact value (`Folds.of_calculable`).

Where negative numbers are switched off, the literal of a negative number is a negation, which is
not taken for a number: the value then goes through its double, and comes back exact only if it is a
small integer. With this the parameter is the exact value in precisely the other cases
(`addParameter_eq_iff`).
-/

namespace Formulary

open Exact

variable {o : Options} {scope : Scope} {σ : Substitutions} {known : String → Option Number}
  {I : Interpretation} {ρ : Assignment} {e u v : Expr} {p q r : ℚ} {n : Number}

/-! ## Computing from the bottom up -/

/-- A unary operation on a number. -/
def Folding.onNumber : UnaryOp → Number → Number
  | .plus, n => n
  | .neg, n => -n
  | .recip, n => n.inverse

namespace Expr

/-- A formula that a parameter can be calculated by: it is put together from small integer literals
and known names by arithmetic operations and powers with a literal as the exponent. -/
inductive Calculable (known : String → Option Number) : Expr → Prop where
  | number {k : Int} : k.natAbs < literalBound → Calculable known (ofInt k)
  | var {name : String} : (known name).isSome = true → Calculable known (var name)
  | unary (op : UnaryOp) {u : Expr} : Calculable known u → Calculable known (unary op u)
  | binary {op : BinaryOp} {u v : Expr} : op.family?.isSome = true → Calculable known u →
      Calculable known v → Calculable known (binary op u v)
  | power {u : Expr} {k : Nat} : Calculable known u → k < literalBound →
      Calculable known (binary .pow u (ofInt k))

/-- The number of an arithmetic expression, computed with numbers from the bottom up. -/
def computed? (known : String → Option Number) : Expr → Option Number
  | number n => some n
  | var name => known name
  | unary op u => (computed? known u).map (Folding.onNumber op)
  | binary op u v => do Folding.onNumbers? op (← computed? known u) (← computed? known v)
  | _ => none

/-- No number on the way leaves the fractions, nor does the negation of one that is written with a
sign. -/
def StaysExact (o : Options) (known : String → Option Number) (e : Expr) : Prop :=
  ∀ node ∈ e.nodes, ∀ n ∈ node.computed? known, ∀ k ∈ Folding.written o n, k.isExact = true

instance : Decidable (e.StaysExact o known) :=
  inferInstanceAs (Decidable (∀ node ∈ e.nodes, ∀ n ∈ node.computed? known,
    ∀ k ∈ Folding.written o n, k.isExact = true))

theorem Calculable.hasIssue (h : e.Calculable known) : e.hasIssue = false := by
  induction h with
  | number | var => simp [ofInt]
  | unary op _ ih => simpa using ih
  | binary _ _ _ ihu ihv => simp [ihu, ihv]
  | power _ _ ih => simp [ih, ofInt]

theorem Calculable.calls (h : e.Calculable known) : e.calls = [] := by
  induction h with
  | number | var => rfl
  | unary op _ ih => exact ih
  | binary _ _ _ ihu ihv => rw [Expr.calls, ihu, ihv, List.append_nil]
  | power _ _ ih => rw [Expr.calls, ih, ofInt, Expr.calls, List.append_nil]

/-- A calculable formula mentions known names only. -/
theorem Calculable.known_of_mem_occurrences (h : e.Calculable known) {name : String}
    (hname : name ∈ e.occurrences) : (known name).isSome = true := by
  induction h with
  | number => cases hname
  | var hknown =>
    rw [occurrences] at hname
    split at hname
    · cases hname
    · rwa [List.mem_singleton.1 hname]
  | unary op _ ih => exact ih hname
  | binary _ _ _ ihu ihv =>
    rw [occurrences] at hname
    exact (List.mem_append.1 hname).elim ihu ihv
  | power _ _ ih =>
    rw [occurrences] at hname
    exact (List.mem_append.1 hname).elim ih (List.not_mem_nil · |>.elim)

end Expr

/-! ## Folding to a literal -/

namespace Folding

/-- A fraction is found again in the literal that writes it. -/
theorem literal?_literal_exact (hfits : (Number.exact q).Fits)
    (hexact : ∀ k ∈ written o (.exact q), k.isExact = true) :
    literal? (literal o (.exact q)) = some (.exact q) := by
  unfold literal
  unfold written at hexact
  split
  · rename_i hnegative
    rw [if_pos hnegative] at hexact
    rw [Number.neg_eq_exact (hexact _ (by simp)), literal?, Number.neg_eq_of_fits, neg_neg]
    simpa using hfits.1
  · rfl

end Folding

/-- The number computed for an expression is an exact value, and the expression with known numbers
substituted is folded to its literal. -/
structure Folds (o : Options) (scope : Scope) (σ : Substitutions) (known : String → Option Number)
    (e : Expr) (q : ℚ) : Prop where
  computed : e.computed? known = some (.exact q)
  fits : (Number.exact q).Fits
  fold : (e.substitute scope σ).fold o = Folding.literal o (.exact q)
  /-- Two literals are put together as soon as they are substituted. -/
  literal : ∀ n, e.substitute scope σ = .number n → n = .exact q

namespace Folds

open Folding

/-- The literal of the number is read back from what is folded. -/
theorem literal?_fold (h : Folds o scope σ known e q) (hexact : e.StaysExact o known) :
    literal? ((e.substitute scope σ).fold o) = some (.exact q) := by
  rw [h.fold]
  exact literal?_literal_exact h.fits (hexact e (Expr.mem_nodes_self e) _ h.computed)

theorem number (hfits : (Number.exact q).Fits) :
    Folds o scope σ known (.number (.exact q)) q :=
  ⟨rfl, hfits, rfl, fun _ h => (Expr.number.inj h).symm⟩

theorem var {name : String} (hknown : known name = some (.exact q)) (hfits : (Number.exact q).Fits)
    (hσ : σ.lookup name = some (.expr (.number (.exact q)))) :
    Folds o scope σ known (.var name) q := by
  have hsubstitute : (Expr.var name).substitute scope σ = .number (.exact q) := by
    rw [Expr.substitute, hσ]
    rfl
  refine ⟨hknown, hfits, ?_, fun n h => ?_⟩
  · rw [hsubstitute, Expr.fold]
  · rw [hsubstitute] at h
    exact (Expr.number.inj h).symm

/-- An operation on a folded operand is folded. -/
theorem unary {op : UnaryOp} (hu : Folds o scope σ known u p)
    (hexact : (Expr.unary op u).StaysExact o known) (h : Exact.unary op p = some q) :
    Folds o scope σ known (.unary op u) q := by
  obtain ⟨hroot, hparts⟩ := Expr.forall_mem_nodes.1 hexact
  have hliteral := hu.literal?_fold (hparts u List.mem_cons_self)
  have hcomputed : (Expr.unary op u).computed? known = some (onNumber op (.exact p)) := by
    rw [Expr.computed?, hu.computed, Option.map_some]
  have hn : (onNumber op (.exact p)).isExact = true := hroot _ hcomputed _ (mem_written o _)
  have hvalue : onNumber op (.exact p) = .exact q ∧ (Number.exact q).Fits ∧
      Folding.unary o op ((u.substitute scope σ).fold o) = Folding.literal o (.exact q) := by
    cases op with
    | plus =>
      obtain rfl := Option.some.inj h
      exact ⟨rfl, hu.fits, hu.fold⟩
    | neg =>
      obtain rfl := Option.some.inj h
      have hneg : -Number.exact p = .exact (-p) := Number.neg_eq_exact hn
      refine ⟨hneg, hneg ▸ Number.fits_neg hu.fits, ?_⟩
      simp only [Folding.unary, hliteral, hneg]
    | recip =>
      obtain ⟨hp, hinverse⟩ := Number.inverse_eq_exact hn
      rw [Exact.unary, quotient, if_neg hp] at h
      obtain rfl := Option.some.inj h
      refine ⟨hinverse, hinverse ▸ Number.fits_inverse hu.fits, ?_⟩
      simp only [Folding.unary, hliteral, hinverse]
  obtain ⟨hresult, hfits, hfold⟩ := hvalue
  refine ⟨hresult ▸ hcomputed, hfits, ?_, fun n hn => ?_⟩
  · rw [Expr.substitute, Expr.fold, hfold]
  · rw [Expr.substitute] at hn
    cases hn

/-- An operation on two folded operands is folded, on the same numbers. -/
theorem binary {op : BinaryOp} (hu : Folds o scope σ known u p) (hv : Folds o scope σ known v r)
    (hexact : (Expr.binary op u v).StaysExact o known)
    (hnumbers : onNumbers? op (.exact p) (.exact r) = some n)
    (h : Exact.binary op p r = some q) : Folds o scope σ known (.binary op u v) q := by
  obtain ⟨hroot, hparts⟩ := Expr.forall_mem_nodes.1 hexact
  obtain ⟨hpartu, hpartv⟩ := Expr.forall_mem_pair.1 hparts
  have hcomputed : (Expr.binary op u v).computed? known = some n := by
    rw [Expr.computed?, hu.computed, hv.computed]
    exact hnumbers
  have hn : n.isExact = true := hroot n hcomputed n (mem_written o n)
  obtain rfl := onNumbers?_eq_exact hnumbers hn (fun _ => hv.fits) h
  have hfold : Folding.binary o op ((u.substitute scope σ).fold o) ((v.substitute scope σ).fold o) =
      Folding.literal o (.exact q) := by
    rw [Folding.binary, hu.literal?_fold hpartu, hv.literal?_fold hpartv]
    simp only [hnumbers]
  have hresult : ((Expr.binary op u v).substitute scope σ).fold o = Folding.literal o (.exact q) ∧
      ∀ n, (Expr.binary op u v).substitute scope σ = .number n → n = .exact q := by
    rw [Expr.substitute, Substitution.binary]
    cases hw : Substitution.literals? op (u.substitute scope σ) (v.substitute scope σ) with
    | none =>
      refine ⟨?_, fun n hn => by cases hn⟩
      rw [Option.getD_none, Expr.fold, hfold]
    | some w =>
      -- both operands are literals already, so they are the numbers computed for them
      obtain ⟨m, m', k, hum, hvm, rfl, -, hk⟩ := Substitution.literals?_eq_some hw
      obtain rfl := hu.literal m hum
      obtain rfl := hv.literal m' hvm
      obtain rfl : k = .exact q := Option.some.inj (hk.symm.trans hnumbers)
      exact ⟨rfl, fun n hn => (Expr.number.inj hn).symm⟩
  exact ⟨hcomputed, fits_onNumbers? hnumbers, hresult.1, hresult.2⟩

theorem exists_onNumbers? {op : BinaryOp} (hop : op.family?.isSome = true) (m n : Number) :
    ∃ k, onNumbers? op m n = some k := by
  cases op with
  | add | sub | mul | div => exact ⟨_, rfl⟩
  | pow | eq | and | or => cases hop

/-- A power with a small natural number as its exponent is computed. -/
theorem exists_onNumbers?_pow {k : ℕ} (hk : k < literalBound) (m : Number) :
    ∃ n, onNumbers? .pow m (.ofInt k) = some n := by
  have hsmall : (k : ℤ).natAbs < 2 ^ 53 := by
    unfold literalBound at hk
    omega
  have hexponent : Double.toInt (Number.ofInt k).value = k :=
    Double.toInt_of_is (Number.value_ofInt hsmall) hsmall
  have hinteger : (Number.ofInt k).isInteger = true :=
    beq_iff_eq.2 (Rat.den_natCast k)
  refine ⟨m.powNat k, ?_⟩
  rw [onNumbers?, if_pos hinteger, hexponent, Number.pow?, if_pos (Int.natCast_nonneg k),
    Int.toNat_natCast]

theorem fits_ofInt {k : ℤ} (hk : k.natAbs < literalBound) : (Number.ofInt k).Fits := by
  unfold literalBound at hk
  change Word.Fits (k : ℚ).num ∧ Word.Fits (k : ℚ).den
  rw [Rat.num_intCast, Rat.den_intCast]
  unfold Word.Fits Word.least Word.greatest
  omega

/-- What is calculated from exact numbers and stays exact is folded to the literal of its value. -/
theorem of_calculable
    (hknown : ∀ name n, known name = some n →
      n.Fits ∧ σ.lookup name = some (.expr (.number n)))
    (he : e.Calculable known) (hexact : e.StaysExact o known)
    (hvalue : value I e (fun name => (known name).bind Exact.literal) = some q) :
    Folds o scope σ known e q := by
  induction he generalizing q with
  | @number k hk =>
    obtain rfl := Option.some.inj hvalue
    exact .number (fits_ofInt hk)
  | @var name hname =>
    obtain ⟨n, hn⟩ := Option.isSome_iff_exists.1 hname
    obtain ⟨hfits, hlookup⟩ := hknown name n hn
    have hliteral : Exact.literal n = some q := by
      rw [value, hn] at hvalue
      exact hvalue
    cases n with
    | real v => cases hliteral
    | exact r =>
      obtain rfl := Option.some.inj hliteral
      exact .var hn hfits hlookup
  | unary op _ ih =>
    obtain ⟨p, hp, h⟩ := value_unary.1 hvalue
    have hparts := (Expr.forall_mem_nodes.1 hexact).2
    exact (ih (hparts _ List.mem_cons_self) hp).unary hexact h
  | binary hop _ _ ihu ihv =>
    obtain ⟨p, hp, r, hr, h⟩ := value_binary.1 hvalue
    obtain ⟨hu, hv⟩ := Expr.forall_mem_pair.1 (Expr.forall_mem_nodes.1 hexact).2
    obtain ⟨n, hnumbers⟩ := exists_onNumbers? hop (.exact p) (.exact r)
    exact (ihu hu hp).binary (ihv hv hr) hexact hnumbers h
  | @power u k _ hk ih =>
    obtain ⟨p, hp, r, hr, h⟩ := value_binary.1 hvalue
    obtain ⟨hu, -⟩ := Expr.forall_mem_pair.1 (Expr.forall_mem_nodes.1 hexact).2
    obtain rfl := Option.some.inj hr
    obtain ⟨n, hnumbers⟩ := exists_onNumbers?_pow hk (.exact p)
    exact (ih hu hp).binary (.number (fits_ofInt (k := k) hk)) hexact hnumbers h

end Folds

namespace Environment

open Folding

variable {env : Environment}

/-! ## Adding a calculated parameter -/

/-- All parameters are fractions of 64-bit words. -/
def HasExactParameters (env : Environment) : Prop :=
  ∀ entry ∈ env.parameters, ∃ r, entry.2 = .exact r ∧ entry.2.Fits

/-- What the names of parameters stand for. -/
def assignment (env : Environment) : Assignment :=
  fun name => (env.parameter? name).bind Exact.literal

theorem lookup_parameters (name : String) :
    (env.parameters.map fun (name, n) => (name, Substitution.expr (.number n))).lookup name =
      (env.parameter? name).map fun n => .expr (.number n) := by
  unfold parameter?
  induction env.parameters with
  | nil => rfl
  | cons entry entries ih =>
    rw [List.map_cons, List.lookup_cons, List.lookup_cons]
    cases name == entry.1
    · exact ih
    · rfl

theorem fits_of_parameter? (h : env.HasExactParameters) {name : String}
    (hn : env.parameter? name = some n) : n.Fits := by
  obtain ⟨r, -, hfits⟩ := h (name, n) (mem_of_lookup_eq_some hn)
  exact hfits

/-- The double that the literal of a number evaluates to. -/
theorem eval_neg_number (b : Bindings) (n : Number) :
    (Expr.unary .neg (.number n)).eval b = some (-n.value) := by
  rw [Expr.eval, Expr.outcome, Evaluation.evaluate?_eq]
  rfl

/-- What folding a calculable formula to a number gives: its value, or the double of the value where
the literal is written with a sign. -/
theorem foldNumber_of_calculable (h : env.HasExactParameters) (span : Span)
    (he : e.Calculable env.parameter?) (hexact : e.StaysExact env.options env.parameter?)
    (hvalue : value I e env.assignment = some q) :
    (Number.exact q).Fits ∧ env.foldNumber span e =
      .number (if env.options.negativeNumbers = true ∨ 0 ≤ q then .exact q
        else .ofDouble (Number.exact q).value) := by
  have hfolds : Folds env.options env.names
      (env.parameters.map fun (name, n) => (name, .expr (.number n))) env.parameter? e q := by
    refine .of_calculable (fun name n hn => ⟨fits_of_parameter? h hn, ?_⟩) he hexact hvalue
    rw [lookup_parameters, hn, Option.map_some]
  have hconstant : e.dependencies.all (fun name => (env.parameter? name).isSome) = true :=
    List.all_eq_true.2 fun name hname =>
      he.known_of_mem_occurrences (Expr.mem_dependencies.1 hname)
  refine ⟨hfolds.fits, ?_⟩
  rw [foldNumber, if_pos hconstant]
  dsimp only
  rw [hfolds.fold, Folding.literal, Number.isNegative_exact hfolds.fits]
  by_cases hq : 0 ≤ q
  · rw [decide_eq_false (not_lt.2 hq), Bool.and_false, if_neg Bool.false_ne_true,
      if_pos (.inr hq)]
  · cases hnegative : env.options.negativeNumbers with
    | true => rw [if_neg (by simp), if_pos (.inl rfl)]
    | false =>
      have hneg : (-Number.exact q).value = -(Number.exact q).value :=
        Number.value_neg (by rintro ⟨⟩; exact hq le_rfl)
      rw [decide_eq_true (not_le.1 hq), if_pos (by simp), if_neg (by simp [hq])]
      simp only [eval_neg_number, hneg, Double.neg_neg]

/-- A calculable formula calls no function, so reading it changes nothing. -/
theorem read_of_calculable {source : String}
    (he : (env.reading { constant := true } source).Calculable known)
    (hfold : env.foldNumber ⟨0, source.utf8ByteSize⟩ (env.reading { constant := true } source) =
      .number n) :
    env.read { constant := true } source = (.number n, env) := by
  have hregister : env.register (env.reading { constant := true } source) = env := by
    rw [register_eq, he.calls, withStandIns_of_known (List.forall_mem_nil _)]
  unfold reading at he hfold hregister
  unfold read
  dsimp only at he hfold hregister ⊢
  rw [he.hasIssue, if_neg Bool.false_ne_true, hregister, if_pos rfl, hfold]
  exact congrArg (·, env) (ite_self _)

theorem addParameter_formula {name source : String}
    (hread : env.read { constant := true } source = (.number n, env)) :
    env.addParameter name ⟨.formula source, none⟩ =
      if n.isNaN then
        (.error (.failed ⟨⟨0, source.utf8ByteSize⟩, .undefinedParameter name⟩), env)
      else (.ok n, env.putParameter name n) := by
  cases hn : n.isNaN <;> simp [addParameter, choose, hread, hn, Parameter.round]

/-- A parameter that is calculated from exact parameters by arithmetic that stays exact is the exact
value of its formula, and nothing but the parameter is added, unless negative numbers are switched
off and the value is negative and not a small integer. -/
theorem addParameter_eq_iff {name source : String} (h : env.HasExactParameters)
    (he : (env.reading { constant := true } source).Calculable env.parameter?)
    (hexact : (env.reading { constant := true } source).StaysExact env.options env.parameter?)
    (hvalue : value I (env.reading { constant := true } source) env.assignment = some q) :
    env.addParameter name ⟨.formula source, none⟩ =
        (.ok (.exact q), env.putParameter name (.exact q)) ↔
      env.options.negativeNumbers = true ∨ 0 ≤ q ∨ q.den = 1 ∧ q.num.natAbs < literalBound := by
  obtain ⟨hfits, hfold⟩ := foldNumber_of_calculable h ⟨0, source.utf8ByteSize⟩ he hexact hvalue
  rw [addParameter_formula (read_of_calculable he hfold), ← or_assoc]
  by_cases hkept : env.options.negativeNumbers = true ∨ 0 ≤ q
  · rw [if_pos hkept, Number.isNaN_exact hfits]
    exact iff_of_true rfl (.inl hkept)
  · rw [if_neg hkept, or_iff_right hkept]
    refine Iff.trans ?_ (Number.ofDouble_value_eq_iff hfits)
    constructor
    · intro hadded
      split at hadded
      · cases hadded
      · exact Except.ok.inj (Prod.ext_iff.1 hadded).1
    · intro hvalue
      rw [hvalue, Number.isNaN_exact hfits]
      rfl

/-- Without negative numbers a negative integer is still exact, although its literal is written with
a sign. -/
theorem addParameter_negative_integer :
    let env : Environment := { ofSeed 1234 with
      options := { negativeNumbers := false }, parameters := [("a", .exact (1 / 2))] }
    env.addParameter "b" ⟨.formula "1/2-a*3^2", none⟩ =
      (.ok (.exact (-4)), env.putParameter "b" (.exact (-4))) := by
  intro env
  let I : Interpretation := ⟨fun _ _ _ => none, fun _ _ => none, fun _ _ _ => none⟩
  have hread : env.reading { constant := true } "1/2-a*3^2" =
      .binary .sub (.binary .div (.ofInt 1) (.ofInt 2))
        (.binary .mul (.var "a") (.binary .pow (.ofInt 3) (.ofInt (2 : ℕ)))) := by
    decide +kernel
  have hinteger {k : ℤ} (hk : k.natAbs < literalBound) :
      (Expr.ofInt k).Calculable env.parameter? := .number hk
  have hcalculable : (env.reading { constant := true } "1/2-a*3^2").Calculable env.parameter? := by
    rw [hread]
    exact .binary rfl (.binary rfl (hinteger (by decide)) (hinteger (by decide)))
      (.binary rfl (.var (by decide)) (.power (hinteger (by decide)) (by decide)))
  have hexact : (env.reading { constant := true } "1/2-a*3^2").StaysExact env.options
      env.parameter? := by
    rw [hread]
    decide +kernel
  have hvalue : value I (env.reading { constant := true } "1/2-a*3^2") env.assignment =
      some (-4) := by
    rw [hread]
    decide +kernel
  have hparameters : env.HasExactParameters :=
    List.forall_mem_singleton.2 ⟨1 / 2, rfl, by decide +kernel⟩
  exact (addParameter_eq_iff hparameters hcalculable hexact hvalue).2
    (.inr (.inr (by decide +kernel)))

/-- Without negative numbers a negative fraction is registered as a double. -/
theorem addParameter_negative_fraction :
    let I : Interpretation := ⟨fun _ _ _ => none, fun _ _ => none, fun _ _ _ => none⟩
    let env : Environment := { ofSeed 1234 with options := { negativeNumbers := false } }
    let e := env.reading { constant := true } "0-1/3"
    env.HasExactParameters ∧ e.Calculable env.parameter? ∧
      e.StaysExact env.options env.parameter? ∧ value I e env.assignment = some (-1 / 3) ∧
      (env.addParameter "p" ⟨.formula "0-1/3", none⟩).1.toOption ≠ some (.exact (-1 / 3)) := by
  intro I env e
  have hread : e = .binary .sub (.ofInt 0) (.binary .div (.ofInt 1) (.ofInt 3)) := by
    decide +kernel
  have hinteger {k : ℤ} (hk : k.natAbs < literalBound) :
      (Expr.ofInt k).Calculable env.parameter? := .number hk
  refine ⟨List.forall_mem_nil _, ?_, ?_, ?_, by decide +kernel⟩
  · rw [hread]
    exact .binary rfl (hinteger (by decide)) (.binary rfl (hinteger (by decide))
      (hinteger (by decide)))
  · rw [hread]
    decide +kernel
  · rw [hread]
    decide +kernel

end Environment

end Formulary
