import Formulary.Proofs.Expr.Operations
import Formulary.Proofs.Reading.Leaves
import Formulary.Proofs.Reduction.Value
import Formulary.Proofs.Rule.History

/-!
# Negative literals switched off

Where negative literals are switched off, a minus sign in front of a literal is read as a negation,
and folding writes a negative result as one. So folding leaves no negative literal, and the rules
that are added under the option hold none.

Applying a rule looks at the option nowhere. There are two ways to a negative literal: the text that
a wildcard stands for is read with negative literals again, so that the negation of three becomes
minus three, and a substitution that puts two literals next to each other may take the larger from
the smaller one. `Offer.Unsigned` excludes them.
-/

namespace Formulary

namespace Expr

open Folding

variable {o : Options} {e : Expr}

/-! ## Literals -/

/-- No literal of the expression is negative. -/
def HasUnsignedLiterals (e : Expr) : Prop :=
  ∀ node ∈ e.nodes, ∀ n ∈ node.number?, n.isNegative = false

instance (e : Expr) : Decidable e.HasUnsignedLiterals :=
  inferInstanceAs (Decidable (∀ node ∈ e.nodes, ∀ n ∈ node.number?, n.isNegative = false))

theorem hasUnsignedLiterals_iff : e.HasUnsignedLiterals ↔
    (∀ n ∈ e.number?, n.isNegative = false) ∧ ∀ part ∈ e.children, part.HasUnsignedLiterals :=
  forall_mem_nodes

theorem hasUnsignedLiterals_number {n : Number} :
    (number n).HasUnsignedLiterals ↔ n.isNegative = false := by
  rw [hasUnsignedLiterals_iff]
  simp [number?, children]

/-- An expression that is not a literal has the literals of its parts. -/
theorem hasUnsignedLiterals_iff_children (h : e.number? = none) :
    e.HasUnsignedLiterals ↔ ∀ part ∈ e.children, part.HasUnsignedLiterals := by
  rw [hasUnsignedLiterals_iff, h]
  simp

theorem hasUnsignedLiterals_var (name : String) : (var name).HasUnsignedLiterals :=
  (hasUnsignedLiterals_iff_children rfl).2 (List.forall_mem_nil _)

/-- An expression with one part has the literals of that part. -/
theorem hasUnsignedLiterals_single {part : Expr} (h : e.number? = none)
    (hchildren : e.children = [part]) : e.HasUnsignedLiterals ↔ part.HasUnsignedLiterals := by
  rw [hasUnsignedLiterals_iff_children h, hchildren, List.forall_mem_singleton]

theorem hasUnsignedLiterals_pair {u v : Expr} (h : e.number? = none)
    (hchildren : e.children = [u, v]) :
    e.HasUnsignedLiterals ↔ u.HasUnsignedLiterals ∧ v.HasUnsignedLiterals := by
  rw [hasUnsignedLiterals_iff_children h, hchildren, forall_mem_pair]

theorem hasUnsignedLiterals_ofInt {k : ℤ} (hk : (Number.ofInt k).isNegative = false) :
    (ofInt k).HasUnsignedLiterals := hasUnsignedLiterals_number.2 hk

theorem structural_hasUnsignedLiterals : Structural HasUnsignedLiterals where
  zero := hasUnsignedLiterals_ofInt (by rw [Number.isNegative_ofInt] <;> decide)
  one := hasUnsignedLiterals_ofInt (by rw [Number.isNegative_ofInt] <;> decide)
  unary _ _ := hasUnsignedLiterals_single rfl rfl
  binary _ _ _ := hasUnsignedLiterals_pair rfl rfl
  nary _ _ := hasUnsignedLiterals_iff_children rfl

/-- A negative number is written as the negation of one that is not. -/
theorem hasUnsignedLiterals_literal (ho : o.negativeNumbers = false) (n : Number) :
    (literal o n).HasUnsignedLiterals := by
  unfold literal
  rw [ho, Bool.not_false, Bool.true_and]
  split
  · rename_i hnegative
    exact (hasUnsignedLiterals_single rfl rfl).2
      (hasUnsignedLiterals_number.2 (Number.isNegative_neg hnegative))
  · rename_i hnegative
    exact hasUnsignedLiterals_number.2 (Bool.eq_false_iff.2 hnegative)

/-- What is asked of an expression passes to its parts. -/
theorem readable_or_unsigned_of_child {part : Expr}
    (h : e.hasIssue = false ∨ e.HasUnsignedLiterals) (hpart : part ∈ e.children) :
    part.hasIssue = false ∨ part.HasUnsignedLiterals := by
  refine h.imp (fun hissue => ?_) fun hunsigned => (hasUnsignedLiterals_iff.1 hunsigned).2 part hpart
  rw [hasIssue_eq, Bool.or_eq_false_iff] at hissue
  exact Bool.eq_false_iff.2 (List.any_eq_false.1 hissue.2 part hpart)

/-- Folding leaves no negative literal. Only what could not be read stays as it is. -/
theorem hasUnsignedLiterals_fold (ho : o.negativeNumbers = false)
    (he : e.hasIssue = false ∨ e.HasUnsignedLiterals) : (e.fold o).HasUnsignedLiterals := by
  have h := structural_hasUnsignedLiterals
  have hliteral := hasUnsignedLiterals_literal ho
  have hparts {e part : Expr} (he : e.hasIssue = false ∨ e.HasUnsignedLiterals) :
      part ∈ e.children → part.hasIssue = false ∨ part.HasUnsignedLiterals :=
    readable_or_unsigned_of_child he
  induction e using Expr.induction with
  | number n => exact hliteral n
  | var name => exact hasUnsignedLiterals_var name
  | element sequence index ih =>
    exact (hasUnsignedLiterals_single rfl rfl).2 (ih (hparts he List.mem_cons_self))
  | unary op u ih => exact of_unary h hliteral op (ih (hparts he List.mem_cons_self))
  | binary op u v ihu ihv =>
    obtain ⟨hu, hv⟩ := forall_mem_pair.1 fun part hpart => hparts he hpart
    exact of_binary h hliteral op (ihu hu) (ihv hv)
  | nary op es ih =>
    rw [fold, foldList_eq_map]
    exact of_nary h hliteral op (List.forall_mem_map.2 fun e hmem => ih e hmem (hparts he hmem))
  | call f primes u ih =>
    exact (hasUnsignedLiterals_single rfl rfl).2 (ih (hparts he List.mem_cons_self))
  | derivative body name ih =>
    exact (hasUnsignedLiterals_single rfl rfl).2 (ih (hparts he List.mem_cons_self))
  | derivativeAt body name point ihbody ihpoint =>
    obtain ⟨hbody, hpoint⟩ := forall_mem_pair.1 fun part hpart => hparts he hpart
    exact (hasUnsignedLiterals_pair rfl rfl).2 ⟨ihbody hbody, ihpoint hpoint⟩
  | invalid issue => exact (hasUnsignedLiterals_iff_children rfl).2 (List.forall_mem_nil _)
  | invalidPart issue part _ =>
    obtain hissue | hunsigned := he
    · simp at hissue
    · exact hunsigned

theorem hasUnsignedLiterals_withChildren {parts : List Expr} (he : e.HasUnsignedLiterals)
    (hlength : parts.length = e.children.length) (hparts : ∀ part ∈ parts, part.HasUnsignedLiterals) :
    (e.withChildren parts).HasUnsignedLiterals := by
  rw [hasUnsignedLiterals_iff, number?_withChildren, children_withChildren hlength]
  exact ⟨(hasUnsignedLiterals_iff.1 he).1, hparts⟩

/-- Flattening keeps the literals. -/
theorem HasUnsignedLiterals.flatten (he : e.HasUnsignedLiterals) :
    e.flatten.HasUnsignedLiterals :=
  (Flattened.all_flattened structural_hasUnsignedLiterals
    (fun hpart he => (hasUnsignedLiterals_iff.1 he).2 _ hpart)
    hasUnsignedLiterals_withChildren he).whole

end Expr

/-! ## Reading -/

namespace Reading

open Formulary.Expr

/-- The reader puts no negative literal together: the sign stays in front of the literal. -/
theorem kept_hasUnsignedLiterals {settings : Settings} (hs : settings.negativeNumbers = false)
    (scope : Scope) :
    Kept settings scope
      (fun t => t.kind = .number → Double.Unsigned ((Double.read? t.lexeme).getD Double.nan))
      (fun _ e => e.HasUnsignedLiterals) where
  invalid _ _ := (hasUnsignedLiterals_iff_children rfl).2 (List.forall_mem_nil _)
  invalidPart _ _ he := (hasUnsignedLiterals_single rfl rfl).2 he
  number _ t ht hkind := by
    have hliteral := hasUnsignedLiterals_number.2 (Number.isNegative_ofDouble (ht hkind))
    unfold number
    dsimp only
    split
    · exact (hasUnsignedLiterals_single rfl rfl).2 hliteral
    · exact hliteral
  negative hnegative _ := by rw [hs] at hnegative; cases hnegative
  sign _ he := (hasUnsignedLiterals_single rfl rfl).2 he
  binary _ _ _ hl hr := (hasUnsignedLiterals_pair rfl rfl).2 ⟨hl, hr⟩
  var _ _ name _ _ _ := hasUnsignedLiterals_var name
  absolute he := by
    unfold callNamed
    exact (hasUnsignedLiterals_single rfl rfl).2 he
  call _ _ _ _ he := by
    unfold callNamed
    exact (hasUnsignedLiterals_single rfl rfl).2 he
  element _ _ _ _ he := by
    unfold element
    dsimp only
    split
    · exact (hasUnsignedLiterals_single rfl rfl).2 ((hasUnsignedLiterals_single rfl rfl).2 he)
    · exact (hasUnsignedLiterals_single rfl rfl).2 he
  openElement _ _ _ _ he :=
    (hasUnsignedLiterals_single rfl rfl).2 ((hasUnsignedLiterals_single rfl rfl).2 he)
  byX he := (hasUnsignedLiterals_single rfl rfl).2 he
  byXAt he hpoint := (hasUnsignedLiterals_pair rfl rfl).2 ⟨he, hpoint⟩
  derivative _ _ he := (hasUnsignedLiterals_single rfl rfl).2 he
  derivativeAt _ _ he hpoint := (hasUnsignedLiterals_pair rfl rfl).2 ⟨he, hpoint⟩

/-- A formula that is read with negative literals switched off has none. -/
theorem hasUnsignedLiterals_read (settings : Settings) (hs : settings.negativeNumbers = false)
    (scope : Scope) (source : String) : (read settings scope source).HasUnsignedLiterals :=
  group_kept (kept_hasUnsignedLiterals hs scope) _ _ true
    fun _ ht => ⟨unsigned_of_number ht, nofun⟩

end Reading

/-! ## Catalogs -/

namespace Catalog

open Formulary.Expr

variable {c : Catalog} {o : Options}

/-- No rule of the catalog writes a negative literal. -/
def Unsigned (c : Catalog) : Prop := ∀ r ∈ c.rules, r.replacement.HasUnsignedLiterals

/-- The side of an equation is read without negative literals if the option says so. -/
theorem hasUnsignedLiterals_readSide (ho : o.negativeNumbers = false) (side : String) :
    (readSide o side).HasUnsignedLiterals := by
  have hread := Reading.hasUnsignedLiterals_read ⟨o.negativeNumbers, false⟩ ho [] side
  unfold readSide
  dsimp only
  split
  · exact hread.flatten
  · exact hread

/-- A catalog stays without negative literals if the option is off in every call. -/
theorem unsigned_perform (hc : c.Unsigned) {call : Call}
    (hcall : ∀ o equation description valid oneWay,
      call = .add o equation description valid oneWay → o.negativeNumbers = false) :
    (c.perform call).2.Unsigned := by
  cases call with
  | add o equation description valid oneWay =>
    refine addInRounds_induction hc fun c pattern replacement hc => ?_
    unfold insert
    split
    · exact hc
    · exact List.forall_mem_append.2 ⟨hc, List.forall_mem_singleton.2
        (hasUnsignedLiterals_readSide (hcall _ _ _ _ _ rfl) replacement)⟩
  | disable o equation =>
    obtain ⟨f, hsame⟩ | ⟨n, c', hok, hc'⟩ := c.perform_disable_cases o equation
    · rwa [hsame]
    · rw [hc', Unsigned, disable_eq_ok hok]
      refine List.forall_mem_map.2 fun r hr => ?_
      rw [(later_disableFor (leftSide o equation) r).replacement_eq]
      exact hc r hr

/-- Rules that are added with negative literals switched off hold none. -/
theorem unsigned_after (hc : c.Unsigned) {calls : List Call}
    (hcalls : ∀ o equation description valid oneWay,
      Call.add o equation description valid oneWay ∈ calls → o.negativeNumbers = false) :
    (c.after calls).Unsigned := by
  induction calls generalizing c with
  | nil => exact hc
  | cons call calls ih =>
    refine ih (unsigned_perform hc fun o equation description valid oneWay heq => ?_)
      fun o equation description valid oneWay hmem => ?_
    · exact hcalls o equation description valid oneWay (heq ▸ List.mem_cons_self)
    · exact hcalls o equation description valid oneWay (List.mem_cons_of_mem _ hmem)

end Catalog

/-! ## Putting texts in place -/

namespace Substitution

/-- Two literals that come to stand next to each other give a negative one. -/
def turnsNegative (op : BinaryOp) (u v : Expr) : Bool :=
  (literals? op u v).any fun e => e.number?.any Number.isNegative

end Substitution

namespace Expr

open Substitution (without)

variable {e : Expr} {scope : Scope} {σ : Substitutions}

mutual

/-- Two literals that come to stand next to each other in the expression give a negative one. -/
def turnsNegative (scope : Scope) (σ : Substitutions) : Expr → Bool
  | number _ | var _ | invalid _ | invalidPart _ _ => false
  | element _ index => index.turnsNegative scope σ
  | unary _ operand => operand.turnsNegative scope σ
  | binary op lhs rhs =>
    lhs.turnsNegative scope σ || rhs.turnsNegative scope σ ||
      Substitution.turnsNegative op (lhs.substitute scope σ) (rhs.substitute scope σ)
  | nary _ operands => anyTurnsNegative scope σ operands
  | call _ _ argument => argument.turnsNegative scope σ
  | derivative body name => body.turnsNegative scope (without σ name)
  | derivativeAt body name point =>
    body.turnsNegative scope (without σ name) || point.turnsNegative scope σ

/-- Two literals in one of the expressions give a negative one. -/
def anyTurnsNegative (scope : Scope) (σ : Substitutions) : List Expr → Bool
  | [] => false
  | e :: es => e.turnsNegative scope σ || anyTurnsNegative scope σ es

end

theorem anyTurnsNegative_eq_any (scope : Scope) (σ : Substitutions) (es : List Expr) :
    anyTurnsNegative scope σ es = es.any (turnsNegative scope σ) := by
  induction es with
  | nil => rfl
  | cons e es ih => rw [anyTurnsNegative, ih, List.any_cons]

theorem hasUnsignedLiterals_binary {op : BinaryOp} {u v : Expr}
    (h : Substitution.turnsNegative op u v = false) (hu : u.HasUnsignedLiterals)
    (hv : v.HasUnsignedLiterals) : (Substitution.binary op u v).HasUnsignedLiterals := by
  unfold Substitution.binary
  unfold Substitution.turnsNegative at h
  cases hw : Substitution.literals? op u v with
  | none => exact (hasUnsignedLiterals_pair rfl rfl).2 ⟨hu, hv⟩
  | some w =>
    obtain ⟨m, n, k, -, -, rfl, -, -⟩ := Substitution.literals?_eq_some hw
    rw [hw] at h
    exact hasUnsignedLiterals_number.2 h

/-- The literals after a substitution are those of the expression, those that are put in place, and
the results of two that come to stand next to each other. -/
theorem HasUnsignedLiterals.substitute (he : e.HasUnsignedLiterals)
    (hσ : ∀ entry ∈ σ, (entry.2.toExpr scope).HasUnsignedLiterals)
    (h : e.turnsNegative scope σ = false) : (e.substitute scope σ).HasUnsignedLiterals := by
  have hstructural := structural_hasUnsignedLiterals
  induction e using Expr.induction generalizing σ with
  | number n => exact he
  | var name =>
    rw [Expr.substitute]
    cases hlookup : σ.lookup name with
    | none => exact he
    | some s => exact Substitution.of_lookup hσ hlookup
  | element sequence index ih =>
    exact (hasUnsignedLiterals_single rfl rfl).2
      (ih ((hasUnsignedLiterals_single rfl rfl).1 he) hσ h)
  | unary op u ih => exact (hstructural.unary op _).2 (ih ((hstructural.unary op u).1 he) hσ h)
  | binary op u v ihu ihv =>
    simp only [turnsNegative, Bool.or_eq_false_iff] at h
    obtain ⟨hu, hv⟩ := (hstructural.binary op u v).1 he
    exact hasUnsignedLiterals_binary h.2 (ihu hu hσ h.1.1) (ihv hv hσ h.1.2)
  | nary op es ih =>
    rw [turnsNegative, anyTurnsNegative_eq_any, List.any_eq_false] at h
    rw [Expr.substitute, substituteList_eq_map]
    refine (Substitution.nary_iff hstructural op).2 (List.forall_mem_map.2 fun e hmem => ?_)
    exact ih e hmem ((hstructural.nary op es).1 he e hmem) hσ (Bool.eq_false_iff.2 (h e hmem))
  | call f primes u ih =>
    exact (hasUnsignedLiterals_single rfl rfl).2
      (ih ((hasUnsignedLiterals_single rfl rfl).1 he) hσ h)
  | derivative body name ih =>
    exact (hasUnsignedLiterals_single rfl rfl).2
      (ih ((hasUnsignedLiterals_single rfl rfl).1 he) (Substitution.forall_mem_without hσ name) h)
  | derivativeAt body name point ihbody ihpoint =>
    simp only [turnsNegative, Bool.or_eq_false_iff] at h
    obtain ⟨hbody, hpoint⟩ := (hasUnsignedLiterals_pair rfl rfl).1 he
    exact (hasUnsignedLiterals_pair rfl rfl).2
      ⟨ihbody hbody (Substitution.forall_mem_without hσ name) h.1, ihpoint hpoint hσ h.2⟩
  | invalid issue => exact he
  | invalidPart issue part _ => exact he

end Expr

/-! ## Reduction -/

/-- No text that a wildcard stands for is read with a negative literal, and no two literals give one
when the texts are put in place. -/
structure Offer.Unsigned (offer : Offer) : Prop where
  texts : ∀ image ∈ offer.images, (Expr.ofText image.2).HasUnsignedLiterals
  formed : offer.rule.replacement.turnsNegative [] (Matching.substitutions offer.images) = false

instance (offer : Offer) : Decidable offer.Unsigned :=
  decidable_of_iff ((∀ image ∈ offer.images, (Expr.ofText image.2).HasUnsignedLiterals) ∧
    offer.rule.replacement.turnsNegative [] (Matching.substitutions offer.images) = false)
    ⟨fun h => ⟨h.1, h.2⟩, fun h => ⟨h.1, h.2⟩⟩

namespace Reduction

open Formulary.Expr

variable {c : Catalog} {o : Options} {e : Expr}

theorem hasUnsignedLiterals_offer (hc : c.Unsigned) {offer : Offer} (hoffer : offer? c e = some offer)
    (h : offer.Unsigned) : offer.result.HasUnsignedLiterals := by
  obtain ⟨-, r, hr, -, hfrom⟩ := offer?_eq_some hoffer
  obtain ⟨σ, -, rfl⟩ := Option.map_eq_some_iff.1 hfrom
  exact (hc r hr).substitute (List.forall_mem_map.2 h.texts) h.formed

/-- Applying rules brings in no negative literals unless an offer does. -/
theorem hasUnsignedLiterals_applyRules (hc : c.Unsigned) (count : Nat)
    (h : ∀ rewrite ∈ taken c count e, rewrite.2.Unsigned) (he : e.HasUnsignedLiterals) :
    (applyRules c count e).1.HasUnsignedLiterals := by
  induction count generalizing e with
  | zero => exact he
  | succ count ih =>
    rw [applyRules]
    rw [taken] at h
    cases hoffer : offer? c e with
    | none => exact he
    | some offer =>
      rw [hoffer, List.forall_mem_cons] at h
      exact ih h.2 (hasUnsignedLiterals_offer hc hoffer h.1)

/-- The induction is on the fuel: folding leaves no negative literal, and neither do the parts and
the rules after it. -/
theorem hasUnsignedLiterals_reduceWithin (ho : o.negativeNumbers = false) (hc : c.Unsigned)
    (fuel : Nat) (h : ∀ rewrite ∈ takenWithin c o fuel e, rewrite.2.Unsigned)
    (he : e.HasUnsignedLiterals) : (reduceWithin c o fuel e).1.HasUnsignedLiterals := by
  induction fuel generalizing e with
  | zero => exact he
  | succ fuel ih =>
    rw [takenWithin, List.forall_mem_append] at h
    rw [reduceWithin_succ]
    have hfolded := hasUnsignedLiterals_fold ho (.inr he)
    refine hasUnsignedLiterals_applyRules hc limit h.2
      (hasUnsignedLiterals_withChildren hfolded (List.length_map _) ?_)
    refine List.forall_mem_map.2 fun part hpart => ?_
    exact ih (fun rewrite hrewrite => h.1 rewrite (List.mem_flatMap.2 ⟨part, hpart, hrewrite⟩))
      ((hasUnsignedLiterals_iff.1 hfolded).2 part hpart)

/-- Only the folded expression is reduced. -/
theorem reduceWithin_fold (c : Catalog) (o : Options) (fuel : Nat) (e : Expr) :
    reduceWithin c o (fuel + 1) (e.fold o) = reduceWithin c o (fuel + 1) e := by
  rw [reduceWithin, reduceWithin, fold_fold]

theorem takenWithin_fold (c : Catalog) (o : Options) (fuel : Nat) (e : Expr) :
    takenWithin c o (fuel + 1) (e.fold o) = takenWithin c o (fuel + 1) e := by
  rw [takenWithin, takenWithin, fold_fold]

end Reduction

namespace Expr

open Reduction

variable {c : Catalog} {o : Options} {e : Expr}

/-- With negative literals switched off, folding leaves none of them, whatever literals there were
before. Reduction leaves none either, if no rule writes one and none comes up where a rule is
applied: in a text that is read again, or between two literals that are put next to each other. -/
theorem hasUnsignedLiterals_fold_reduce (ho : o.negativeNumbers = false)
    (he : e.hasIssue = false ∨ e.HasUnsignedLiterals) :
    (e.fold o).HasUnsignedLiterals ∧
      (c.Unsigned → (∀ rewrite ∈ e.rewrites c o, rewrite.2.Unsigned) →
        (e.reduce c o).1.HasUnsignedLiterals) := by
  have hfolded := hasUnsignedLiterals_fold ho he
  refine ⟨hfolded, fun hc h => ?_⟩
  rw [rewrites, ← takenWithin_fold] at h
  rw [reduce, ← reduceWithin_fold]
  exact hasUnsignedLiterals_reduceWithin ho hc _ h hfolded

/-- The negation of the folded literal stands outside of what the wildcards match. -/
theorem hasUnsignedLiterals_fold_reduce_difference :
    ∃ (o : Options) (c : Catalog) (e : Expr), o.negativeNumbers = false ∧
      c = ({} : Catalog).after [.add o "a-b==a+-b" "add the negation" true true] ∧
      e = ofText "(2-5)*(x-y)" ∧ (e.reduce c o).2.length = 1 ∧
      (e.reduce c o).1 = binary .mul (unary .neg (ofInt 3))
        (binary .add (var "x") (unary .neg (var "y"))) ∧
      (e.fold o).HasUnsignedLiterals ∧ (e.reduce c o).1.HasUnsignedLiterals := by
  refine ⟨{ negativeNumbers := false }, _, _, rfl, rfl, rfl, by decide +kernel, by decide +kernel,
    ?_⟩
  have h := hasUnsignedLiterals_fold_reduce
    (c := ({} : Catalog).after [.add { negativeNumbers := false } "a-b==a+-b" "add the negation"
      true true])
    (o := { negativeNumbers := false }) (e := ofText "(2-5)*(x-y)") rfl (.inl (by decide +kernel))
  refine ⟨h.1, h.2 (Catalog.unsigned_after (List.forall_mem_nil _) ?_) (by decide +kernel)⟩
  intro o equation description valid oneWay hmem
  cases List.mem_singleton.1 hmem
  rfl

/-- The text `-3` of the negation is read again as a literal. -/
theorem reduce_of_negated_literal :
    ∃ (o : Options) (c : Catalog) (e : Expr), o.negativeNumbers = false ∧
      c = ({} : Catalog).after [.add o "a+b==b*a" "swap" true true] ∧
      e = binary .add (var "x") (unary .neg (ofInt 3)) ∧
      e.hasIssue = false ∧ e.HasUnsignedLiterals ∧
      (e.reduce c o).1 = binary .mul (ofInt (-3)) (var "x") ∧
      ¬ (e.reduce c o).1.HasUnsignedLiterals := by
  refine ⟨{ negativeNumbers := false }, _, _, rfl, rfl, rfl, ?_⟩
  decide +kernel

end Expr

end Formulary
