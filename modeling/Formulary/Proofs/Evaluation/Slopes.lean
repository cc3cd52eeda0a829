import Formulary.Proofs.Evaluation.Reads
import Formulary.Proofs.Expr.Operations

/-!
# Derivatives read no new names

Putting expressions in place and differentiating keep an expression within the names it reads, and
the derivative does not depend on which other names are known to be constant.
-/

namespace Formulary

/-- Leaving out the entries of a name. -/
theorem lookup_filter_ne {α : Type} (entries : List (String × α)) (name other : String) :
    (entries.filter (·.1 != name)).lookup other =
      if other = name then none else entries.lookup other := by
  induction entries with
  | nil => simp
  | cons entry entries ih =>
    obtain ⟨key, a⟩ := entry
    by_cases hkey : key = name
    · subst hkey
      rw [List.filter_cons_of_neg (by simp), ih]
      by_cases hother : other = key
      · rw [if_pos hother, if_pos hother]
      · rw [if_neg hother, if_neg hother, List.lookup_cons, beq_eq_false_iff_ne.2 hother]
    · rw [List.filter_cons_of_pos (by simpa using hkey), List.lookup_cons, List.lookup_cons, ih]
      by_cases hother : other = key
      · subst hother
        simp [hkey]
      · rw [beq_eq_false_iff_ne.2 hother]

namespace Substitution

theorem lookup_without (σ : Substitutions) (name other : String) :
    (without σ name).lookup other = if other = name then none else σ.lookup other :=
  lookup_filter_ne σ name other

end Substitution

namespace Expr

variable {S : List String} {N M : Set String}

/-! ## Putting expressions in place -/

theorem structural_of_closed {Q : Expr → Prop} (h : Derivative.Closed Q) : Structural Q where
  zero := h.ofInt 0
  one := h.ofInt 1
  unary := h.unary
  binary := h.binary
  nary := h.nary

/-- A name that is replaced is read no more, unless it is shielded. The induction goes below the
operators, where their variables are not replaced; below an operator with a point its variable is
read as well, if it is not shielded. -/
theorem Within.substitute {e : Expr} (he : Within .kept S M e) {scope : Scope} {σ : Substitutions}
    (hplaced : ∀ name s, σ.lookup name = some s → Within .kept S N (s.toExpr scope))
    (hnames : ∀ name ∈ M, name ∈ N ∨ name ∉ S ∧ (σ.lookup name).isSome) :
    Within .kept S N (e.substitute scope σ) := by
  induction e using Expr.induction generalizing σ M N with
  | number n => exact closed_within.number n
  | var name =>
    rw [Expr.substitute]
    cases hlookup : σ.lookup name with
    | some s => exact hplaced name s hlookup
    | none =>
      refine ⟨he.valid, fun other hother => ?_, he.shields⟩
      obtain hmem | ⟨-, hsome⟩ := hnames other (he.reads other hother)
      · exact hmem
      · have heq : other = name := by
          rw [readsWith] at hother
          split at hother
          · cases hother
          · exact List.mem_singleton.1 hother
        rw [heq, hlookup] at hsome
        cases hsome
  | element sequence index ih =>
    exact within_element.2 (ih (within_element.1 he) hplaced hnames)
  | unary op u ih => exact within_unary.2 (ih (within_unary.1 he) hplaced hnames)
  | binary op u v ihu ihv =>
    obtain ⟨hu, hv⟩ := within_binary.1 he
    exact (Substitution.binary_iff (structural_of_closed closed_within) closed_within.number op).2
      ⟨ihu hu hplaced hnames, ihv hv hplaced hnames⟩
  | nary op es ih =>
    rw [Expr.substitute, substituteList_eq_map]
    refine (Substitution.nary_iff (structural_of_closed closed_within) op).2 fun e he' => ?_
    obtain ⟨e, hmem, rfl⟩ := List.mem_map.1 he'
    exact ih e hmem (within_nary.1 he e hmem) hplaced hnames
  | call f primes u ih => exact within_call.2 (ih (within_call.1 he) hplaced hnames)
  | derivative body name ih =>
    obtain ⟨hshielded, hbody⟩ := within_derivative.1 he
    refine within_derivative.2 ⟨hshielded, ih hbody (fun other s hs => ?_) fun other hother => ?_⟩
    · rw [Substitution.lookup_without] at hs
      split at hs
      · cases hs
      · exact hplaced other s hs
    · obtain hmem | ⟨haway, hsome⟩ := hnames other hother
      · exact .inl hmem
      · refine .inr ⟨haway, ?_⟩
        rwa [Substitution.lookup_without, if_neg]
        rintro rfl
        exact haway (hshielded rfl)
  | derivativeAt body name point ihbody ihpoint =>
    obtain ⟨hbody, hpoint⟩ := within_derivativeAt.1 he
    refine within_derivativeAt.2
      ⟨ihbody hbody (fun other s hs => ?_) fun other hother => ?_, ihpoint hpoint hplaced hnames⟩
    · rw [Substitution.lookup_without] at hs
      split at hs
      · cases hs
      · exact (hplaced other s hs).mono (subset_inner name)
    · obtain hother | hname := hother
      · by_cases hname : other = name ∧ name ∉ S
        · exact .inl (.inr hname)
        · obtain hmem | ⟨haway, hsome⟩ := hnames other hother
          · exact .inl (.inl hmem)
          · refine .inr ⟨haway, ?_⟩
            rwa [Substitution.lookup_without, if_neg]
            rintro rfl
            exact hname ⟨rfl, haway⟩
      · exact .inl (.inr hname)
  | invalid issue => exact absurd he.valid (by simp)
  | invalidPart issue part ih => exact absurd he.valid (by simp)

/-- Putting one expression in the place of a name. -/
theorem Within.substituteName {e value : Expr} {name : String}
    (he : Within .kept S (inner S N name) e) (hvalue : Within .kept S N value) :
    Within .kept S N (e.substituteName name value) := by
  refine he.substitute (fun other s hs => ?_) fun other hother => ?_
  · rw [List.lookup_cons] at hs
    split at hs
    · cases hs
      exact hvalue
    · cases hs
  · obtain hmem | ⟨rfl, haway⟩ := hother
    · exact .inl hmem
    · exact .inr ⟨haway, by simp⟩

/-! ## Builtin functions with primes -/

open Formulary.Derivative

/-- An expression of arithmetic and builtin functions without primes that reads one name only. -/
inductive Elementary (x : String) : Expr → Prop
  | number (n : Number) : Elementary x (number n)
  | var {name : String} (h : name = x ∨ Names.isSpecial name = true) : Elementary x (var name)
  | unary (op : UnaryOp) {u : Expr} (h : Elementary x u) : Elementary x (unary op u)
  | binary (op : BinaryOp) {u v : Expr} (hu : Elementary x u) (hv : Elementary x v) :
    Elementary x (binary op u v)
  | nary (op : Family) {es : List Expr} (h : ∀ e ∈ es, Elementary x e) :
    Elementary x (nary op es)
  | call {f : String} (hf : Names.isBuiltin f = true) {u : Expr} (h : Elementary x u) :
    Elementary x (call f 0 u)

variable {x : String}

theorem closed_elementary : Closed (Elementary x) where
  number := .number
  euler := .var (.inr (by decide))
  unary op u := ⟨fun | .unary _ h => h, .unary op⟩
  binary op u v := ⟨fun | .binary _ hu hv => ⟨hu, hv⟩, fun ⟨hu, hv⟩ => .binary op hu hv⟩
  nary op es := ⟨fun | .nary _ h => h, .nary op⟩
  builtin hf hu := .call hf hu
  raise := fun hf (.call hbuiltin _) => absurd (hf.symm.trans hbuiltin) (by decide)

/-- The derivative of an elementary expression is elementary. -/
theorem Elementary.differentiates {closed : String → Nat → Expr → Option Expr} {again : Continue}
    {known : Scope} {e d : Expr} (he : Elementary x e)
    (hd : Differentiates closed again e x known d) : Elementary x d := by
  induction hd with
  | unread hinvalid => cases he <;> cases hinvalid
  | constant | boolean => exact .number _
  | element | derivative | derivativeAt => cases he
  | var hind =>
    cases he with
    | var hname =>
      obtain rfl | hspecial := hname
      · rw [if_pos rfl]
        exact .number _
      · simp [independent, isInvalid, occurrences, hspecial] at hind
  | unary _ _ ih =>
    cases he with
    | unary _ hu => exact closed_elementary.unaryRule _ ⟨hu, ih hu⟩
  | binary _ _ _ _ ihu ihv =>
    cases he with
    | binary _ hu hv => exact closed_elementary.binaryRule _ ⟨hu, ihu hu⟩ ⟨hv, ihv hv⟩
  | nary _ _ ih =>
    cases he with
    | nary _ hes =>
      refine closed_elementary.naryRule _ fun s hs => ?_
      have hvalue := hes s.value (List.mem_map_of_mem hs)
      exact ⟨hvalue, ih s hs hvalue⟩
  | primed hf =>
    cases he
    simp at hf
  | call hf _ _ ih =>
    cases he with
    | call hbuiltin hu =>
      exact closed_elementary.chain (closed_elementary.function hf (.call hbuiltin hu) hu)
        ⟨hu, ih hu⟩

theorem elementary_closedAtX {f : String} (hf : Names.isBuiltin f = true) {order : Nat} {e : Expr}
    (he : closedAtX f order = some e) : Elementary "x" e := by
  induction order generalizing e with
  | zero =>
    cases he
    exact .call hf (.var (.inl rfl))
  | succ order ih =>
    obtain ⟨d, hd, he⟩ := Option.bind_eq_some_iff.1 he
    exact (ih hd).differentiates (differentiateWith_eq_some.1 he)

section

variable {Q : Expr → Prop} (h : Closed Q)
  (hspecial : ∀ name, Names.isSpecial name = true → Q (Expr.var name))

include h hspecial

/-- An elementary expression is made of its name and what every closed property holds of. -/
theorem Elementary.inherits {e : Expr} (he : Elementary x e) (hx : Q (Expr.var x)) : Q e := by
  induction he with
  | number n => exact h.number n
  | @var name hname =>
    obtain rfl | hname := hname
    · exact hx
    · exact hspecial name hname
  | unary op _ ih => exact (h.unary op _).2 ih
  | binary op _ _ ihu ihv => exact (h.binary op _ _).2 ⟨ihu, ihv⟩
  | nary op _ ih => exact (h.nary op _).2 ih
  | call hf _ ih => exact h.builtin hf ih

/-- What is put in place of the name of an elementary expression decides about a closed property. -/
theorem Elementary.inherits_substituteName {e u : Expr} (he : Elementary x e) (hu : Q u) :
    Q (e.substituteName x u) := by
  unfold Expr.substituteName
  induction he with
  | number n => exact h.number n
  | @var name hname =>
    by_cases heq : name = x
    · simpa [Expr.substitute, heq, Substitution.toExpr] using hu
    · have hlookup : [(x, Substitution.expr u)].lookup name = none := by simp [heq]
      rw [Expr.substitute, hlookup]
      exact hspecial name (hname.resolve_left heq)
  | unary op _ ih => exact (h.unary op _).2 ih
  | binary op _ _ ihu ihv =>
    exact (Substitution.binary_iff (structural_of_closed h) h.number op).2 ⟨ihu, ihv⟩
  | @nary op es _ ih =>
    rw [Expr.substitute, substituteList_eq_map]
    refine (Substitution.nary_iff (structural_of_closed h) op).2 fun e he => ?_
    obtain ⟨e, hmem, rfl⟩ := List.mem_map.1 he
    exact ih e hmem
  | call hf _ ih => exact h.builtin hf ih

/-- A builtin function with primes that is written out is made of its argument. -/
theorem inherits_closedForm {f : String} (hf : Names.isBuiltin f = true) {primes : Nat} {u d : Expr}
    (hu : Q u) (hd : closedForm f primes u = some d) : Q d := by
  obtain ⟨e, he, hd⟩ := Option.bind_eq_some_iff.1 hd
  have helementary := elementary_closedAtX hf he
  split at hd
  · rename_i heq
    cases hd
    exact helementary.inherits h hspecial (heq ▸ hu)
  · cases hd
    exact helementary.inherits_substituteName h hspecial hu

end

theorem within_special {name : String} (hname : Names.isSpecial name = true) :
    Within .kept S N (Expr.var name) := ⟨by simp, by simp [readsWith, hname], by simp [shielded]⟩

/-- A builtin function with primes that is written out reads what its argument reads. -/
theorem Within.closedForm {f : String} (hf : Names.isBuiltin f = true) {primes : Nat} {u d : Expr}
    (hu : Within .kept S N u) (hd : closedForm f primes u = some d) : Within .kept S N d :=
  inherits_closedForm closed_within (fun _ => within_special) hf hu hd

/-! ## Derivatives -/

/-- Every name is the variable or known to be constant. -/
def Settled (N : Set String) (x : String) (known : Scope) : Prop :=
  ∀ name ∈ N, name = x ∨ name ∈ known

/-- Below an operator everything but its own variable is constant. -/
theorem Settled.inside {known : Scope} (h : Settled N x known) (name : String) :
    Settled (inner S N name) name (inside x known name) := by
  rintro other (hother | ⟨hname, -⟩)
  · unfold Derivative.inside
    by_cases hname : name = x
    · rw [if_pos hname, hname]
      exact h other hother
    · rw [if_neg hname]
      exact .inr (List.mem_cons.2 (h other hother))
  · exact .inl hname

theorem Settled.inside_of_subset {known : Scope} (h : Settled N x known) (name : String) :
    Settled N name (Derivative.inside x known name) := by
  intro other hother
  exact h.inside (S := []) name other (subset_inner name hother)

theorem Within.isInvalid {use : Use} {e : Expr} (h : Within use S N e) : e.isInvalid = false := by
  have hvalid := h.valid
  rw [hasIssue_eq, Bool.or_eq_false_iff] at hvalid
  exact hvalid.1

/-- The derivative reads no new names. -/
def Keeps (S : List String) (differentiate : Continue) : Prop :=
  ∀ ⦃e : Expr⦄ ⦃x : String⦄ ⦃known : Scope⦄ ⦃N : Set String⦄, Within .differentiated S N e →
    Settled N x known → ∀ ⦃d⦄, differentiate e x known = some d → Within .kept S N d

theorem keeps_none : Keeps S fun _ _ _ => none := by
  intro e x known N _ _ d hd
  cases hd

/-- The rules read no new names; `again` only sees expressions that were written out. -/
theorem Differentiates.kept {again : Continue} (hagain : Keeps S again) {known : Scope} {e d : Expr}
    (hd : Differentiates closedForm again e x known d) (he : Within .differentiated S N e)
    (hsettled : Settled N x known) : Within .kept S N d := by
  induction hd generalizing N with
  | unread hinvalid => exact absurd hinvalid (by simp [he.isInvalid])
  | constant | element | boolean => exact closed_within.ofInt 0
  | var hind =>
    rw [if_pos (eq_of_not_independent hind fun other hother hne =>
      (hsettled other (he.occurrences other hother)).resolve_left hne)]
    exact closed_within.ofInt 1
  | @unary op _ _ _ _ _ _ ih =>
    have hu := within_unary.1 he
    cases op with
    | plus => exact ih hu hsettled
    | neg => exact closed_within.negate (ih hu hsettled)
    | recip => exact closed_within.unaryRule .recip ⟨hu, ih hu.of_kept hsettled⟩
  | @binary op _ _ _ _ _ _ hop _ _ _ ihu ihv =>
    obtain ⟨hu, hv⟩ := within_binary.1 he
    cases hlinear : op.isLinear with
    | true =>
      rw [hlinear] at hu hv
      have hdu := ihu hu hsettled
      have hdv := ihv hv hsettled
      cases op with
      | add => exact closed_within.sum (by simp [hdu, hdv])
      | sub => exact closed_within.difference hdu hdv
      | mul | div | pow | eq | and | or => cases hlinear
    | false =>
      rw [hlinear] at hu hv
      exact closed_within.binaryRule op ⟨hu, ihu hu.of_kept hsettled⟩
        ⟨hv, ihv hv.of_kept hsettled⟩
  | @nary op slopes _ _ _ _ ih =>
    have hes (s : Slope) (hs : s ∈ slopes) := within_nary.1 he s.value (List.mem_map_of_mem hs)
    cases op with
    | sum => exact closed_within.sum (List.forall_mem_map.2 fun s hs => ih s hs (hes s hs) hsettled)
    | product =>
      exact closed_within.naryRule .product fun s hs =>
        ⟨hes s hs, ih s hs (hes s hs).of_kept hsettled⟩
  | primed hf _ hform hd =>
    have hbuiltin := (Bool.and_eq_true _ _).mp hf
    exact hagain ((within_call.1 he).closedForm hbuiltin.1 hform).of_kept hsettled hd
  | call hf _ _ ih =>
    have hu := within_call.1 he
    exact closed_within.chain (closed_within.function hf (within_call.2 hu) hu)
      ⟨hu, ih hu.of_kept hsettled⟩
  | derivative _ _ hd ih =>
    obtain ⟨-, hbody⟩ := within_derivative.1 he
    exact hagain (ih hbody (hsettled.inside_of_subset _)).of_kept hsettled hd
  | derivativeAt _ _ hd ih =>
    obtain ⟨hbody, hpoint⟩ := within_derivativeAt.1 he
    have hkept := ih hbody (hsettled.inside _)
    exact hagain (hkept.substituteName hpoint).of_kept hsettled hd

/-- One step of the differentiation reads no new names if what it goes on with does not. -/
theorem keeps_differentiateWith {again : Continue} (hagain : Keeps S again) :
    Keeps S fun e x known => e.differentiateWith closedForm again x known :=
  fun _ _ _ _ he hsettled _ hd => (differentiateWith_eq_some.1 hd).kept hagain he hsettled

/-- A derivative reads no new names. -/
theorem keeps_differentiate? (depth : Nat) : Keeps S (differentiate? depth) := by
  induction depth with
  | zero => exact keeps_differentiateWith keeps_none
  | succ depth ih => exact keeps_differentiateWith ih

/-! ## Known names -/

/-- Which other names are known does not matter to independence once all are settled. -/
theorem independent_congr {e : Expr} {known known' : Scope}
    (h : ∀ name ∈ e.occurrences, name = x ∨ name ∈ known)
    (h' : ∀ name ∈ e.occurrences, name = x ∨ name ∈ known') :
    independent x known e = independent x known' e := by
  unfold independent
  congr 1
  rw [Bool.eq_iff_iff, List.all_eq_true, List.all_eq_true]
  refine forall₂_congr fun name hname => ?_
  by_cases hx : name = x
  · simp [hx]
  · simp [hx, (h name hname).resolve_left hx, (h' name hname).resolve_left hx]

/-- A rule asks only four expressions whether they are constant. -/
theorem binary_congr {constant constant' : Expr → Bool} {u v : Slope} (op : BinaryOp)
    (hu : constant u.value = constant' u.value) (hv : constant v.value = constant' v.value)
    (hln : constant (call "ln" 0 u.value) = constant' (call "ln" 0 u.value))
    (hexp : constant (call "exp" 0 (.binary .mul v.value (call "ln" 0 u.value))) =
      constant' (call "exp" 0 (.binary .mul v.value (call "ln" 0 u.value)))) :
    Derivative.binary x constant op u v = Derivative.binary x constant' op u v := by
  cases op with
  | add | sub | eq | and | or => rfl
  | mul => simp only [Derivative.binary, mul, hu, hv]
  | div => simp only [Derivative.binary, div, hu, hv]
  | pow => simp only [Derivative.binary, pow, mul, ln, hv, hln, hexp]

/-- What changes does so with both scopes. -/
theorem Within.independent_eq {use : Use} {known known' : Scope} {e : Expr}
    (he : Within use S N e) (hk : Settled N x known) (hk' : Settled N x known') :
    independent x known e = independent x known' e :=
  independent_congr (fun name hname => hk name (he.occurrences name hname))
    fun name hname => hk' name (he.occurrences name hname)

/-- The derivative does not depend on which of the other names are known. -/
def Ignores (S : List String) (differentiate : Continue) : Prop :=
  ∀ ⦃e : Expr⦄ ⦃x : String⦄ ⦃known known' : Scope⦄ ⦃N : Set String⦄,
    Within .differentiated S N e → Settled N x known → Settled N x known' →
      differentiate e x known = differentiate e x known'

/-- The same rules apply with another scope. What was found on the way reads no new names, so
`again` does not see the difference, either. -/
theorem Differentiates.ignores {again : Continue} (hkeeps : Keeps S again)
    (hagain : Ignores S again) {known known' : Scope} {e d : Expr}
    (hd : Differentiates closedForm again e x known d) (he : Within .differentiated S N e)
    (hk : Settled N x known) (hk' : Settled N x known') :
    Differentiates closedForm again e x known' d := by
  induction hd generalizing known' N with
  | unread hinvalid => exact .unread hinvalid
  | constant hind => exact .constant (he.independent_eq hk hk' ▸ hind)
  | var hind => exact .var (he.independent_eq hk hk' ▸ hind)
  | element sequence index x known => exact .element sequence index x known'
  | boolean hop u v x known => exact .boolean hop u v x known'
  | unary hind _ ih =>
    have hu := (within_unary.1 he).operand _
    exact .unary (he.independent_eq hk hk' ▸ hind) (ih hu hk hk')
  | @binary op u v du dv x known hop hind _ _ ihu ihv =>
    obtain ⟨hu, hv⟩ := within_binary.1 he
    have hcongr {e : Expr} (h : ∀ name ∈ e.occurrences, name ∈ N) :
        independent x known e = independent x known' e :=
      independent_congr (fun name hname => hk name (h name hname))
        fun name hname => hk' name (h name hname)
    have hrule : Derivative.binary x (independent x known) op ⟨u, du⟩ ⟨v, dv⟩ =
        Derivative.binary x (independent x known') op ⟨u, du⟩ ⟨v, dv⟩ :=
      binary_congr op (hcongr hu.occurrences) (hcongr hv.occurrences) (hcongr hu.occurrences)
        (hcongr (List.forall_mem_append.2 ⟨hv.occurrences, hu.occurrences⟩))
    rw [hrule]
    exact .binary hop (he.independent_eq hk hk' ▸ hind) (ihu (hu.operand _) hk hk')
      (ihv (hv.operand _) hk hk')
  | nary hind _ ih =>
    have hes := within_nary.1 he
    exact .nary (he.independent_eq hk hk' ▸ hind) fun s hs =>
      ih s hs ((hes s.value (List.mem_map_of_mem hs)).operand _) hk hk'
  | primed hf hind hform hd =>
    have hbuiltin := (Bool.and_eq_true _ _).mp hf
    have hkept := (within_call.1 he).closedForm hbuiltin.1 hform
    exact .primed hf (he.independent_eq hk hk' ▸ hind) hform (hagain hkept.of_kept hk hk' ▸ hd)
  | call hf hind _ ih =>
    exact .call hf (he.independent_eq hk hk' ▸ hind) (ih (within_call.1 he).of_kept hk hk')
  | derivative hind hfirst hd ih =>
    obtain ⟨-, hbody⟩ := within_derivative.1 he
    have hkept := hfirst.kept hkeeps hbody (hk.inside_of_subset _)
    exact .derivative (he.independent_eq hk hk' ▸ hind)
      (ih hbody (hk.inside_of_subset _) (hk'.inside_of_subset _))
      (hagain hkept.of_kept hk hk' ▸ hd)
  | derivativeAt hind hfirst hd ih =>
    obtain ⟨hbody, hpoint⟩ := within_derivativeAt.1 he
    have hkept := hfirst.kept hkeeps hbody (hk.inside _)
    exact .derivativeAt (he.independent_eq hk hk' ▸ hind)
      (ih hbody (hk.inside _) (hk'.inside _))
      (hagain (hkept.substituteName hpoint).of_kept hk hk' ▸ hd)

/-- One step of the differentiation ignores what else is known if what it goes on with does. -/
theorem ignores_differentiateWith {again : Continue} (hkeeps : Keeps S again)
    (hagain : Ignores S again) :
    Ignores S fun e x known => e.differentiateWith closedForm again x known := by
  intro e x known known' N he hk hk'
  refine Option.ext fun d => ?_
  rw [differentiateWith_eq_some, differentiateWith_eq_some]
  exact ⟨fun hd => hd.ignores hkeeps hagain he hk hk', fun hd => hd.ignores hkeeps hagain he hk' hk⟩

theorem ignores_differentiate? (depth : Nat) : Ignores S (differentiate? depth) := by
  induction depth with
  | zero => exact ignores_differentiateWith keeps_none fun _ _ _ _ _ _ _ _ => rfl
  | succ depth ih => exact ignores_differentiateWith (keeps_differentiate? depth) ih

end Expr

end Formulary
