import Formulary.Proofs.Derivative.Levels
import Formulary.Proofs.Evaluation.Dependence
import Formulary.Proofs.Evaluation.Depth
import Mathlib.Logic.Relation
import Mathlib.Order.WellFounded

/-!
# Evaluations that end

A defined function is evaluated through its formula, which may call other defined functions. If no
chain of such calls goes on forever, and the expression and all formulas are disentangled, every
evaluation ends, within a depth that the nodes of the expression and of the formulas bound
(`ends_of_founded`). Without any function an operator may still capture a name of a point and go on
forever (`endless_of_captured_name`).

The depth is a sum of two parts: the levels of the expression, which an operator or a builtin
function with primes uses up one by one, and a bound for the functions that it calls (`Settles`). A
function calls only functions below it, and these leave its own formula to it, so that each formula
counts once.
-/

namespace Formulary

namespace Expr

/-- The functions that an expression calls, without the builtin ones. -/
def called (e : Expr) : List String := e.nodes.filterMap Functions.calledBy?

/-- The program's own bound is enough for all levels. -/
theorem levels_le_indirections (e : Expr) : e.levels ≤ e.indirections := by
  refine (Derivative.levels_le_countP e).trans (List.countP_mono_left fun node _ h => ?_)
  cases node with
  | call f primes u =>
    rw [Derivative.isWrittenOut, Bool.and_eq_true] at h
    rw [isIndirect, h.2, Bool.or_true]
  | derivative _ _ | derivativeAt _ _ _ => rfl
  | _ => cases h

/-- A disentangled expression that calls only functions of a set. -/
theorem Disentangled.levelled {e : Expr} (h : e.Disentangled) {F : String → Prop}
    (hF : ∀ f ∈ e.called, F f) : e.Levelled e.heavyVariables F e.levels := by
  refine ⟨Nat.le_refl _, fun node hnode => ⟨h node hnode, ?_⟩⟩
  cases node with
  | call f primes u =>
    intro hf
    exact hF f (List.mem_filterMap.2 ⟨_, hnode, by rw [Functions.calledBy?, hf]; rfl⟩)
  | _ => trivial

end Expr

namespace Evaluation

open Formulary.Expr

/-- The evaluation ends within its depth, with a value or without one. -/
def Ends {α : Type} (o : Except Obstacle α) : Prop := o ≠ .error .exhausted

theorem Ends.bind {α β : Type} {o : Except Obstacle α} {k : α → Except Obstacle β} (ho : Ends o)
    (hk : ∀ v, Ends (k v)) : Ends (o >>= k) := by
  cases o with
  | error obstacle =>
    intro h
    cases h
    exact ho rfl
  | ok v => exact hk v

theorem ends_ok {α : Type} (v : α) : Ends (.ok v) := nofun

theorem ends_undefined {α : Type} : Ends (.error .undefined : Except Obstacle α) := nofun

theorem ends_orUndefined (v : Option Float) : Ends (orUndefined v) := by
  cases v with
  | none => exact ends_undefined
  | some v => exact ends_ok v

/-- Finding an element ends, even where it traps. -/
theorem ends_elementAt (values : List Float) (v : Float) : Ends (elementAt values v) := by
  unfold elementAt
  dsimp only
  split
  · exact ends_undefined
  · split
    · exact ends_orUndefined _
    · intro h
      cases h

variable {b : Bindings} {fs : Functions} {V : List String} {F : String → Prop} {c d n : Nat}
  {e : Expr} {f : String}

/-! ## One level -/

/-- What an evaluation of an expression of `d` levels goes through ends. -/
structure Suffices (fs : Functions) (V : List String) (F : String → Prop) (d : Nat)
    (again : Bindings → Expr → Outcome) : Prop where
  expression {b : Bindings} {e : Expr} {c : Nat} (hb : b.functions = fs) (hc : c < d)
    (he : e.Levelled V F c) : Ends (again b e)
  primed {f : String} {primes : Nat} (hf : (Names.isBuiltin f && primes != 0) = true) (hd : 0 < d)
    (v : Float) : Ends (builtin again f primes v)
  function {b : Bindings} {f : String} (hb : b.functions = fs) (hf : F f) (primes : Nat)
    (v : Float) : Ends (defined again b f primes v)

variable {again : Bindings → Expr → Outcome}

theorem ends_evalList {op : Family} {es : List Expr} {before : Float}
    (h : ∀ e ∈ es, Ends (e.evalWith again b)) : Ends (evalList again b op before es) := by
  induction es generalizing before with
  | nil =>
    rw [evalList]
    exact ends_ok before
  | cons e es ih =>
    obtain ⟨he, hes⟩ := List.forall_mem_cons.1 h
    rw [evalList]
    exact he.bind fun v => ih hes

/-- The derivative that an operator stands for exists, with the levels of its body. -/
theorem slope?_levelled {body : Expr} (hbody : body.Levelled V F d) (b : Bindings) (name : String) :
    ∃ slope, slope? b body name = some slope ∧ slope.Levelled V F d := by
  rw [slope?_eq]
  obtain ⟨slope, hslope⟩ := Option.isSome_iff_exists.1
    (Derivative.isSome_differentiate?_depth hbody name (b.names.filter (· != name)))
  exact ⟨slope, hslope, (inherited_levelled V F).differentiate? _ hbody hslope⟩

/-- The evaluation of an expression of `d` levels ends if what it goes through does. -/
theorem Suffices.ends (h : Suffices fs V F d again) (hb : b.functions = fs)
    (he : e.Levelled V F d) : Ends (e.evalWith again b) := by
  have hclosed := closed_levelled V F d
  induction e using Expr.induction generalizing b with
  | number n =>
    rw [evalWith]
    exact ends_ok _
  | var name =>
    rw [evalWith]
    exact ends_orUndefined _
  | element sequence index ih =>
    rw [evalWith]
    cases b.sequence? sequence with
    | none => exact ends_undefined
    | some values =>
      cases hrow : withRow? b index with
      | none => exact ends_undefined
      | some b' =>
        have hb' : b'.functions = fs := (functions_withRow? hrow).trans hb
        exact (ih hb' (levelled_element.1 he)).bind fun v => ends_elementAt values v
  | unary op u ih =>
    rw [evalWith]
    exact (ih hb ((hclosed.unary op u).1 he)).bind fun _ => ends_ok _
  | binary op u v ihu ihv =>
    obtain ⟨hu, hv⟩ := (hclosed.binary op u v).1 he
    rw [evalWith]
    exact (ihu hb hu).bind fun _ => (ihv hb hv).bind fun _ => ends_ok _
  | nary op es ih =>
    have hes := (hclosed.nary op es).1 he
    rw [evalWith]
    exact ends_evalList fun e hmem => ih e hmem hb (hes e hmem)
  | call f primes u ih =>
    obtain ⟨hf, i, hi, hu⟩ := levelled_call.1 he
    rw [evalWith]
    refine (ih hb (hu.mono (by omega))).bind fun v => ?_
    cases hbuiltin : Names.isBuiltin f with
    | false => exact h.function hb (hf hbuiltin) primes v
    | true =>
      rw [if_pos rfl]
      by_cases hprimes : primes = 0
      · rw [builtin, if_pos hprimes]
        exact ends_orUndefined _
      · have hprimed : (Names.isBuiltin f && primes != 0) = true := by simp [hbuiltin, hprimes]
        rw [ownLevel, if_pos hprimed] at hi
        exact h.primed hprimed (by omega) v
  | derivative body name _ =>
    obtain ⟨i, hi, hbody⟩ := levelled_derivative.1 he
    obtain ⟨slope, hslope, hlevels⟩ := slope?_levelled hbody b name
    rw [evalWith, hslope]
    exact h.expression hb hi hlevels
  | derivativeAt body name point _ _ =>
    obtain ⟨i, j, hij, hheavy, haway, hbody, hpoint⟩ := levelled_derivativeAt.1 he
    obtain ⟨slope, hslope, hlevels⟩ := slope?_levelled hbody b name
    rw [evalWith, hslope]
    exact h.expression hb hij (hlevels.substituteName hpoint hheavy haway)
  | invalid issue =>
    rw [evalWith]
    exact ends_undefined
  | invalidPart issue part _ =>
    rw [evalWith]
    exact ends_undefined

theorem suffices_zero : Suffices fs V (fun _ => False) 0 again where
  expression _ hc := absurd hc (Nat.not_lt_zero _)
  primed _ hd := absurd hd (Nat.lt_irrefl 0)
  function _ hf := False.elim hf

/-- A builtin function with primes is written out without any, and ends at every depth. -/
theorem ends_builtin (hf : Names.isBuiltin f = true) (primes : Nat) (v : Float) (depth : Nat) :
    Ends (builtin (evaluate? depth) f primes v) := by
  obtain ⟨e, he⟩ := Option.isSome_iff_exists.1 (Derivative.isSome_closedAtX hf primes)
  have hform : Derivative.closedForm f primes (.var "x") = some e := by
    rw [Derivative.closedForm, he]
    exact congrArg some (if_pos rfl)
  have hlevels : e.Levelled [] (fun _ => False) 0 :=
    Derivative.levelled_of_elementary (elementary_closedAtX hf he)
  unfold builtin
  split
  · exact ends_orUndefined _
  · rw [hform]
    change Ends (evaluate? depth _ e)
    rw [evaluate?_eq]
    exact suffices_zero.ends rfl hlevels

/-! ## Every depth -/

/-- The function ends whenever it is evaluated with a depth of at least `c`. -/
def Settles (fs : Functions) (c : Nat) (f : String) : Prop :=
  ∀ ⦃depth : Nat⦄ ⦃b : Bindings⦄, c ≤ depth → b.functions = fs →
    ∀ primes v, Ends (defined (through depth) b f primes v)

/-- The levels of the expression come on top of the depth for the functions that it calls. -/
theorem ends_of_levelled (he : e.Levelled V (Settles fs c) d) (hb : b.functions = fs) {depth : Nat}
    (hdepth : d + c ≤ depth) : Ends (evaluate? depth b e) := by
  induction depth generalizing b d e with
  | zero =>
    obtain ⟨rfl, rfl⟩ : d = 0 ∧ c = 0 := by omega
    rw [evaluate?_eq]
    refine Suffices.ends ⟨fun _ hc => ?_, fun _ hd => ?_, fun hb hf => hf (Nat.zero_le _) hb⟩ hb he
    · cases hc
    · cases hd
  | succ depth ih =>
    rw [evaluate?_eq]
    refine Suffices.ends ⟨fun hb hi he => ih he hb (by omega), fun hf _ v => ?_,
      fun hb hf => hf (by omega) hb⟩ hb he
    exact ends_builtin ((Bool.and_eq_true _ _).mp hf).1 _ v depth

/-- Derivatives of a formula have no more levels than the formula. -/
theorem derivative?_levelled (he : e.Levelled V F d) (known : Scope) (input : String)
    (order : Nat) : ∃ slope, derivative? known input e order = some slope ∧ slope.Levelled V F d := by
  induction order with
  | zero => exact ⟨e, rfl, he⟩
  | succ order ih =>
    obtain ⟨slope, hslope, hlevels⟩ := ih
    obtain ⟨next, hnext⟩ := Option.isSome_iff_exists.1
      (Derivative.isSome_differentiate?_depth hlevels input known)
    refine ⟨next, ?_, (inherited_levelled V F).differentiate? _ hlevels hnext⟩
    rw [derivative?, hslope]
    exact hnext

/-- A function ends if those that its formula calls do, with as much more depth as the formula has
levels. -/
theorem settles_of_formula {input : String} {body : Expr}
    (hget : fs.get? f = some (.formula input body)) (hbody : body.Levelled V (Settles fs c) d)
    (hlt : d + c < n) : Settles fs n f := by
  intro depth b hdepth hb primes v
  obtain ⟨slope, hslope, hlevels⟩ := derivative?_levelled hbody b.names input primes
  cases depth with
  | zero => omega
  | succ depth =>
    unfold defined
    rw [hb, hget]
    dsimp only
    rw [hslope]
    have hbound : (b.bind input v).functions = fs := hb
    exact ends_of_levelled hlevels hbound (by omega)

/-- A stand-in ends at once, and so does a function without a meaning. -/
theorem settles_of_no_formula (h : ∀ input body, fs.get? f ≠ some (.formula input body)) :
    Settles fs c f := by
  intro depth b _ hb primes v
  unfold defined
  rw [hb]
  cases hget : fs.get? f with
  | none => exact ends_undefined
  | some d =>
    cases d with
    | standIn s => exact ends_ok _
    | formula input body => exact absurd hget (h input body)

end Evaluation

/-! ## Functions that call functions -/

namespace Functions

open Evaluation

variable {fs : Functions} {f : String}

/-- The functions that the formula of a function calls; a stand-in calls none. -/
def called (fs : Functions) (f : String) : List String :=
  match fs.get? f with
  | some (.formula _ body) => body.called
  | _ => []

theorem mem_called {g : String} :
    g ∈ fs.called f ↔ ∃ input body, fs.get? f = some (.formula input body) ∧ g ∈ body.called := by
  unfold called
  split
  · rename_i input body hget
    rw [hget]
    simp
  · rename_i hnone
    refine iff_of_false List.not_mem_nil ?_
    rintro ⟨input, body, hget, -⟩
    exact hnone input body hget

/-- The formula of the function `f` calls the function `g`. -/
def Below (fs : Functions) (g f : String) : Prop := g ∈ fs.called f

/-- No chain of calls goes on forever, and all formulas are disentangled. -/
structure Founded (fs : Functions) : Prop where
  wellFounded : WellFounded fs.Below
  disentangled {f input : String} {body : Expr} (hget : fs.get? f = some (.formula input body)) :
    body.Disentangled

/-- The functions with a name of a kind. -/
def restrict (fs : Functions) (kind : String → Bool) : Functions := ⟨fs.entries.filter (kind ·.1)⟩

theorem definedLevels_restrict_cons (entry : String × Definition)
    (entries : List (String × Definition)) (kind : String → Bool) :
    definedLevels (restrict ⟨entry :: entries⟩ kind) =
      (if kind entry.1 then levelsOf entry.2 else 0) + definedLevels (restrict ⟨entries⟩ kind) := by
  unfold restrict
  cases hkind : kind entry.1 <;> simp [definedLevels, hkind]

theorem definedLevels_restrict_mono {kind more : String → Bool}
    (h : ∀ g, kind g = true → more g = true) :
    definedLevels (fs.restrict kind) ≤ definedLevels (fs.restrict more) := by
  obtain ⟨entries⟩ := fs
  induction entries with
  | nil => exact Nat.le_refl _
  | cons entry entries ih =>
    rw [definedLevels_restrict_cons, definedLevels_restrict_cons]
    have hentry := h entry.1
    cases hkind : kind entry.1 with
    | false => simpa using Nat.le_add_left_of_le ih
    | true =>
      rw [hentry hkind]
      exact Nat.add_le_add_left ih _

/-- A function that is left out leaves room for its levels. -/
theorem definedLevels_restrict {d : Definition} (hget : fs.get? f = some d) {kind : String → Bool}
    (hkind : kind f = true) :
    levelsOf d + definedLevels (fs.restrict fun g => kind g && g != f) ≤
      definedLevels (fs.restrict kind) := by
  obtain ⟨entries⟩ := fs
  unfold get? at hget
  induction entries with
  | nil => cases hget
  | cons entry entries ih =>
    obtain ⟨g, d'⟩ := entry
    rw [definedLevels_restrict_cons, definedLevels_restrict_cons]
    dsimp only at hget ih ⊢
    rw [List.lookup_cons] at hget
    by_cases hg : f = g
    · subst hg
      rw [beq_self_eq_true] at hget
      cases hget
      have hrest : definedLevels (restrict ⟨entries⟩ fun g => kind g && g != f) ≤
          definedLevels (restrict ⟨entries⟩ kind) :=
        definedLevels_restrict_mono fun g hboth => ((Bool.and_eq_true _ _).mp hboth).1
      simpa [hkind] using hrest
    · rw [beq_eq_false_iff_ne.2 hg] at hget
      have hne : (g != f) = true := bne_iff_ne.2 (Ne.symm hg)
      have hrest := ih hget
      rw [hne, Bool.and_true]
      omega

/-- A function needs no more depth than the formulas of the functions it leads to. Those below it do
not lead back to it, so its own formula is left to it. -/
theorem Founded.settles (h : fs.Founded) (f : String) {kind : String → Bool}
    (hkind : ∀ g, Relation.ReflTransGen fs.Below g f → kind g = true) :
    Settles fs (definedLevels (fs.restrict kind)) f := by
  induction f using h.wellFounded.induction generalizing kind with
  | _ f ih =>
    by_cases hformula : ∃ input body, fs.get? f = some (.formula input body)
    · obtain ⟨input, body, hget⟩ := hformula
      have hcalled : ∀ g ∈ body.called,
          Settles fs (definedLevels (fs.restrict fun g => kind g && g != f)) g := by
        intro g hg
        have hbelow : fs.Below g f := mem_called.2 ⟨input, body, hget, hg⟩
        refine ih g hbelow fun k hk => ?_
        have hne : k ≠ f := by
          rintro rfl
          exact h.wellFounded.transGen.irrefl.irrefl k (Relation.TransGen.tail' hk hbelow)
        rw [hkind k (hk.tail hbelow), Bool.true_and, bne_iff_ne]
        exact hne
      have hroom := definedLevels_restrict hget (hkind f .refl)
      have hlevels := body.levels_le_indirections
      rw [levelsOf] at hroom
      exact settles_of_formula hget ((h.disentangled hget).levelled hcalled) (by omega)
    · exact settles_of_no_formula fun input body hget => hformula ⟨input, body, hget⟩

end Functions

namespace Evaluation

open Formulary.Expr

variable {b : Bindings} {e : Expr}

/-- The evaluation ends within the depth that it starts with, and more depth gives the same
answer. -/
theorem ends_of_founded (hb : b.functions.Founded) (he : e.Disentangled) {depth : Nat}
    (hdepth : Evaluation.depth b e ≤ depth) :
    Ends (evaluate? depth b e) ∧ evaluate? depth b e = evaluate? (Evaluation.depth b e) b e := by
  have hlevels : e.Levelled e.heavyVariables
      (Settles b.functions (definedLevels (b.functions.restrict fun _ => true))) e.levels :=
    he.levelled fun f _ => hb.settles f fun _ _ => rfl
  have henough : e.levels + definedLevels (b.functions.restrict fun _ => true) ≤
      Evaluation.depth b e := by
    have hall : b.functions.restrict (fun _ => true) = b.functions :=
      congrArg Functions.mk (List.filter_eq_self.2 fun _ _ => rfl)
    have hroom := Nat.add_le_add_right e.levels_le_indirections (definedLevels b.functions)
    rw [hall]
    exact hroom.trans ((Nat.le_add_left _ 48).trans Nat.lt_two_pow_self.le)
  have hends : Ends (evaluate? (Evaluation.depth b e) b e) := ends_of_levelled hlevels rfl henough
  have hsame := (evaluate?_refines hdepth b e).resolve_left hends
  exact ⟨hsame ▸ hends, hsame⟩

/-! ## Evaluations that do not end -/

theorem exhausted_sum {again : Bindings → Expr → Outcome} {es : List Expr}
    (h : e.evalWith again b = .error .exhausted) :
    (nary .sum (e :: es)).evalWith again b = .error .exhausted := by
  rw [evalWith, evalList, h]
  rfl

/-- An operator with a point that stands for a sum is evaluated through the first operand. -/
theorem exhausted_derivativeAt {body point first slope : Expr} {name : String} {es : List Expr}
    (hslope : slope? b body name = some slope)
    (hplaced : slope.substituteName name point = nary .sum (first :: es)) {depth : Nat}
    (h : ∀ less < depth, evaluate? less b first = .error .exhausted) :
    evaluate? depth b (derivativeAt body name point) = .error .exhausted := by
  have hthrough : (derivativeAt body name point).evalWith (through depth) b =
      through depth b (nary .sum (first :: es)) := by
    rw [evalWith, hslope, ← hplaced]
    rfl
  rw [evaluate?_eq, hthrough]
  cases depth with
  | zero => rfl
  | succ depth =>
    have hfirst := h depth (Nat.lt_succ_self depth)
    rw [evaluate?_eq] at hfirst
    rw [through, evaluate?_eq]
    exact exhausted_sum hfirst

/-- The operator by `y` captures the `y` of the point that takes the place of `x`, and two levels
further the expression is back. No function is called. -/
theorem endless_of_captured_name :
    ¬ (ofText "D(x*D(y*x,y,x),x,D(x*D(y*x,y,x),x,y))").Disentangled ∧
      ∀ depth, evaluate? depth {} (ofText "D(x*D(y*x,y,x),x,D(x*D(y*x,y,x),x,y))") =
        .error .exhausted := by
  have hread : ofText "D(x*D(y*x,y,x),x,D(x*D(y*x,y,x),x,y))" =
      derivativeAt (ofText "x*D(y*x,y,x)") "x" (ofText "D(x*D(y*x,y,x),x,y)") := by decide +kernel
  have houter : slope? {} (ofText "x*D(y*x,y,x)") "x" =
      some (nary .sum [ofText "D(y*x,y,x)", var "x"]) := by decide +kernel
  have hinner : slope? {} (ofText "y*D(x*D(y*x,y,x),x,y)") "y" =
      some (nary .sum [ofText "D(x*D(y*x,y,x),x,y)", var "y"]) := by decide +kernel
  have hcaptured : (nary .sum [ofText "D(y*x,y,x)", var "x"]).substituteName "x"
      (ofText "D(x*D(y*x,y,x),x,y)") = nary .sum
        [derivativeAt (ofText "y*D(x*D(y*x,y,x),x,y)") "y" (ofText "D(x*D(y*x,y,x),x,y)"),
          ofText "D(x*D(y*x,y,x),x,y)"] := by decide +kernel
  have hback : (nary .sum [ofText "D(x*D(y*x,y,x),x,y)", var "y"]).substituteName "y"
      (ofText "D(x*D(y*x,y,x),x,y)") = nary .sum
        [derivativeAt (ofText "x*D(y*x,y,x)") "x" (ofText "D(x*D(y*x,y,x),x,y)"),
          ofText "D(x*D(y*x,y,x),x,y)"] := by decide +kernel
  refine ⟨by decide +kernel, fun depth => ?_⟩
  rw [hread]
  induction depth using Nat.strong_induction_on with
  | _ depth ih =>
    refine exhausted_derivativeAt houter hcaptured fun less hless => ?_
    exact exhausted_derivativeAt hinner hback fun least hleast => ih least (hleast.trans hless)

end Evaluation

end Formulary
