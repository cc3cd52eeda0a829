import Formulary.Evaluation
import Formulary.Proofs.Evaluation.Slopes
import Mathlib.Data.Set.Basic

/-!
# Evaluation depends on the names it reads

Without defined functions, two bindings that give the names an expression reads the same values give
the expression the same value. `Expr.dependencies` lists these names, but for those that leak: an
operator with a point leaves its own variable to be read if the point mentions it, or if an operator
without a point shields it.
-/

namespace Formulary

/-- Two bindings without defined functions that agree about the constants, the sequences and some
names, all of which have a value. -/
structure Bindings.AgreeOn (names : Set String) (b b' : Bindings) : Prop where
  undefined : b.functions = {} ∧ b'.functions = {}
  tolerance : b.tolerance = b'.tolerance
  sequences : ∀ name, b.sequence? name = b'.sequence? name
  specials : ∀ name, Names.isSpecial name = true → b.value? name = b'.value? name
  values : ∀ name ∈ names, ∃ v, b.value? name = some v ∧ b'.value? name = some v

namespace Expr

open Evaluation Formulary.Derivative

variable {S : List String} {N : Set String} {b b' : Bindings}

theorem mem_names_of_value? {name : String} {v : Float} (h : b.value? name = some v) :
    name ∈ b.names := by
  have hvalue : name ∈ b.values.map (·.1) :=
    List.mem_map.2 ⟨(name, v), mem_of_lookup_eq_some h, rfl⟩
  exact List.mem_append_left _ hvalue

/-- The variable of an operator and the bound names are all that there is to know. -/
theorem settled_names (h : ∀ name ∈ N, ∃ v, b.value? name = some v) (name : String) :
    Settled (inner S N name) name (b.names.filter (· != name)) := by
  rintro other (hother | ⟨heq, -⟩)
  · by_cases heq : other = name
    · exact .inl heq
    · obtain ⟨v, hv⟩ := h other hother
      exact .inr (List.mem_filter.2 ⟨mem_names_of_value? hv, by simpa using heq⟩)
  · exact .inl heq

theorem slope?_eq (b : Bindings) (body : Expr) (name : String) :
    slope? b body name =
      differentiate? (Derivative.depth body) body name (b.names.filter (· != name)) := rfl

/-- The index of a sequence is evaluated with the same bindings: its symbol has a value. -/
theorem withRow?_eq {index : Expr} (h : ∀ name ∈ index.occurrences, ∃ v, b.value? name = some v) :
    withRow? b index = some b := by
  unfold withRow?
  cases hdependencies : index.dependencies with
  | nil => rfl
  | cons symbol rest =>
    have hmem : symbol ∈ index.dependencies := by
      rw [hdependencies]
      exact List.mem_cons_self
    obtain ⟨v, hv⟩ := h symbol (mem_dependencies.1 hmem)
    simp only [hv]

/-! ## One level -/

section

variable {again : Bindings → Expr → Outcome}

theorem defined_eq {f : String} {primes : Nat} {v : Float} (h : b.functions = {}) :
    defined again b f primes v = .error .undefined := by
  rw [defined, h]
  rfl

theorem evalList_congr {op : Family} {es : List Expr} {before : Float}
    (h : ∀ e ∈ es, e.evalWith again b = e.evalWith again b') :
    evalList again b op before es = evalList again b' op before es := by
  induction es generalizing before with
  | nil => rw [evalList, evalList]
  | cons e es ih =>
    obtain ⟨he, hes⟩ := List.forall_mem_cons.1 h
    rw [evalList, evalList, he]
    exact bind_congr fun v => ih hes

/-- The derivative that an operator stands for is the same, and it reads what its body reads. -/
theorem slope?_congr {body : Expr} {name : String} {M : Set String} (hsub : M ⊆ inner S N name)
    (hbody : Within .differentiated S M body) (h : b.AgreeOn N b') :
    slope? b body name = slope? b' body name ∧
      ∀ d, slope? b body name = some d → Within .kept S M d := by
  have hleft : Settled M name (b.names.filter (· != name)) := fun other hother =>
    settled_names (fun _ hn => (h.values _ hn).imp fun _ hv => hv.1) name other (hsub hother)
  have hright : Settled M name (b'.names.filter (· != name)) := fun other hother =>
    settled_names (fun _ hn => (h.values _ hn).imp fun _ hv => hv.2) name other (hsub hother)
  rw [slope?_eq, slope?_eq]
  exact ⟨ignores_differentiate? _ hbody hleft hright,
    fun d hd => keeps_differentiate? _ hbody hleft hd⟩

/-- An evaluation depends on the names that it may read, if what it goes through does. -/
theorem evalWith_congr (h : b.AgreeOn N b')
    (hagain : ∀ e, Within .evaluated S N e → again b e = again b' e) {e : Expr}
    (he : Within .evaluated S N e) : e.evalWith again b = e.evalWith again b' := by
  induction e using Expr.induction with
  | number n => rw [evalWith, evalWith]
  | var name =>
    rw [evalWith, evalWith, name?, name?]
    cases hspecial : Names.isSpecial name with
    | true => rw [h.specials name hspecial]
    | false =>
      obtain ⟨v, hv, hv'⟩ := h.values name (he.occurrences name (by simp [occurrences, hspecial]))
      rw [hv, hv']
  | element sequence index ih =>
    have hindex := within_element.1 he
    have hrow := withRow?_eq fun name hname =>
      (h.values name (hindex.occurrences name hname)).imp fun _ hv => hv.1
    have hrow' := withRow?_eq fun name hname =>
      (h.values name (hindex.occurrences name hname)).imp fun _ hv => hv.2
    rw [evalWith, evalWith, h.sequences sequence, hrow, hrow']
    cases b'.sequence? sequence with
    | none => rfl
    | some values =>
      dsimp only
      rw [ih hindex]
  | unary op u ih => rw [evalWith, evalWith, ih (within_unary.1 he)]
  | binary op u v ihu ihv =>
    obtain ⟨hu, hv⟩ := within_binary.1 he
    rw [evalWith, evalWith, ihu hu, ihv hv, h.tolerance]
  | nary op es ih =>
    rw [evalWith, evalWith]
    exact evalList_congr fun e hmem => ih e hmem (within_nary.1 he e hmem)
  | call f primes u ih =>
    rw [evalWith, evalWith, ih (within_call.1 he)]
    refine bind_congr fun v => ?_
    rw [defined_eq h.undefined.1, defined_eq h.undefined.2]
  | derivative body name ih =>
    obtain ⟨-, hbody⟩ := within_derivative.1 he
    obtain ⟨hsame, hwithin⟩ := slope?_congr (subset_inner name) hbody h
    rw [evalWith, evalWith, ← hsame]
    cases hslope : slope? b body name with
    | none => rfl
    | some d => exact hagain d (hwithin d hslope).of_kept
  | derivativeAt body name point ihbody ihpoint =>
    obtain ⟨hbody, hpoint⟩ := within_derivativeAt.1 he
    obtain ⟨hsame, hwithin⟩ := slope?_congr subset_rfl hbody h
    rw [evalWith, evalWith, ← hsame]
    cases hslope : slope? b body name with
    | none => rfl
    | some d =>
      exact hagain _ ((hwithin d hslope).substituteName hpoint).of_kept
  | invalid issue => exact absurd he.valid (by simp)
  | invalidPart issue part ih => exact absurd he.valid (by simp)

end

/-! ## Every depth -/

theorem evaluate?_congr (h : b.AgreeOn N b') (depth : Nat) {e : Expr}
    (he : Within .evaluated S N e) : evaluate? depth b e = evaluate? depth b' e := by
  induction depth generalizing e with
  | zero => exact evalWith_congr h (fun _ _ => rfl) he
  | succ depth ih => exact evalWith_congr h (fun _ hd => ih hd) he

/-- Evaluation depends only on the values of the names it reads. -/
theorem outcome_congr {e : Expr} (hissue : e.hasIssue = false)
    (h : b.AgreeOn {name | name ∈ e.reads} b') : e.outcome b = e.outcome b' := by
  have hdepth : Evaluation.depth b e = Evaluation.depth b' e := by
    rw [Evaluation.depth, Evaluation.depth, h.undefined.1, h.undefined.2]
  have hwithin : Within .evaluated (e.shielded .evaluated) {name | name ∈ e.reads} e :=
    ⟨hissue, fun _ hname => hname, fun _ hname => hname⟩
  rw [outcome, outcome, hdepth, evaluate?_congr h _ hwithin]

/-- The value of an expression depends on the names that it reads. -/
theorem eval_congr {e : Expr} (hissue : e.hasIssue = false)
    (h : b.AgreeOn {name | name ∈ e.reads} b') : e.eval b = e.eval b' := by
  rw [eval, eval, outcome_congr hissue h]

/-- An operator with a point hides its variable: no operator without a point shields it, and the
point does not mention it. -/
def HidesVariable (shielded : List String) : Expr → Prop
  | derivativeAt _ name point => name ∉ shielded ∧ name ∉ point.occurrences
  | _ => True

/-- Where all operators hide their variables, only free names are read. -/
theorem readsWith_subset_occurrences {e : Expr} (h : ∀ node ∈ e.nodes, node.HidesVariable S) :
    e.readsWith S ⊆ e.occurrences := by
  induction e using Expr.induction with
  | number n => exact List.Subset.refl _
  | var name => exact List.Subset.refl _
  | element sequence index ih =>
    exact ih fun node hnode => h node (mem_nodes_of_child List.mem_cons_self hnode)
  | unary op u ih =>
    exact ih fun node hnode => h node (mem_nodes_of_child List.mem_cons_self hnode)
  | binary op u v ihu ihv =>
    have hleft := ihu fun node hnode => h node (mem_nodes_of_child List.mem_cons_self hnode)
    have hright := ihv fun node hnode =>
      h node (mem_nodes_of_child (List.mem_cons_of_mem _ List.mem_cons_self) hnode)
    rw [readsWith, occurrences]
    exact List.append_subset.2
      ⟨List.subset_append_of_subset_left _ hleft, List.subset_append_of_subset_right _ hright⟩
  | nary op es ih =>
    rw [readsWith, occurrences, readsListWith_eq_flatMap, occurrencesList_eq_flatMap]
    intro name hname
    obtain ⟨e, he, hname⟩ := List.mem_flatMap.1 hname
    have hsub := ih e he fun node hnode => h node (mem_nodes_of_child he hnode)
    exact List.mem_flatMap.2 ⟨e, he, hsub hname⟩
  | call f primes u ih =>
    exact ih fun node hnode => h node (mem_nodes_of_child List.mem_cons_self hnode)
  | derivative body name ih =>
    exact ih fun node hnode => h node (mem_nodes_of_child List.mem_cons_self hnode)
  | derivativeAt body name point ihbody ihpoint =>
    have hbody := ihbody fun node hnode => h node (mem_nodes_of_child List.mem_cons_self hnode)
    have hpoint := ihpoint fun node hnode =>
      h node (mem_nodes_of_child (List.mem_cons_of_mem _ List.mem_cons_self) hnode)
    obtain ⟨hshielded, hmention⟩ : name ∉ S ∧ name ∉ point.occurrences :=
      h (derivativeAt body name point) (mem_nodes_self _)
    intro other hother
    rw [readsWith, List.mem_append, List.mem_filter] at hother
    refine List.mem_filter.2 ?_
    obtain ⟨hother, hne⟩ | hother := hother
    · exact ⟨List.mem_append_left _ (hbody hother), by simpa [hshielded] using hne⟩
    · refine ⟨List.mem_append_right _ (hpoint hother), ?_⟩
      rw [bne_iff_ne]
      rintro rfl
      exact hmention (hpoint hother)
  | invalid issue => exact List.Subset.refl _
  | invalidPart issue part ih =>
    exact ih fun node hnode => h node (mem_nodes_of_child List.mem_cons_self hnode)

/-- The names that an expression reads although they are not free in it. -/
def leaked (e : Expr) : List String := e.reads.filter fun name => name ∉ e.dependencies

/-- Nothing leaks if all operators with a point hide their variables. Without such an operator there
is nothing to hide. -/
theorem leaked_eq_nil {e : Expr}
    (h : ∀ node ∈ e.nodes, node.HidesVariable (e.shielded .evaluated)) : e.leaked = [] := by
  refine List.filter_eq_nil_iff.2 fun name hname => ?_
  have hfree : name ∈ e.dependencies :=
    mem_dependencies.2 (readsWith_subset_occurrences h hname)
  simp [hfree]

/-- Bindings that agree on the free names and on the names that leak agree on all that is read. -/
theorem agreeOn_reads {e : Expr} (h : b.AgreeOn {name | name ∈ e.dependencies} b')
    (hleaked : ∀ name ∈ e.leaked, ∃ v, b.value? name = some v ∧ b'.value? name = some v) :
    b.AgreeOn {name | name ∈ e.reads} b' := by
  refine ⟨h.undefined, h.tolerance, h.sequences, h.specials, fun name hname => ?_⟩
  by_cases hfree : name ∈ e.dependencies
  · exact h.values name hfree
  · exact hleaked name (List.mem_filter.2 ⟨hname, by simpa using hfree⟩)

/-- If all operators with a point hide their variables, evaluation depends only on the free names. -/
theorem eval_eq_of_hidesVariable {e : Expr} (hissue : e.hasIssue = false)
    (hhides : ∀ node ∈ e.nodes, node.HidesVariable (e.shielded .evaluated))
    (h : b.AgreeOn {name | name ∈ e.dependencies} b') : e.eval b = e.eval b' := by
  refine eval_congr hissue (agreeOn_reads h fun name hname => ?_)
  rw [leaked_eq_nil hhides] at hname
  cases hname

/-- Evaluation depends only on the declared free names and the names that leak. -/
theorem eval_eq_of_dependencies {e : Expr} (hissue : e.hasIssue = false)
    (h : b.AgreeOn {name | name ∈ e.dependencies} b')
    (hleaked : ∀ name ∈ e.leaked, ∃ v, b.value? name = some v ∧ b'.value? name = some v) :
    e.eval b = e.eval b' :=
  eval_congr hissue (agreeOn_reads h hleaked)

/-- The slope of `x ^ 2 * y` at three has one free name, and it does not matter what `x` is bound
to. -/
theorem eval_slope_eq :
    (ofText "D(x^2*y,x,3)").hasIssue = false ∧ (ofText "D(x^2*y,x,3)").dependencies = ["y"] ∧
    (ofText "D(x^2*y,x,3)").leaked = [] ∧
    (ofText "D(x^2*y,x,3)").eval { values := [("y", 2)] } =
      (ofText "D(x^2*y,x,3)").eval { values := [("x", 5), ("y", 2)] } := by
  have hissue : (ofText "D(x^2*y,x,3)").hasIssue = false := by decide +kernel
  have hdependencies : (ofText "D(x^2*y,x,3)").dependencies = ["y"] := by decide +kernel
  have hleaked : (ofText "D(x^2*y,x,3)").leaked = [] := by decide +kernel
  refine ⟨hissue, hdependencies, hleaked,
    eval_eq_of_dependencies hissue ⟨⟨rfl, rfl⟩, rfl, ?_, ?_, ?_⟩ ?_⟩
  · intro name
    rfl
  · intro name hname
    have hx : name ≠ "x" := by
      rintro rfl
      exact absurd hname (by decide)
    simp [Bindings.value?, List.lookup_cons, beq_eq_false_iff_ne.2 hx]
  · intro name hname
    have hmem : name ∈ (ofText "D(x^2*y,x,3)").dependencies := hname
    rw [hdependencies, List.mem_singleton] at hmem
    exact ⟨2, by rw [hmem]; rfl, by rw [hmem]; rfl⟩
  · intro name hname
    rw [hleaked] at hname
    cases hname

/-- A point that mentions the variable of its operator, and an operator without a point that shields
the variable: neither expression has a free name, and the value of both depends on `x`. -/
theorem eval_of_own_variable :
    ((ofText "D(x^2,x,x)").hasIssue = false ∧ (ofText "D(x^2,x,x)").dependencies = [] ∧
      (ofText "D(x^2,x,x)").eval { values := [("x", 1)] } = some 2 ∧
      (ofText "D(x^2,x,x)").eval { values := [("x", 2)] } = some 4) ∧
    (ofText "D(D(x*x,x)*x,x,2)").hasIssue = false ∧
      (ofText "D(D(x*x,x)*x,x,2)").dependencies = [] ∧
      (ofText "D(D(x*x,x)*x,x,2)").eval { values := [("x", 1)] } = some 6 ∧
      (ofText "D(D(x*x,x)*x,x,2)").eval { values := [("x", 2)] } = some 8 := by
  decide +kernel

end Expr

end Formulary
