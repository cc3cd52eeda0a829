import Formulary.Proofs.Expr.Operations
import Formulary.Proofs.Reading.Source

/-!
# The indices of sequences

The index of an element depends on at most one name and contains no other element (`IsIndex`). The
reader sees to it, and flattening and folding keep it. `StandsAt` says where an expression may stand:
outside of every index, or inside of one, with the names that may occur there. Below an operator with
a point its variable may occur as well, since it is not free there.

A substitution goes into the indices and does not look at what it puts there. The expression is
indexed afterwards exactly if each index is one.
-/

namespace Formulary.Expr

/-! ## Indices -/

/-- The expression is an element of a sequence. -/
def isElement : Expr → Bool
  | element _ _ => true
  | _ => false

/-- The expression can be an index: it depends on at most one name and contains no element. -/
structure IsIndex (e : Expr) : Prop where
  single : e.dependencies.length ≤ 1
  plain : ∀ node ∈ e.nodes, node.isElement = false

/-- The index of an element can be one. -/
def HasIndex : Expr → Prop
  | element _ index => index.IsIndex
  | _ => True

/-- All elements in the expression have indices that can be ones. -/
def Indexed (e : Expr) : Prop := ∀ node ∈ e.nodes, node.HasIndex

instance (e : Expr) : Decidable e.IsIndex :=
  decidable_of_iff (e.dependencies.length ≤ 1 ∧ ∀ node ∈ e.nodes, node.isElement = false)
    ⟨fun h => ⟨h.1, h.2⟩, fun h => ⟨h.1, h.2⟩⟩

instance (e : Expr) : Decidable e.HasIndex :=
  match e with
  | element _ index => inferInstanceAs (Decidable index.IsIndex)
  | number _ | var _ | unary _ _ | binary _ _ _ | nary _ _ | call _ _ _ | derivative _ _
  | derivativeAt _ _ _ | invalid _ | invalidPart _ _ => .isTrue trivial

instance (e : Expr) : Decidable e.Indexed :=
  inferInstanceAs (Decidable (∀ node ∈ e.nodes, node.HasIndex))

/-! ## Places -/

/-- Where an expression stands: outside of every index, or inside of one, where only some names may
occur. -/
inductive Place where
  | outside
  | inside (names : Set String)

namespace Place

/-- The name may occur at the place. -/
def Allows : Place → String → Prop
  | outside, _ => True
  | inside names, name => name ∈ names

/-- The place below an operator with a point, where its variable may occur as well. -/
def under (name : String) : Place → Place
  | outside => outside
  | inside names => inside (insert name names)

end Place

/-- The expression may stand at a place. Elements stand outside of indices only, and one name may
occur in their own index. -/
inductive StandsAt : Place → Expr → Prop
  | number (p : Place) (n : Number) : StandsAt p (number n)
  | var {p : Place} {name : String} (h : Names.isSpecial name = true ∨ p.Allows name) :
    StandsAt p (var name)
  | element (sequence : String) {index : Expr} {symbol : String}
    (h : StandsAt (.inside {symbol}) index) : StandsAt .outside (element sequence index)
  | unary {p : Place} (op : UnaryOp) {u : Expr} (h : StandsAt p u) : StandsAt p (unary op u)
  | binary {p : Place} (op : BinaryOp) {u v : Expr} (hu : StandsAt p u) (hv : StandsAt p v) :
    StandsAt p (binary op u v)
  | nary {p : Place} (op : Family) {es : List Expr} (h : ∀ e ∈ es, StandsAt p e) :
      StandsAt p (nary op es)
  | call {p : Place} (f : String) (primes : Nat) {u : Expr} (h : StandsAt p u) :
    StandsAt p (call f primes u)
  | derivative {p : Place} {body : Expr} (name : String) (h : StandsAt p body) :
    StandsAt p (derivative body name)
  | derivativeAt {p : Place} {body point : Expr} {name : String} (hbody : StandsAt (p.under name) body)
    (hpoint : StandsAt (p.under name) point) : StandsAt p (derivativeAt body name point)
  | invalid (p : Place) (issue : Issue) : StandsAt p (invalid issue)
  | invalidPart {p : Place} (issue : Issue) {part : Expr} (h : StandsAt p part) :
    StandsAt p (invalidPart issue part)

variable {p : Place} {e : Expr} {N : Set String}

theorem standsAt_call {f : String} {primes : Nat} {u : Expr} :
    StandsAt p (call f primes u) ↔ StandsAt p u :=
  ⟨fun | .call _ _ h => h, .call f primes⟩

theorem standsAt_derivative {body : Expr} {name : String} :
    StandsAt p (derivative body name) ↔ StandsAt p body :=
  ⟨fun | .derivative _ h => h, .derivative name⟩

theorem standsAt_derivativeAt {body point : Expr} {name : String} :
    StandsAt p (derivativeAt body name point) ↔
      StandsAt (p.under name) body ∧ StandsAt (p.under name) point :=
  ⟨fun | .derivativeAt hbody hpoint => ⟨hbody, hpoint⟩, fun h => .derivativeAt h.1 h.2⟩

/-- What an operation may stand at, its parts may stand at, and the other way round. -/
theorem structural_standsAt (p : Place) : Structural (StandsAt p) where
  zero := .number p _
  one := .number p _
  unary op _ := ⟨fun | .unary _ h => h, .unary op⟩
  binary op _ _ := ⟨fun | .binary _ hu hv => ⟨hu, hv⟩, fun h => .binary op h.1 h.2⟩
  nary op _ := ⟨fun | .nary _ h => h, .nary op⟩

/-- Inside of an index there is no element, and only the names of the place are free. -/
theorem standsAt_inside_iff : StandsAt (.inside N) e ↔
    (∀ node ∈ e.nodes, node.isElement = false) ∧ ∀ name ∈ e.occurrences, name ∈ N := by
  have hplain {e : Expr} (h : e.isElement = false) :
      (∀ node ∈ e.nodes, node.isElement = false) ↔
        ∀ part ∈ e.children, ∀ node ∈ part.nodes, node.isElement = false := by
    rw [forall_mem_nodes, h]
    exact and_iff_right rfl
  have hsingle {e part : Expr} (h : e.isElement = false) (hchildren : e.children = [part]) :
      (∀ node ∈ part.nodes, node.isElement = false) ↔ ∀ node ∈ e.nodes, node.isElement = false := by
    rw [hplain h, hchildren, List.forall_mem_singleton]
  induction e using Expr.induction generalizing N with
  | number n =>
    rw [hplain rfl]
    simpa [children, occurrences] using StandsAt.number _ n
  | var name =>
    have hiff : StandsAt (.inside N) (var name) ↔ Names.isSpecial name = true ∨ name ∈ N := by
      constructor
      · intro h
        cases h with
        | var h => exact h
      · exact fun h => .var h
    rw [hplain rfl, hiff, occurrences]
    cases Names.isSpecial name <;> simp [children]
  | element sequence index _ =>
    constructor
    · intro h
      cases h
    · intro h
      cases h.1 _ (mem_nodes_self _)
  | unary op u ih =>
    refine ((structural_standsAt _).unary op u).trans (ih.trans ?_)
    exact and_congr_left' (hsingle rfl rfl)
  | binary op u v ihu ihv =>
    refine ((structural_standsAt _).binary op u v).trans ((and_congr ihu ihv).trans ?_)
    rw [hplain (e := binary op u v) rfl, children, forall_mem_pair, occurrences,
      List.forall_mem_append]
    exact and_and_and_comm
  | nary op es ih =>
    refine ((structural_standsAt _).nary op es).trans ((forall₂_congr fun e he => ih e he).trans ?_)
    rw [hplain (e := nary op es) rfl, occurrences, occurrencesList_eq_flatMap, List.forall_mem_flatMap]
    exact forall₂_and
  | call f primes u ih =>
    exact standsAt_call.trans (ih.trans (and_congr_left' (hsingle rfl rfl)))
  | derivative body name ih =>
    exact standsAt_derivative.trans (ih.trans (and_congr_left' (hsingle rfl rfl)))
  | derivativeAt body name point ihbody ihpoint =>
    -- the variable of the operator may occur below it and is taken out of what is free
    refine standsAt_derivativeAt.trans ((and_congr ihbody ihpoint).trans ?_)
    rw [hplain (e := derivativeAt body name point) rfl, children, forall_mem_pair, occurrences,
      and_and_and_comm]
    refine and_congr_right' (List.forall_mem_append.symm.trans ?_)
    simp only [List.mem_filter, bne_iff_ne, Set.mem_insert_iff, and_imp]
    exact forall₂_congr fun other _ => or_iff_not_imp_left
  | invalid issue =>
    rw [hplain rfl]
    simpa [children, occurrences] using StandsAt.invalid _ issue
  | invalidPart issue part ih =>
    have hiff : StandsAt (.inside N) (invalidPart issue part) ↔ StandsAt (.inside N) part := by
      constructor
      · intro h
        cases h with
        | invalidPart _ h => exact h
      · exact .invalidPart issue
    exact hiff.trans (ih.trans (and_congr_left' (hsingle rfl rfl)))

/-- There is a name that is the only free one, or there is none. -/
theorem isIndex_iff : e.IsIndex ↔ ∃ symbol, StandsAt (.inside {symbol}) e := by
  have hnil (names : List String) : names.eraseDups = [] ↔ names = [] := by
    cases names with
    | nil => simp
    | cons first names => simp [List.eraseDups_cons]
  have hsingle : e.dependencies.length ≤ 1 ↔ ∃ symbol, ∀ name ∈ e.occurrences, name = symbol := by
    unfold dependencies
    cases e.occurrences with
    | nil => simp
    | cons first names =>
      rw [List.eraseDups_cons]
      simp [hnil]
  simp only [standsAt_inside_iff, Set.mem_singleton_iff]
  rw [exists_and_left, ← hsingle]
  exact ⟨fun h => ⟨h.plain, h.single⟩, fun h => ⟨h.2, h.1⟩⟩

theorem indexed_iff : e.Indexed ↔ e.HasIndex ∧ ∀ part ∈ e.children, part.Indexed :=
  forall_mem_nodes

theorem IsIndex.indexed (h : e.IsIndex) : e.Indexed := by
  intro node hnode
  have hplain := h.plain node hnode
  cases node with
  | element => cases hplain
  | _ => trivial

/-- Outside of every index exactly the indexed expressions may stand. -/
theorem standsAt_outside_iff : StandsAt .outside e ↔ e.Indexed := by
  constructor
  · intro h
    generalize hp : Place.outside = p at h
    induction h with
    | number | invalid => exact indexed_iff.2 ⟨trivial, List.forall_mem_nil _⟩
    | var => exact indexed_iff.2 ⟨trivial, List.forall_mem_nil _⟩
    | element sequence h _ =>
      have hindex := isIndex_iff.2 ⟨_, h⟩
      exact indexed_iff.2 ⟨hindex, List.forall_mem_singleton.2 hindex.indexed⟩
    | unary _ _ ih | call _ _ _ ih | derivative _ _ ih | invalidPart _ _ ih =>
      exact indexed_iff.2 ⟨trivial, List.forall_mem_singleton.2 (ih hp)⟩
    | binary _ _ _ ihu ihv => exact indexed_iff.2 ⟨trivial, forall_mem_pair.2 ⟨ihu hp, ihv hp⟩⟩
    | nary _ _ ih => exact indexed_iff.2 ⟨trivial, fun e he => ih e he hp⟩
    | derivativeAt _ _ ihbody ihpoint =>
      subst hp
      exact indexed_iff.2 ⟨trivial, forall_mem_pair.2 ⟨ihbody rfl, ihpoint rfl⟩⟩
  · intro h
    have hparts := (indexed_iff.1 h).2
    induction e using Expr.induction with
    | number n => exact .number _ n
    | var name => exact .var (.inr trivial)
    | element sequence index _ =>
      obtain ⟨symbol, hindex⟩ := isIndex_iff.1 (indexed_iff.1 h).1
      exact .element sequence hindex
    | unary op u ih =>
      have hu := hparts u List.mem_cons_self
      exact .unary op (ih hu (indexed_iff.1 hu).2)
    | binary op u v ihu ihv =>
      obtain ⟨hu, hv⟩ := forall_mem_pair.1 hparts
      exact .binary op (ihu hu (indexed_iff.1 hu).2) (ihv hv (indexed_iff.1 hv).2)
    | nary op es ih =>
      exact .nary op fun e he => ih e he (hparts e he) (indexed_iff.1 (hparts e he)).2
    | call f primes u ih =>
      have hu := hparts u List.mem_cons_self
      exact .call f primes (ih hu (indexed_iff.1 hu).2)
    | derivative body name ih =>
      have hbody := hparts body List.mem_cons_self
      exact .derivative name (ih hbody (indexed_iff.1 hbody).2)
    | derivativeAt body name point ihbody ihpoint =>
      obtain ⟨hbody, hpoint⟩ := forall_mem_pair.1 hparts
      exact .derivativeAt (ihbody hbody (indexed_iff.1 hbody).2)
        (ihpoint hpoint (indexed_iff.1 hpoint).2)
    | invalid issue => exact .invalid _ issue
    | invalidPart issue part ih =>
      have hpart := hparts part List.mem_cons_self
      exact .invalidPart issue (ih hpart (indexed_iff.1 hpart).2)

/-! ## Flattening and folding -/

/-- Flattening puts nothing into an index and takes nothing out of one. -/
theorem StandsAt.flattened (h : StandsAt p e) : Flattened.All (StandsAt p) e.flattened := by
  induction h with
  | number p n => exact Flattened.all_ofExpr (structural_standsAt p) (.number p n)
  | var h => exact Flattened.all_ofExpr (structural_standsAt _) (.var h)
  | element sequence _ ih =>
    exact Flattened.all_ofExpr (structural_standsAt _) (.element sequence ih.whole)
  | unary op _ ih => exact Flattened.all_ofExpr (structural_standsAt _) (.unary op ih.whole)
  | binary op _ _ ihu ihv => exact Flattened.all_binary (structural_standsAt _) op ihu ihv
  | nary op _ ih =>
    exact Flattened.all_ofOperands (structural_standsAt _) op
      (Flattened.of_mem_flattenedOperands op ih)
  | call f primes _ ih =>
    exact Flattened.all_ofExpr (structural_standsAt _) (.call f primes ih.whole)
  | derivative name _ ih =>
    exact Flattened.all_ofExpr (structural_standsAt _) (.derivative name ih.whole)
  | derivativeAt _ _ ihbody ihpoint =>
    exact Flattened.all_ofExpr (structural_standsAt _) (.derivativeAt ihbody.whole ihpoint.whole)
  | invalid p issue => exact Flattened.all_ofExpr (structural_standsAt p) (.invalid p issue)
  | invalidPart issue h _ =>
    exact Flattened.all_ofExpr (structural_standsAt _) (.invalidPart issue h)

theorem standsAt_literal (p : Place) (o : Options) (n : Number) :
    StandsAt p (Folding.literal o n) := by
  unfold Folding.literal
  split
  · exact .unary .neg (.number p _)
  · exact .number p _

/-- Folding brings nothing to a place where it may not stand. -/
theorem StandsAt.fold (h : StandsAt p e) (o : Options) : StandsAt p (e.fold o) := by
  induction h with
  | number p n => exact standsAt_literal p o n
  | var h => exact .var h
  | element sequence _ ih => exact .element sequence ih
  | unary op _ ih => exact Folding.of_unary (structural_standsAt _) (standsAt_literal _ o) op ih
  | binary op _ _ ihu ihv =>
    exact Folding.of_binary (structural_standsAt _) (standsAt_literal _ o) op ihu ihv
  | nary op _ ih =>
    rw [Expr.fold, foldList_eq_map]
    exact Folding.of_nary (structural_standsAt _) (standsAt_literal _ o) op
      (List.forall_mem_map.2 ih)
  | call f primes _ ih => exact .call f primes ih
  | derivative name _ ih => exact .derivative name ih
  | derivativeAt _ _ ihbody ihpoint => exact .derivativeAt ihbody ihpoint
  | invalid p issue => exact .invalid p issue
  | invalidPart issue h _ => exact .invalidPart issue h

/-! ## Substitution -/

section

open Substitution (without)

mutual

/-- The indices of an expression, each with the substitutions that reach it. -/
def indices (σ : Substitutions) : Expr → List (Substitutions × Expr)
  | number _ | var _ | invalid _ | invalidPart _ _ => []
  | element _ index => [(σ, index)]
  | unary _ operand => operand.indices σ
  | binary _ lhs rhs => lhs.indices σ ++ rhs.indices σ
  | nary _ operands => indicesList σ operands
  | call _ _ argument => argument.indices σ
  | derivative body name => body.indices (without σ name)
  | derivativeAt body name point => body.indices (without σ name) ++ point.indices σ

/-- The indices of several expressions, each with the substitutions that reach it. -/
def indicesList (σ : Substitutions) : List Expr → List (Substitutions × Expr)
  | [] => []
  | e :: es => e.indices σ ++ indicesList σ es

end

variable {scope : Scope} {σ : Substitutions}

theorem indicesList_eq_flatMap (σ : Substitutions) (es : List Expr) :
    indicesList σ es = es.flatMap (indices σ) := by
  induction es with
  | nil => rfl
  | cons e es ih => rw [indicesList, ih, List.flatMap_cons]

/-- Whatever is put in place, only the indices decide. The induction goes below the operators, where
their variables are not replaced. -/
theorem standsAt_substitute_iff (he : StandsAt .outside e)
    (hσ : ∀ entry ∈ σ, StandsAt .outside (entry.2.toExpr scope)) :
    StandsAt .outside (e.substitute scope σ) ↔
      ∀ entry ∈ e.indices σ, (entry.2.substitute scope entry.1).IsIndex := by
  have hstructural := structural_standsAt .outside
  induction e using Expr.induction generalizing σ with
  | number n => exact iff_of_true (.number _ n) (List.forall_mem_nil _)
  | var name =>
    refine iff_of_true ?_ (List.forall_mem_nil _)
    rw [substitute]
    cases hlookup : σ.lookup name with
    | none => exact he
    | some s => exact Substitution.of_lookup hσ hlookup
  | element sequence index _ =>
    rw [indices, List.forall_mem_singleton, isIndex_iff]
    constructor
    · intro h
      cases h with
      | element _ h => exact ⟨_, h⟩
    · rintro ⟨_, h⟩
      exact .element sequence h
  | unary op u ih => exact (hstructural.unary op _).trans (ih ((hstructural.unary op u).1 he) hσ)
  | binary op u v ihu ihv =>
    obtain ⟨hu, hv⟩ := (hstructural.binary op u v).1 he
    rw [substitute, Substitution.binary_iff hstructural (.number _), indices,
      List.forall_mem_append]
    exact and_congr (ihu hu hσ) (ihv hv hσ)
  | nary op es ih =>
    have hes := (hstructural.nary op es).1 he
    rw [substitute, substituteList_eq_map, Substitution.nary_iff hstructural, List.forall_mem_map,
      indices, indicesList_eq_flatMap, List.forall_mem_flatMap]
    exact forall₂_congr fun e hmem => ih e hmem (hes e hmem) hσ
  | call f primes u ih =>
    exact standsAt_call.trans (ih (standsAt_call.1 he) hσ)
  | derivative body name ih =>
    exact standsAt_derivative.trans
      (ih (standsAt_derivative.1 he) (Substitution.forall_mem_without hσ name))
  | derivativeAt body name point ihbody ihpoint =>
    obtain ⟨hbody, hpoint⟩ := standsAt_derivativeAt.1 he
    rw [substitute, standsAt_derivativeAt, indices, List.forall_mem_append]
    exact and_congr (ihbody hbody (Substitution.forall_mem_without hσ name)) (ihpoint hpoint hσ)
  | invalid issue => exact iff_of_true he (List.forall_mem_nil _)
  | invalidPart issue part _ => exact iff_of_true he (List.forall_mem_nil _)

end

end Formulary.Expr

namespace Formulary.Reading

open Formulary.Expr

/-! ## Reading -/

/-- Where something that is read may stand, by whether brackets may open in it. -/
def placeOf (brackets : Bool) : Place := if brackets then .outside else .inside Set.univ

theorem under_placeOf (b : Bool) (name : String) : (placeOf b).under name = placeOf b := by
  cases b with
  | true => rfl
  | false => exact congrArg Place.inside (Set.insert_eq_of_mem (Set.mem_univ name))

theorem allows_placeOf (b : Bool) (name : String) : (placeOf b).Allows name := by
  cases b with
  | true => trivial
  | false => exact Set.mem_univ name

theorem standsAt_derivativeAt_placeOf {b : Bool} {body point : Expr} (name : String)
    (hissue : (derivativeAt body name point).hasIssue = false)
    (hbody : body.hasIssue = false → StandsAt (placeOf b) body)
    (hpoint : point.hasIssue = false → StandsAt (placeOf b) point) :
    StandsAt (placeOf b) (derivativeAt body name point) := by
  rw [hasIssue_derivativeAt, Bool.or_eq_false_iff] at hissue
  rw [standsAt_derivativeAt, under_placeOf]
  exact ⟨hbody hissue.1, hpoint hissue.2⟩

/-- An index with several names is an issue. -/
theorem standsAt_element {name : String} {index : Expr} {brackets : Span}
    (hindex : index.hasIssue = false → StandsAt (placeOf false) index)
    (hissue : (element name index brackets).hasIssue = false) :
    StandsAt .outside (element name index brackets) := by
  unfold element at hissue ⊢
  dsimp only at hissue ⊢
  split at hissue
  · simp at hissue
  · rename_i hfew
    have hplain := (standsAt_inside_iff.1 (hindex (by simpa using hissue))).1
    have hsingle : index.dependencies.length ≤ 1 := by
      match hnames : index.dependencies with
      | [] => simp
      | [_] => simp
      | x :: y :: names => exact absurd hnames (hfew x y names)
    obtain ⟨symbol, hstands⟩ := isIndex_iff.1 ⟨hsingle, hplain⟩
    exact .element name hstands

/-- The reader asks for one name in an index and reads no brackets inside of others. -/
theorem kept_standsAt (settings : Settings) (scope : Scope) :
    Kept settings scope (fun _ => True)
      fun b e => e.hasIssue = false → StandsAt (placeOf b) e where
  invalid b issue := by simp
  invalidPart := by simp
  number b t _ _ := by
    unfold number
    dsimp only
    split
    · simp
    · exact fun _ => .number _ _
  negative _ _ _ := .number _ _
  sign _ he hissue := .unary _ (he (by simpa using hissue))
  binary op l r hl hr hissue := by
    rw [hasIssue_binary, Bool.or_eq_false_iff] at hissue
    exact .binary op (hl hissue.1) (hr hissue.2)
  var b _ name _ _ _ _ := .var (.inr (allows_placeOf b name))
  absolute he hissue := .call _ _ (he (by simpa [callNamed] using hissue))
  call _ _ _ _ he hissue := .call _ _ (he (by simpa [callNamed] using hissue))
  element _ _ _ _ he := standsAt_element he
  openElement := by simp
  byX he hissue := .derivative _ (he (by simpa using hissue))
  byXAt he hpoint hissue := standsAt_derivativeAt_placeOf "x" hissue he hpoint
  derivative _ _ he hissue := .derivative _ (he (by simpa using hissue))
  derivativeAt _ _ he hpoint hissue := standsAt_derivativeAt_placeOf _ hissue he hpoint

/-- What is read without an issue is indexed. -/
theorem indexed_read (settings : Settings) (scope : Scope) (source : String)
    (hissue : (read settings scope source).hasIssue = false) :
    (read settings scope source).Indexed :=
  standsAt_outside_iff.1
    (group_kept (kept_standsAt settings scope) _ _ true (fun _ _ => ⟨trivial, nofun⟩) hissue)

end Formulary.Reading
