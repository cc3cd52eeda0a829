import Formulary.Expr.Equality
import Formulary.Proofs.Expr.Parts
import Formulary.Proofs.Matching.Value

/-!
# Instances of a pattern

An instance of a pattern has an expression in the place of each wildcard and is the pattern
everywhere else. A pattern matches all of its instances, and matching finds the texts of the
expressions that were put in place (`matches_every_instance`).

Every kind of node has a rule of its own, and none of them may turn an instance away. A constant
part of a pattern has no wildcards, so it stands in the instance as it is and agrees with itself
after folding. An operation on several operands has as many of them as its pattern, so the first
grouping that is tried groups nothing. And a wildcard that occurs again has stood for the same
expression before (`Recalls`).
-/

namespace Formulary

namespace Expr

variable {f : String → Expr} {p e part : Expr}

/-! ## Wildcards -/

/-- The wildcards of a pattern, as often as they occur. -/
def wildcards (p : Expr) : List String :=
  (p.nodes.filterMap var?).filter fun x => !Names.isSpecial x

theorem wildcards_var (x : String) :
    (var x).wildcards = if Names.isSpecial x then [] else [x] := by
  rw [wildcards, nodes_eq]
  cases hx : Names.isSpecial x <;> simp [children, var?, hx]

/-- The wildcards of a node that is no name are those of its parts. -/
theorem wildcards_of_var? (h : p.var? = none) : p.wildcards = p.children.flatMap wildcards := by
  rw [wildcards, nodes_eq, List.filterMap_cons_none h, List.filterMap_flatMap, List.filter_flatMap]
  rfl

theorem isConstant_of_child (h : e.isConstant = true) (hpart : part ∈ e.children) :
    part.isConstant = true := by
  cases e with
  | number | var => cases hpart
  | element | invalid | invalidPart => cases h
  | unary | call | derivative => exact List.mem_singleton.1 hpart ▸ h
  | binary | derivativeAt =>
    have hboth := (Bool.and_eq_true _ _).mp h
    rcases List.mem_pair.1 hpart with rfl | rfl
    · exact hboth.1
    · exact hboth.2
  | nary op es => exact isConstant_of_allConstant h part hpart

/-- A constant has no wildcards. -/
theorem wildcards_of_isConstant (p : Expr) (h : p.isConstant = true) : p.wildcards = [] := by
  induction p using Expr.induction_children with
  | step p ih =>
    cases hvar : p.var? with
    | some x =>
      obtain rfl : p = var x := by cases p <;> cases hvar; rfl
      rw [wildcards_var]
      exact if_pos h
    | none =>
      rw [wildcards_of_var? hvar, List.flatMap_eq_nil_iff]
      exact fun part hpart => ih part hpart (isConstant_of_child h hpart)

/-! ## Instances -/

mutual

/-- The pattern with expressions in the places of its wildcards. -/
def instantiate (f : String → Expr) : Expr → Expr
  | number n => number n
  | var x => if Names.isSpecial x then var x else f x
  | element sequence index => element sequence (index.instantiate f)
  | unary op operand => unary op (operand.instantiate f)
  | binary op lhs rhs => binary op (lhs.instantiate f) (rhs.instantiate f)
  | nary op operands => nary op (instantiateList f operands)
  | call function primes argument => call function primes (argument.instantiate f)
  | derivative body name => derivative (body.instantiate f) name
  | derivativeAt body name point => derivativeAt (body.instantiate f) name (point.instantiate f)
  | invalid issue => invalid issue
  | invalidPart issue part => invalidPart issue (part.instantiate f)

/-- Several patterns with expressions in the places of their wildcards. -/
def instantiateList (f : String → Expr) : List Expr → List Expr
  | [] => []
  | p :: ps => p.instantiate f :: instantiateList f ps

end

theorem instantiateList_eq_map (ps : List Expr) :
    instantiateList f ps = ps.map (instantiate f) := by
  induction ps with
  | nil => rfl
  | cons p ps ih => rw [instantiateList, ih, List.map_cons]

/-- Where there is nothing to put in place, an instance is the pattern. -/
theorem instantiate_of_wildcards (p : Expr) (h : p.wildcards = []) : p.instantiate f = p := by
  induction p using Expr.induction with
  | number | invalid => rfl
  | var x =>
    rw [wildcards_var] at h
    rw [instantiate]
    split
    · rfl
    · rename_i hx
      rw [if_neg hx] at h
      cases h
  | element _ _ ih | unary _ _ ih | call _ _ _ ih | derivative _ _ ih | invalidPart _ _ ih =>
    rw [wildcards_of_var? rfl, List.flatMap_eq_nil_iff] at h
    rw [instantiate, ih (h _ List.mem_cons_self)]
  | binary _ _ _ ihl ihr | derivativeAt _ _ _ ihl ihr =>
    rw [wildcards_of_var? rfl, List.flatMap_eq_nil_iff] at h
    obtain ⟨hl, hr⟩ := forall_mem_pair.1 h
    rw [instantiate, ihl hl, ihr hr]
  | nary op ps ih =>
    rw [wildcards_of_var? rfl, List.flatMap_eq_nil_iff] at h
    rw [instantiate, instantiateList_eq_map]
    exact congrArg (nary op)
      ((List.map_congr_left fun p hp => ih p hp (h p hp)).trans (List.map_id ps))

/-! ## Patterns -/

/-- A pattern that matches its own instances: there is nothing in it that could not be read, no
literal that is not a number, and no operation without operands. -/
structure IsPattern (p : Expr) : Prop where
  readable : ∀ node ∈ p.nodes, node.isInvalid = false
  defined : ∀ node ∈ p.nodes, ∀ n ∈ node.number?, n.isNaN = false
  nonempty : ∀ node ∈ p.nodes, ∀ op, node ≠ nary op []

instance (p : Expr) : Decidable p.IsPattern :=
  decidable_of_iff ((∀ node ∈ p.nodes, node.isInvalid = false) ∧
    (∀ node ∈ p.nodes, ∀ n ∈ node.number?, n.isNaN = false) ∧
    ∀ node ∈ p.nodes, node ≠ nary .sum [] ∧ node ≠ nary .product [])
    ⟨fun ⟨hr, hd, hn⟩ => ⟨hr, hd, fun node hnode op => by
      cases op with
      | sum => exact (hn node hnode).1
      | product => exact (hn node hnode).2⟩,
    fun ⟨hr, hd, hn⟩ => ⟨hr, hd, fun node hnode => ⟨hn node hnode _, hn node hnode _⟩⟩⟩

theorem IsPattern.of_child (h : p.IsPattern) (hpart : part ∈ p.children) : part.IsPattern :=
  ⟨fun node hnode => h.readable node (mem_nodes_of_child hpart hnode),
    fun node hnode => h.defined node (mem_nodes_of_child hpart hnode),
    fun node hnode => h.nonempty node (mem_nodes_of_child hpart hnode)⟩

/-- What can stand in the place of a wildcard: something that was read, with a numeric value. -/
def IsImage (e : Expr) : Prop := e.isInvalid = false ∧ e.valueType = .numeric

instance (e : Expr) : Decidable e.IsImage := inferInstanceAs (Decidable (_ ∧ _))

theorem isInvalid_instantiate (hp : p.IsPattern) (hf : ∀ x ∈ p.wildcards, (f x).IsImage) :
    (p.instantiate f).isInvalid = false := by
  cases p with
  | var x =>
    rw [instantiate]
    split
    · rfl
    · rename_i hx
      rw [wildcards_var, if_neg hx] at hf
      exact (hf x List.mem_cons_self).1
  | invalid | invalidPart => cases hp.readable _ (mem_nodes_self _)
  | _ => rfl

end Expr

namespace Double

/-- A double equals itself unless it is not a number. -/
theorem beq_self {v : Float} (h : v.isNaN = false) : (v == v) = true := by
  change (v.toModel.unpack.compare v.toModel.unpack == some .eq) = true
  change v.toModel.unpack.isNaN = false at h
  generalize v.toModel.unpack = u at h
  cases u with
  | notANumber => cases h
  | infinity s => cases s <;> rfl
  | zero s => rfl
  | finite s m e hm => cases s <;> simp [Float.Model.UnpackedFloat.compare]

end Double

theorem Number.same_self {n : Number} (h : n.isNaN = false) : n.same n = true := by
  cases n with
  | exact r => exact beq_self_eq_true r
  | real v => exact Double.beq_self h

namespace Matching

open Formulary.Expr

variable {f : String → Expr} {p : Expr} {xs ys : List String} {σ σ₁ σ' : Images} {x : String}

/-! ## What is recorded -/

/-- The wildcards that stand for something stand for what is put in their places. -/
def Recalls (f : String → Expr) (σ : Images) : Prop :=
  ∀ x text, σ.lookup x = some text → text = (f x).text

/-- Some wildcards have come to stand for what is put in their places, and nothing else has
changed. -/
def Records (f : String → Expr) (xs : List String) (σ σ' : Images) : Prop :=
  ∀ x, σ'.lookup x = if x ∈ xs then some (f x).text else σ.lookup x

theorem Recalls.after (h : Recalls f σ) (hrecords : Records f xs σ σ') : Recalls f σ' := by
  intro x text htext
  rw [hrecords x] at htext
  split at htext
  · exact (Option.some.inj htext).symm
  · exact h x text htext

theorem records_nil (f : String → Expr) (σ : Images) : Records f [] σ σ := fun _ => by simp

theorem Records.append (h : Records f xs σ σ₁) (h' : Records f ys σ₁ σ') :
    Records f (xs ++ ys) σ σ' := by
  intro x
  rw [h' x, h x]
  by_cases hx : x ∈ xs <;> by_cases hy : x ∈ ys <;> simp [hx, hy]

/-- A wildcard matches what is put in its place. -/
theorem exists_name (hx : Names.isSpecial x = false) (hf : (f x).IsImage) (hσ : Recalls f σ) :
    ∃ σ', name x (f x) σ = some σ' ∧ Records f [x] σ σ' := by
  unfold name
  rw [hx, if_neg Bool.false_ne_true]
  cases hlookup : σ.lookup x with
  | none =>
    refine ⟨(x, (f x).text) :: σ, if_pos hf.2, fun y => ?_⟩
    by_cases hy : y = x
    · subst hy
      simp
    · rw [List.lookup_cons, beq_eq_false_iff_ne.2 hy, if_neg (by simpa using hy)]
  | some text =>
    have htext := hσ x text hlookup
    refine ⟨σ, if_pos htext, fun y => ?_⟩
    by_cases hy : y = x
    · subst hy
      simp [hlookup, htext]
    · simp [hy]

/-- The first grouping of operands that all have a place of their own groups none of them. -/
theorem groupedLast_length {op : Family} {es : List Expr} (h : es ≠ []) :
    groupedLast op es.length es = es := by
  have hlast : es.drop (es.length - 1) = [es.getLast h] := List.drop_length_sub_one h
  rw [groupedLast, hlast, grouped, ← hlast, List.take_append_drop]

theorem groupings_length (op : Family) {es : List Expr} (h : es ≠ [])
    (attempt : List Expr → Option Images) :
    groupings op es.length es attempt = attempt es := by
  have hlength : es.length ≠ 0 := fun hzero => h (List.length_eq_zero_iff.1 hzero)
  rw [groupings, if_neg (by simpa using hlength), if_pos rfl, groupedLast_length h]

/-! ## Matching an instance -/

/-- Matching a pattern with an instance goes through, whatever has been recorded before. -/
def MatchesInstances (f : String → Expr) (p : Expr) : Prop :=
  ∀ σ, Recalls f σ → ∃ σ', p.matchFrom (p.instantiate f) σ = some σ' ∧ Records f p.wildcards σ σ'

/-- Patterns are matched with their instances one after another. -/
theorem exists_matchListFrom {ps : List Expr} (h : ∀ p ∈ ps, MatchesInstances f p)
    (hσ : Recalls f σ) :
    ∃ σ', matchListFrom ps (ps.map (instantiate f)) σ = some σ' ∧
      Records f (ps.flatMap wildcards) σ σ' := by
  induction ps generalizing σ with
  | nil => exact ⟨σ, rfl, records_nil f σ⟩
  | cons p ps ih =>
    obtain ⟨hp, hps⟩ := List.forall_mem_cons.1 h
    obtain ⟨σ₁, hfirst, hrecords⟩ := hp σ hσ
    obtain ⟨σ', hrest, hrecords'⟩ := ih hps (hσ.after hrecords)
    refine ⟨σ', ?_, ?_⟩
    · rw [List.map_cons, matchListFrom, hfirst]
      exact hrest
    · rw [List.flatMap_cons]
      exact hrecords.append hrecords'

/-- A node that is compared by its parts is matched with its instance by matching the parts. -/
theorem matchFrom_instantiate (hp : p.IsPattern) (hnumber : p.number? = none)
    (hvar : p.var? = none)
    (hunary : ∀ op u, p = .unary op u → (u.isConstant && (p.instantiate f).isConstant) = false) :
    p.matchFrom (p.instantiate f) σ =
      matchListFrom p.children (p.children.map (instantiate f)) σ := by
  cases p with
  | number n => cases hnumber
  | var x => cases hvar
  | invalid | invalidPart => cases hp.readable _ (mem_nodes_self _)
  | unary op u =>
    have hparts := hunary op u rfl
    rw [instantiate] at hparts ⊢
    simp only [matchFrom, isInvalid, hparts, children]
    simp [matchListFrom]
  | nary op ps =>
    have hne : ps ≠ [] := by
      rintro rfl
      exact hp.nonempty _ (mem_nodes_self _) op rfl
    have hmap : ps.map (instantiate f) ≠ [] := by simpa using hne
    rw [instantiate, instantiateList_eq_map, matchFrom]
    simpa [isInvalid, children] using
      groupings_length op hmap fun es => matchListFrom ps es σ
  | _ => simp [matchFrom, isInvalid, instantiate, children, matchListFrom]

/-- The induction is on the pattern. A name and a literal have no parts, and a constant below a
unary operator is compared with itself as a whole. -/
theorem matchesInstances (p : Expr) (hp : p.IsPattern) (hf : ∀ x ∈ p.wildcards, (f x).IsImage) :
    MatchesInstances f p := by
  induction p using Expr.induction_children with
  | step p ih =>
    intro σ hσ
    have hparts (hvar : p.var? = none) : ∃ σ',
        matchListFrom p.children (p.children.map (instantiate f)) σ = some σ' ∧
          Records f p.wildcards σ σ' := by
      rw [wildcards_of_var? hvar]
      refine exists_matchListFrom (fun part hpart => ?_) hσ
      refine ih part hpart (hp.of_child hpart) fun x hx => hf x ?_
      rw [wildcards_of_var? hvar]
      exact List.mem_flatMap.2 ⟨part, hpart, hx⟩
    cases p with
    | number n =>
      have hsame : n.same n = true :=
        Number.same_self (hp.defined _ (mem_nodes_self _) n rfl)
      exact ⟨σ, by simp [matchFrom, instantiate, isInvalid, number, hsame], records_nil f σ⟩
    | var x =>
      have hinvalid := isInvalid_instantiate hp hf
      rw [wildcards_var] at hf ⊢
      rw [matchFrom, hinvalid, if_neg Bool.false_ne_true, instantiate]
      cases hx : Names.isSpecial x with
      | true => exact ⟨σ, by simp [name, hx, text], records_nil f σ⟩
      | false =>
        rw [hx] at hf
        exact exists_name hx (hf x List.mem_cons_self) hσ
    | unary op u =>
      cases hconstant : u.isConstant && ((unary op u).instantiate f).isConstant with
      | true =>
        have hnone : (unary op u).wildcards = [] :=
          wildcards_of_isConstant (unary op u) ((Bool.and_eq_true _ _).mp hconstant).1
        rw [instantiate_of_wildcards _ hnone] at hconstant ⊢
        rw [hnone]
        exact ⟨σ, by simp [matchFrom, isInvalid, hconstant, constant], records_nil f σ⟩
      | false =>
        rw [matchFrom_instantiate hp rfl rfl]
        · exact hparts rfl
        · rintro _ _ ⟨⟩
          exact hconstant
    | element | binary | nary | call | derivative | derivativeAt | invalid | invalidPart =>
      rw [matchFrom_instantiate hp rfl rfl]
      · exact hparts rfl
      · intro op u h
        cases h

/-- A pattern matches every instance of it. The wildcards stand for the texts of what was put in
their places, and nothing else is recorded. -/
theorem matches_every_instance (hp : p.IsPattern) (hf : ∀ x ∈ p.wildcards, (f x).IsImage) :
    ∃ σ, p.matches? (p.instantiate f) = some σ ∧
      ∀ x, σ.lookup x = if x ∈ p.wildcards then some (f x).text else none := by
  obtain ⟨σ, hmatch, hrecords⟩ := matchesInstances p hp hf [] fun _ _ h => nomatch h
  exact ⟨σ, hmatch, hrecords⟩

/-- The wildcard `x` occurs three times, once under a derivative operator and once in a subscript,
and the constant under the minus sign is compared after folding. -/
theorem matches_every_instance_of_sum :
    let p := nary .sum [binary .pow (var "x") (ofInt 2),
      unary .neg (binary .mul (ofInt 2) (var "pi")),
      derivativeAt (binary .mul (var "x") (var "t")) "t" (element "a" (var "x"))]
    let f := fun x => if x = "x" then nary .sum [var "y", ofInt 1] else ofInt (-3)
    p.IsPattern ∧ (∀ x ∈ p.wildcards, (f x).IsImage) ∧
      (p.instantiate f).text = "(y+1)^2+-2*pi+D((y+1)*-3,t,a[y+1])" ∧
      ∃ σ, p.matches? (p.instantiate f) = some σ ∧
        ∀ x, σ.lookup x = if x ∈ p.wildcards then some (f x).text else none := by
  intro p f
  have hp : p.IsPattern := by decide +kernel
  have hf : ∀ x ∈ p.wildcards, (f x).IsImage := by decide +kernel
  exact ⟨hp, hf, by decide +kernel, matches_every_instance hp hf⟩

end Matching

end Formulary
