import Formulary.Proofs.Evaluation.Slopes
import Formulary.Proofs.Substitution.Value

/-!
# The names of a substitution

What an expression depends on, before and after a substitution, is read off the places where it
mentions a name (`mem_dependencies_iff_places`, `mem_dependencies_substitute`). Each place keeps two
lists of variables. In the body of an operator its variable is not replaced (`off`). And of an
operator with a point the dependencies leave the variable out, in the body as well as in the point
(`hidden`).

Nothing is renamed on the way. So a free name of what is put in a place is lost if an operator
around the place hides it: the operator captures the name. And what is put in the place of a name
that is no dependency adds its own names, be it that the name is a special constant, or that it is
the variable of an operator and stands in the point of that operator. The names after a substitution
are those that the dependencies give exactly if whatever is lost at one place shows at another, and
whatever is added at one place belongs to a dependency as well (`dependencies_substitute`). Where
nothing is lost and nothing is added, they are so anyway
(`mem_dependencies_substitute_of_undisturbed`).
-/

namespace Formulary

/-- A place where an expression mentions a name. -/
structure Mention where
  /-- The name. -/
  name : String
  /-- The variables of the operators whose bodies the place is in. They are not replaced there. -/
  off : List String
  /-- The variables of the operators with a point that the place is in. The dependencies leave them
  out. -/
  hidden : List String
  /-- The place is in a part that could not be read. -/
  unread : Bool
deriving DecidableEq

namespace Mention

variable (scope : Scope) (σ : Substitutions) (m : Mention)

/-- The dependencies count the name of the place. -/
def Free : Prop := Names.isSpecial m.name = false ∧ m.name ∉ m.hidden

/-- The place stays as it is in every substitution. -/
def Kept : Prop := m.unread = true ∨ m.name ∈ m.off

instance : Decidable m.Free := inferInstanceAs (Decidable (_ ∧ _))

instance : Decidable m.Kept := inferInstanceAs (Decidable (_ ∨ _))

/-- The names that a substitution puts in the place, or the name of a place that is kept. -/
def image : List String :=
  ((Expr.var m.name).substitute scope (if m.Kept then [] else σ)).dependencies

/-- After a substitution, the dependencies count a name because of the place. -/
def Shows (name : String) : Prop := name ∈ m.image scope σ ∧ name ∉ m.hidden

/-- A free place is replaced, and all that is put there shows. At another place nothing shows. -/
def Undisturbed : Prop :=
  if m.Free then ¬m.Kept ∧ ∀ name ∈ m.image scope σ, name ∉ m.hidden
  else ∀ name ∈ m.image scope σ, name ∈ m.hidden

instance (name : String) : Decidable (m.Shows scope σ name) := inferInstanceAs (Decidable (_ ∧ _))

variable {scope σ m}

theorem image_of_kept (h : m.Kept) : m.image scope σ = (Expr.var m.name).dependencies := by
  rw [image, if_pos h]
  rfl

theorem image_of_not_kept (h : ¬m.Kept) :
    m.image scope σ = ((Expr.var m.name).substitute scope σ).dependencies := by
  rw [image, if_neg h]

end Mention

namespace Expr

open Substitution

mutual

/-- The places where an expression mentions a name, inside of operators with some variables. -/
def mentions (off hidden : List String) (unread : Bool) : Expr → List Mention
  | number _ | invalid _ => []
  | var name => [⟨name, off, hidden, unread⟩]
  | element _ index => index.mentions off hidden unread
  | unary _ operand => operand.mentions off hidden unread
  | binary _ lhs rhs => lhs.mentions off hidden unread ++ rhs.mentions off hidden unread
  | nary _ operands => mentionsList off hidden unread operands
  | call _ _ argument => argument.mentions off hidden unread
  | derivative body name => body.mentions (name :: off) hidden unread
  | derivativeAt body name point =>
    body.mentions (name :: off) (name :: hidden) unread ++
      point.mentions off (name :: hidden) unread
  | invalidPart _ part => part.mentions off hidden true

/-- The places where several expressions mention a name. -/
def mentionsList (off hidden : List String) (unread : Bool) : List Expr → List Mention
  | [] => []
  | e :: es => e.mentions off hidden unread ++ mentionsList off hidden unread es

end

/-- The places where an expression mentions a name. -/
def places (e : Expr) : List Mention := e.mentions [] [] false

theorem mentionsList_eq_flatMap (off hidden : List String) (unread : Bool) (es : List Expr) :
    mentionsList off hidden unread es = es.flatMap (mentions off hidden unread) := by
  induction es with
  | nil => rfl
  | cons e es ih => rw [mentionsList, ih, List.flatMap_cons]

/-! ## Names as they occur -/

theorem occurrences_substitute_binary (op : BinaryOp) (u v : Expr) :
    (Substitution.binary op u v).occurrences = u.occurrences ++ v.occurrences := by
  unfold Substitution.binary
  cases hw : literals? op u v with
  | none => rfl
  | some w =>
    obtain ⟨m, n, k, rfl, rfl, rfl, -⟩ := literals?_eq_some hw
    rfl

theorem occurrences_substitute_nary (op : Family) (es : List Expr) :
    (Substitution.nary op es).occurrences = es.flatMap occurrences := by
  match es with
  | [] => rfl
  | [e] => rw [List.flatMap_singleton]; rfl
  | u :: v :: es =>
    change occurrencesList (u :: v :: es) = _
    exact occurrencesList_eq_flatMap _

/-- A substitution of nothing rebuilds the expression, with the same names. -/
theorem occurrences_substitute_nil (scope : Scope) (e : Expr) :
    (e.substitute scope []).occurrences = e.occurrences := by
  induction e using Expr.induction with
  | number n => rfl
  | var name => rfl
  | element sequence index ih => exact ih
  | unary op u ih => exact ih
  | binary op u v ihu ihv =>
    rw [substitute, occurrences_substitute_binary, ihu, ihv, occurrences]
  | nary op es ih =>
    rw [substitute, occurrences_substitute_nary, substituteList_eq_map, List.flatMap_map,
      occurrences, occurrencesList_eq_flatMap]
    exact List.flatMap_congr ih
  | call f primes u ih => exact ih
  | derivative body name ih => exact ih
  | derivativeAt body name point ihbody ihpoint =>
    have hwithout : without [] name = [] := rfl
    rw [substitute, occurrences, hwithout, ihbody, ihpoint, occurrences]
  | invalid issue => rfl
  | invalidPart issue part _ => rfl

/-- The substitutions that are left inside of operators whose variables are not replaced. -/
def Leaves (τ : Substitutions) (off : List String) (unread : Bool) (σ : Substitutions) : Prop :=
  ∀ name, τ.lookup name = if unread = true ∨ name ∈ off then none else σ.lookup name

section

variable {scope : Scope} {σ τ : Substitutions} {off hidden : List String} {unread : Bool}
  {name other : String}

theorem Leaves.without (h : Leaves τ off unread σ) (name : String) :
    Leaves (without τ name) (name :: off) unread σ := by
  intro n
  rw [lookup_without, h]
  by_cases hn : n = name <;> simp [hn]

theorem leaves_self (σ : Substitutions) : Leaves σ [] false σ := fun _ => by simp

theorem leaves_unread (off : List String) (σ : Substitutions) : Leaves [] off true σ :=
  fun _ => by simp

/-- What is put in a place is what the substitutions that are left put there. -/
theorem Leaves.image_eq (h : Leaves τ off unread σ) :
    Mention.image scope σ ⟨name, off, hidden, unread⟩ =
      ((var name).substitute scope τ).dependencies := by
  by_cases hkept : Mention.Kept ⟨name, off, hidden, unread⟩
  · have hnone : τ.lookup name = none := (h name).trans (if_pos hkept)
    rw [Mention.image_of_kept hkept, substitute, hnone]
  · have hsame : τ.lookup name = σ.lookup name := (h name).trans (if_neg hkept)
    rw [Mention.image_of_not_kept hkept, substitute, substitute, hsame]

/-- The names after a substitution are those that show at the places. The induction goes inside of
the operators, where the substitutions are those that are left. -/
theorem mem_occurrences_substitute {e : Expr} (hτ : Leaves τ off unread σ) :
    other ∈ (e.substitute scope τ).occurrences ∧ other ∉ hidden ↔
      ∃ m ∈ e.mentions off hidden unread, m.Shows scope σ other := by
  induction e using Expr.induction generalizing τ off hidden unread with
  | number n => simp [substitute, occurrences, mentions]
  | var name =>
    simp only [mentions, List.mem_singleton, exists_eq_left, Mention.Shows, hτ.image_eq,
      mem_dependencies]
  | element sequence index ih => exact ih hτ
  | unary op u ih => exact ih hτ
  | binary op u v ihu ihv =>
    simp only [substitute, occurrences_substitute_binary, mentions, List.mem_append, or_and_right,
      exists_or, ihu hτ, ihv hτ]
  | nary op es ih =>
    rw [substitute, occurrences_substitute_nary, substituteList_eq_map, List.flatMap_map, mentions,
      mentionsList_eq_flatMap]
    simp only [List.mem_flatMap]
    constructor
    · rintro ⟨⟨e, he, hother⟩, hhidden⟩
      obtain ⟨m, hm, hshows⟩ := (ih e he hτ).1 ⟨hother, hhidden⟩
      exact ⟨m, ⟨e, he, hm⟩, hshows⟩
    · rintro ⟨m, ⟨e, he, hm⟩, hshows⟩
      obtain ⟨hother, hhidden⟩ := (ih e he hτ).2 ⟨m, hm, hshows⟩
      exact ⟨⟨e, he, hother⟩, hhidden⟩
  | call f primes u ih => exact ih hτ
  | derivative body name ih => exact ih (hτ.without name)
  | derivativeAt body name point ihbody ihpoint =>
    -- the variable is filtered out of the body and of the point alike
    simp only [substitute, occurrences, mentions, List.mem_append, or_and_right, exists_or,
      ← ihbody (hτ.without name), ← ihpoint hτ, List.mem_filter, List.mem_cons, bne_iff_ne, not_or,
      and_assoc]
  | invalid issue => simp [substitute, occurrences, mentions]
  | invalidPart issue part ih =>
    have hpart : other ∈ (part.substitute scope []).occurrences ∧ other ∉ hidden ↔ _ :=
      ih (leaves_unread off σ)
    rwa [occurrences_substitute_nil] at hpart

theorem mem_dependencies_substitute {e : Expr} :
    name ∈ (e.substitute scope σ).dependencies ↔ ∃ m ∈ e.places, m.Shows scope σ name := by
  rw [mem_dependencies, places, ← mem_occurrences_substitute (leaves_self σ)]
  exact (and_iff_left List.not_mem_nil).symm

/-- The names of an expression itself are read off the places as well. -/
theorem mem_dependencies_iff_places {e : Expr} :
    name ∈ e.dependencies ↔ ∃ m ∈ e.places, m.Free ∧ m.name = name := by
  have hnothing : name ∈ (e.substitute [] []).dependencies ↔ _ := mem_dependencies_substitute
  rw [mem_dependencies, occurrences_substitute_nil, ← mem_dependencies] at hnothing
  rw [hnothing]
  refine exists_congr fun m => and_congr_right fun _ => ?_
  simp only [Mention.Shows, Mention.image, Mention.Free, ite_self, substitute, List.lookup_nil,
    mem_dependencies, occurrences]
  cases Names.isSpecial m.name <;> grind

/-! ## What a substitution depends on -/

/-- The dependencies after a substitution are those of what is put in the place of the dependencies
exactly if two things hold. Whatever is put in a free place and does not show there, since an
operator captures it or since the place is kept, shows at another place. And whatever shows at a
place that is not free or kept is put in the place of a dependency as well. -/
theorem mem_dependencies_substitute_iff_exists (e : Expr) :
    (∀ name, name ∈ (e.substitute scope σ).dependencies ↔
        ∃ n ∈ e.dependencies, name ∈ ((var n).substitute scope σ).dependencies) ↔
      (∀ m ∈ e.places, m.Free → ∀ name ∈ ((var m.name).substitute scope σ).dependencies,
        m.Kept ∨ name ∈ m.hidden → ∃ m' ∈ e.places, m'.Shows scope σ name) ∧
      ∀ m ∈ e.places, ¬m.Free ∨ m.Kept → ∀ name, m.Shows scope σ name →
        ∃ n ∈ e.dependencies, name ∈ ((var n).substitute scope σ).dependencies := by
  simp only [mem_dependencies_substitute (e := e)]
  constructor
  · refine fun h => ⟨fun m hm hfree name hname _ => (h name).2 ⟨m.name, ?_, hname⟩,
      fun m hm _ name hshows => (h name).1 ⟨m, hm, hshows⟩⟩
    exact mem_dependencies_iff_places.2 ⟨m, hm, hfree, rfl⟩
  · rintro ⟨hlost, hadded⟩ name
    constructor
    · rintro ⟨m, hm, hshows⟩
      by_cases hplain : m.Free ∧ ¬m.Kept
      · exact ⟨m.name, mem_dependencies_iff_places.2 ⟨m, hm, hplain.1, rfl⟩,
          Mention.image_of_not_kept hplain.2 ▸ hshows.1⟩
      · exact hadded m hm ((not_and_or.1 hplain).imp_right not_not.1) name hshows
    · rintro ⟨n, hn, hname⟩
      obtain ⟨m, hm, hfree, rfl⟩ := mem_dependencies_iff_places.1 hn
      by_cases hplain : m.Kept ∨ name ∈ m.hidden
      · exact hlost m hm hfree name hname hplain
      · rw [not_or] at hplain
        exact ⟨m, hm, Mention.image_of_not_kept hplain.1 ▸ hname, hplain.2⟩

/-- Where no place is disturbed, the names after a substitution are those of what is put in the
place of the dependencies. -/
theorem mem_dependencies_substitute_of_undisturbed {e : Expr}
    (h : ∀ m ∈ e.places, m.Undisturbed scope σ) :
    name ∈ (e.substitute scope σ).dependencies ↔
      ∃ n ∈ e.dependencies, name ∈ ((var n).substitute scope σ).dependencies := by
  refine (mem_dependencies_substitute_iff_exists e).2 ⟨fun m hm hfree name hname hcaught => ?_,
    fun m hm hplace name hshows => ?_⟩ name
  · obtain ⟨hkept, hshown⟩ := (if_pos hfree).mp (h m hm)
    rw [Mention.image_of_not_kept hkept] at hshown
    exact absurd (hcaught.resolve_left hkept) (hshown name hname)
  · by_cases hfree : m.Free
    · obtain ⟨hkept, -⟩ := (if_pos hfree).mp (h m hm)
      exact absurd (hplace.resolve_left (not_not.2 hfree)) hkept
    · exact absurd ((if_neg hfree).mp (h m hm) name hshows.1) hshows.2

/-- The dependencies of an expression are the names of its free places, and after a substitution
they are the names that show at its places. They are those of what is put in the place of the
dependencies exactly if two things hold. Whatever is put in a free place and does not show there,
since an operator captures it or since the place is kept, shows at another place. And whatever shows
at a place that is not free or kept is put in the place of a dependency as well. -/
theorem dependencies_substitute (scope : Scope) (σ : Substitutions) (e : Expr) :
    (∀ name, name ∈ e.dependencies ↔ ∃ m ∈ e.places, m.Free ∧ m.name = name) ∧
    (∀ name, name ∈ (e.substitute scope σ).dependencies ↔
      ∃ m ∈ e.places, m.Shows scope σ name) ∧
    ((∀ name, name ∈ (e.substitute scope σ).dependencies ↔
        ∃ n ∈ e.dependencies, name ∈ ((var n).substitute scope σ).dependencies) ↔
      (∀ m ∈ e.places, m.Free → ∀ name ∈ ((var m.name).substitute scope σ).dependencies,
        m.Kept ∨ name ∈ m.hidden → ∃ m' ∈ e.places, m'.Shows scope σ name) ∧
      ∀ m ∈ e.places, ¬m.Free ∨ m.Kept → ∀ name, m.Shows scope σ name →
        ∃ n ∈ e.dependencies, name ∈ ((var n).substitute scope σ).dependencies) :=
  ⟨fun _ => mem_dependencies_iff_places, fun _ => mem_dependencies_substitute,
    mem_dependencies_substitute_iff_exists e⟩

end

/-- The operator in `D(a*x,x,1)` captures an `x` that is put in the place of `a`, so that nothing is
free afterwards. -/
theorem dependencies_substitute_ne_union :
    let e := derivativeAt (binary .mul (var "a") (var "x")) "x" (ofInt 1)
    let σ : Substitutions := [("a", .expr (var "x"))]
    e.hasIssue = false ∧ e.dependencies = ["a"] ∧ (e.substitute [] σ).dependencies = [] ∧
      ¬∀ name, name ∈ (e.substitute [] σ).dependencies ↔
        ∃ n ∈ e.dependencies, name ∈ ((var n).substitute [] σ).dependencies := by
  intro e σ
  refine ⟨by decide +kernel, by decide +kernel, by decide +kernel, fun h => ?_⟩
  exact absurd (h "x") (by decide +kernel)

end Expr

end Formulary
