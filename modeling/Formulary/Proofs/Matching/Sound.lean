import Formulary.Proofs.Expr.Operations
import Formulary.Proofs.Matching.Text

/-!
# Matching is sound

What a pattern matches has the value of an instance of the pattern, wherever it has a value
(`matchFrom_sound`). The instance need not be the expression itself. A literal stands for every
constant that folds to it, operands are grouped where there are more of them than places, and a
wildcard that occurs again takes any expression with the text that was recorded. So an instance has,
in the place of each occurrence of a wildcard, some expression with the recorded text (`Instance`).
-/

namespace Formulary

open Exact

namespace Expr

/-- The operand, if the expression is a unary operation. -/
def operand? : Expr → Option Expr
  | unary _ operand => some operand
  | _ => none

/-! ## Constants -/

theorem structural_isConstant : Structural fun e => e.isConstant = true where
  zero := rfl
  one := rfl
  unary _ _ := Iff.rfl
  binary _ _ _ := Bool.and_eq_true_iff
  nary op es := by
    refine ⟨isConstant_of_allConstant, fun h => ?_⟩
    change allConstant es = true
    induction es with
    | nil => rfl
    | cons e es ih =>
      obtain ⟨he, hes⟩ := List.forall_mem_cons.1 h
      exact (Bool.and_eq_true _ _).mpr ⟨he, ih hes⟩

/-- A folded constant is a constant. -/
theorem isConstant_fold (e : Expr) (h : e.isConstant = true) : (e.fold {}).isConstant = true := by
  have hliteral (n : Number) : (Folding.literal {} n).isConstant = true := rfl
  induction e using Expr.induction with
  | number n => exact hliteral n
  | var x => exact h
  | unary op u ih => exact Folding.of_unary structural_isConstant hliteral op (ih h)
  | binary op u v ihu ihv =>
    obtain ⟨hu, hv⟩ := (Bool.and_eq_true _ _).mp h
    exact Folding.of_binary structural_isConstant hliteral op (ihu hu) (ihv hv)
  | nary op es ih =>
    rw [fold, foldList_eq_map]
    apply Folding.of_nary structural_isConstant hliteral op
    intro e he
    obtain ⟨part, hpart, rfl⟩ := List.mem_map.1 he
    exact ih part hpart (isConstant_of_allConstant h part hpart)
  | call f primes u ih => exact ih h
  | derivative body name ih => exact ih h
  | derivativeAt body name point ihbody ihpoint =>
    obtain ⟨hbody, hpoint⟩ := (Bool.and_eq_true _ _).mp h
    exact (Bool.and_eq_true _ _).mpr ⟨ihbody hbody, ihpoint hpoint⟩
  | element | invalid | invalidPart => cases h

end Expr

namespace Matching

open Formulary.Expr

variable {F : FunctionValues} {ρ : Assignment} {p e part : Expr} {ps es fs gs : List Expr}
  {σ σ₁ σ' final : Images} {x : String} {q : ℚ}

/-! ## Instances of what was recorded -/

/-- The pattern with an expression in the place of each occurrence of a wildcard, whose text is the
one that is recorded for the wildcard. -/
inductive Instance (σ : Images) : (pattern e : Expr) → Prop
  | wildcard {x : String} {e : Expr} (hx : Names.isSpecial x = false)
    (h : σ.lookup x = some e.text) : Instance σ (.var x) e
  | node {p : Expr} {es : List Expr} (hp : ∀ x ∈ p.var?, Names.isSpecial x = true)
    (h : List.Forall₂ (Instance σ) p.children es) : Instance σ p (p.withChildren es)

/-- What has no parts and is no wildcard stands for itself. -/
theorem instance_self (hp : ∀ x ∈ p.var?, Names.isSpecial x = true) (hparts : p.children = []) :
    Instance σ p p := by
  have hnil : List.Forall₂ (Instance σ) p.children p.children := by
    rw [hparts]
    exact .nil
  have hnode := Instance.node hp hnil
  rwa [withChildren_children] at hnode

/-- The literals of a pattern are compared exactly with what may come to stand against them: they
are fractions, none is under a unary operator, and the constants fold without rounding. -/
structure ComparedExactly (pattern e : Expr) : Prop where
  literals : ∀ node ∈ pattern.nodes, ∀ n ∈ node.number?, n.isExact = true
  operands : ∀ node ∈ pattern.nodes, ∀ u ∈ node.operand?, u.isConstant = false
  folds : ∀ node ∈ pattern.nodes, ∀ piece ∈ e.pieces, compared node piece = true →
    piece.FoldsExactly {}

instance (p e : Expr) : Decidable (ComparedExactly p e) :=
  decidable_of_iff ((∀ node ∈ p.nodes, ∀ n ∈ node.number?, n.isExact = true) ∧
    (∀ node ∈ p.nodes, ∀ u ∈ node.operand?, u.isConstant = false) ∧
    ∀ node ∈ p.nodes, ∀ piece ∈ e.pieces, compared node piece = true → piece.FoldsExactly {})
    ⟨fun ⟨hl, ho, hf⟩ => ⟨hl, ho, hf⟩, fun ⟨hl, ho, hf⟩ => ⟨hl, ho, hf⟩⟩

/-- What is compared exactly is so in all parts that are lined up. -/
theorem ComparedExactly.of_aligned (h : ComparedExactly p e) (haligned : Aligned p e fs)
    (hpart : part ∈ p.children) {f : Expr} (hf : f ∈ fs) : ComparedExactly part f := by
  have hpieces : ∀ piece ∈ f.pieces, piece ∈ e.pieces := by
    intro piece hpiece
    rcases haligned.mem hf with hchild | hgroup
    · exact pieces_of_child hchild hpiece
    · exact pieces_of_group hgroup hpiece
  constructor
  · intro node hnode
    exact h.literals node (mem_nodes_of_child hpart hnode)
  · intro node hnode
    exact h.operands node (mem_nodes_of_child hpart hnode)
  · intro node hnode piece hpiece
    exact h.folds node (mem_nodes_of_child hpart hnode) piece (hpieces piece hpiece)

/-- A compared constant is a literal of the pattern, which has the value of what it is compared
with. -/
theorem ComparedExactly.value (h : ComparedExactly p e) (hcompared : compared p e = true) :
    Instance σ p p ∧
      ∀ F ρ q, value (FunctionValues.interpretation F) e ρ = some q →
        value F.interpretation p ρ = some q := by
  cases p with
  | number n =>
    refine ⟨instance_self nofun rfl, fun F ρ q he => ?_⟩
    have hfolds := h.folds _ (mem_nodes_self _) e (mem_pieces_self e) hcompared
    have hexact := h.literals _ (mem_nodes_self _) n rfl
    cases n with
    | real v => cases hexact
    | exact r =>
      suffices hq : q = r by
        rw [hq]
        rfl
      replace hcompared : number (.exact r) e = true := hcompared
      unfold number at hcompared
      split at hcompared
      · rename_i n
        cases n with
        | real v => cases he
        | exact s =>
          have hrs : r = s := beq_iff_eq.1 hcompared
          rw [hrs]
          exact (Option.some.inj he).symm
      · obtain ⟨hconstant, htext⟩ := (Bool.and_eq_true _ _).mp hcompared
        have htext := congrArg String.toList (beq_iff_eq.1 htext)
        exact value_of_text_write _ (isConstant_fold _ hconstant) htext (value_fold F hfolds he)
  | unary op u =>
    have hconstant := ((Bool.and_eq_true _ _).mp ((Bool.and_eq_true _ _).mp hcompared).1).1
    rw [h.operands _ (mem_nodes_self _) u rfl] at hconstant
    cases hconstant
  | _ => cases hcompared

/-- A name of the pattern has an instance with the value of what it matched. -/
theorem instance_of_name (h : name x e σ = some σ') (hfinal : Extends σ' final) :
    ∃ g, Instance final (.var x) g ∧
      ∀ F ρ q, value (FunctionValues.interpretation F) e ρ = some q →
        value F.interpretation g ρ = some q := by
  cases hx : Names.isSpecial x with
  | true =>
    rw [name, if_pos hx] at h
    obtain ⟨rfl, -⟩ := Option.ite_none_right_eq_some.1 h
    refine ⟨var e.text, instance_self ?_ rfl, ?_⟩
    · rintro _ ⟨⟩
      exact hx
    · intro F ρ q he
      exact value_of_text_word e (not_isMark_of_special hx) he
  | false =>
    exact ⟨e, .wildcard hx (hfinal x _ (lookup_of_name hx h)), fun _ _ _ he => he⟩

/-- How a pattern is lined up with an expression does not depend on the parts of the pattern. -/
theorem Aligned.withChildren (h : Aligned p e fs) (hlength : gs.length = p.children.length) :
    Aligned (p.withChildren gs) e fs := by
  cases h with
  | nary op ps es fs h =>
    have hfill : fill ps gs = gs := fill_eq hlength.symm
    have hsame : gs.length = ps.length := hlength
    rw [Expr.withChildren, hfill]
    exact .nary op gs es fs (hsame ▸ h)
  | binary op u v u' v' =>
    obtain ⟨a, b, rfl⟩ := List.length_eq_two.1 hlength
    exact .binary op a b u' v'
  | derivativeAt x u v u' v' =>
    obtain ⟨a, b, rfl⟩ := List.length_eq_two.1 hlength
    exact .derivativeAt x a b u' v'
  | element x u v =>
    obtain ⟨a, rfl⟩ := List.length_eq_one_iff.1 hlength
    exact .element x a v
  | unary op u v =>
    obtain ⟨a, rfl⟩ := List.length_eq_one_iff.1 hlength
    exact .unary op a v
  | call f primes u v =>
    obtain ⟨a, rfl⟩ := List.length_eq_one_iff.1 hlength
    exact .call f primes a v
  | derivative x u v =>
    obtain ⟨a, rfl⟩ := List.length_eq_one_iff.1 hlength
    exact .derivative x a v

theorem Aligned.var?_eq_none (h : Aligned p e fs) : p.var? = none := by cases h <;> rfl

/-- The induction is on what the match consists of. Each pattern has an instance of its own with the
value of the expression it was matched with. -/
theorem Matched.instances (h : Matched ps es σ σ') (hfinal : Extends σ' final)
    (hexact : ∀ p ∈ ps, ∀ e ∈ es, ComparedExactly p e) :
    ∃ gs, List.Forall₂ (Instance final) ps gs ∧
      ∀ F ρ qs, Values (FunctionValues.interpretation F) ρ es qs →
        Values F.interpretation ρ gs qs := by
  induction h with
  | nil σ => exact ⟨[], .nil, fun _ _ _ => id⟩
  | @constant p e ps es σ σ' h rest ih =>
    obtain ⟨hroot, htail⟩ := forall_pairs_cons hexact
    obtain ⟨gs, hgs, hvalues⟩ := ih hfinal htail
    obtain ⟨hself, hvalue⟩ := hroot.value h
    refine ⟨p :: gs, .cons hself hgs, ?_⟩
    rintro F ρ _ (_ | ⟨he, hes⟩)
    exact .cons (hvalue F ρ _ he) (hvalues F ρ _ hes)
  | @name x e ps es σ σ₁ σ' h rest ih =>
    obtain ⟨hroot, htail⟩ := forall_pairs_cons hexact
    obtain ⟨gs, hgs, hvalues⟩ := ih hfinal htail
    obtain ⟨g, hg, hvalue⟩ := instance_of_name h fun y text hy =>
      hfinal y text (rest.extends y text hy)
    refine ⟨g :: gs, .cons hg hgs, ?_⟩
    rintro F ρ _ (_ | ⟨he, hes⟩)
    exact .cons (hvalue F ρ _ he) (hvalues F ρ _ hes)
  | @node p e fs ps es σ σ₁ σ' h parts rest ihparts ih =>
    obtain ⟨hroot, htail⟩ := forall_pairs_cons hexact
    obtain ⟨gs, hgs, hvalues⟩ := ih hfinal htail
    obtain ⟨as, has, hparts⟩ := ihparts
      (fun y text hy => hfinal y text (rest.extends y text hy))
      (fun part hpart f hf => hroot.of_aligned h hpart hf)
    have hlength : as.length = p.children.length := has.length_eq.symm
    refine ⟨p.withChildren as :: gs, .cons (.node ?_ has) hgs, ?_⟩
    · rw [h.var?_eq_none]
      nofun
    · rintro F ρ _ (_ | ⟨he, hes⟩)
      refine .cons ?_ (hvalues F ρ _ hes)
      obtain ⟨rs, hrs, hvalue⟩ := (h.withChildren hlength).values he
      apply hvalue ρ
      rw [children_withChildren hlength]
      exact hparts F ρ rs hrs

/-! ## What is recorded -/

theorem isSome_lookup_of_name (h : name x e σ = some σ') (y : String) :
    (σ'.lookup y).isSome = true ↔ (σ.lookup y).isSome = true ∨ y ∈ (var x).wildcards := by
  rw [wildcards_var]
  unfold name at h
  split at h
  · rename_i hx
    obtain ⟨-, hσ⟩ := Option.ite_none_right_eq_some.1 h
    rw [Option.some.inj hσ, if_pos hx]
    simp
  · rename_i hx
    rw [if_neg hx, List.mem_singleton]
    split at h
    · obtain ⟨-, hσ⟩ := Option.ite_none_right_eq_some.1 h
      rw [← Option.some.inj hσ, List.lookup_cons]
      by_cases hy : y = x
      · subst hy
        simp
      · rw [beq_eq_false_iff_ne.2 hy]
        exact (or_iff_left hy).symm
    · rename_i text hlookup
      obtain ⟨-, hσ⟩ := Option.ite_none_right_eq_some.1 h
      obtain rfl := Option.some.inj hσ
      refine ⟨.inl, ?_⟩
      rintro (hy | rfl)
      · exact hy
      · rw [hlookup]
        rfl

/-- Something is recorded for the wildcards of the patterns, and for nothing else. -/
theorem Matched.isSome_lookup (h : Matched ps es σ σ') (y : String) :
    (σ'.lookup y).isSome = true ↔
      (σ.lookup y).isSome = true ∨ y ∈ ps.flatMap wildcards := by
  induction h with
  | nil => simp
  | constant h _ ih =>
    rw [ih, List.flatMap_cons, wildcards_of_isConstant _ (isConstant_of_compared h),
      List.nil_append]
  | name h _ ih => rw [ih, isSome_lookup_of_name h, List.flatMap_cons, List.mem_append, or_assoc]
  | node h _ _ ihparts ih =>
    rw [ih, ihparts, List.flatMap_cons, List.mem_append, wildcards_of_var? h.var?_eq_none, or_assoc]

/-- A match adds the wildcards of the pattern to what was recorded before and changes nothing. An
instance of the pattern by what is recorded has the value of the expression wherever the expression
has one. -/
theorem matchFrom_sound (h : p.matchFrom e σ = some σ') (hexact : ComparedExactly p e) :
    Extends σ σ' ∧
      (∀ x, (σ'.lookup x).isSome = true ↔ (σ.lookup x).isSome = true ∨ x ∈ p.wildcards) ∧
      ∃ e', Instance σ' p e' ∧
        ∀ F ρ q, value (FunctionValues.interpretation F) e ρ = some q →
          value F.interpretation e' ρ = some q := by
  have hmatched := matched_of_matchFrom p h
  refine ⟨hmatched.extends, fun x => ?_, ?_⟩
  · rw [hmatched.isSome_lookup, List.flatMap_singleton]
  · obtain ⟨_, ⟨⟩ | ⟨hinstance, ⟨⟩⟩, hvalues⟩ := hmatched.instances (fun _ _ => id)
      (List.forall_mem_singleton.2 (List.forall_mem_singleton.2 hexact))
    refine ⟨_, hinstance, fun F ρ q he => ?_⟩
    exact (List.forall₂_cons.1 (hvalues F ρ [q] (.cons he .nil))).1

/-- The second `a` is `x` put in a sum of its own. -/
theorem matchFrom_sound_sum :
    let p := Expr.nary .sum [.binary .mul (.ofInt 2) (.call "f" 0 (.var "a")), .var "a", .var "b"]
    let e := Expr.nary .sum [.binary .mul (.binary .sub (.ofInt 3) (.ofInt 1))
      (.call "f" 0 (.var "x")), .nary .sum [.var "x"], .var "y", .unary .neg (.var "pi")]
    let σ : Images := [("c", "7")]
    let σ' : Images := [("b", "y+-pi"), ("a", "x"), ("c", "7")]
    p.matchFrom e σ = some σ' ∧ ComparedExactly p e ∧ Extends σ σ' ∧
      (∀ x, (σ'.lookup x).isSome = true ↔ (σ.lookup x).isSome = true ∨ x ∈ p.wildcards) ∧
      ∃ e', Instance σ' p e' ∧
        ∀ F ρ q, value (FunctionValues.interpretation F) e ρ = some q →
          value F.interpretation e' ρ = some q := by
  intro p e σ σ'
  have hmatch : p.matchFrom e σ = some σ' := by decide +kernel
  have hexact : ComparedExactly p e := by decide +kernel
  exact ⟨hmatch, hexact, matchFrom_sound hmatch hexact⟩

end Matching

end Formulary
