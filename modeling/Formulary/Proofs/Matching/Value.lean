import Formulary.Proofs.Matching.Matched
import Formulary.Proofs.Reading.Legible
import Formulary.Proofs.Substitution.Value

/-!
# What a match says about values

A pattern that matches an expression has the value of the expression once its wildcards have the
values of their texts (`value_of_matches`). A wildcard only keeps the text of what it stands for. So
the text has to tell the value, which it does unless it leaves the base of a power open
(`Expr.value_ofText_text`). Constants are compared after folding, by their numbers or their texts;
`Comparable` says when that tells their values.
-/

namespace Formulary

open Exact

namespace Expr

variable {e part piece : Expr}

/-- The groups of a legible expression are legible. -/
theorem legible_of_group (h : e.Legible) (hpart : part ∈ e.groups) : part.Legible := by
  obtain ⟨op, es, fs, rfl, hfs, hlength, rfl⟩ := mem_groups.1 hpart
  exact legible_iff.2 ⟨hlength, fun part hpart => (legible_iff.1 h).2 part (hfs.subset hpart)⟩

/-! ## Constants -/

theorem isConstant_of_allConstant {es : List Expr} (h : allConstant es = true) :
    ∀ e ∈ es, e.isConstant = true := by
  induction es with
  | nil => exact List.forall_mem_nil _
  | cons e es ih =>
    obtain ⟨he, hes⟩ := (Bool.and_eq_true _ _).mp h
    exact List.forall_mem_cons.2 ⟨he, ih hes⟩

/-- A constant has its value wherever the special constants have theirs. -/
theorem value_of_isConstant {F : FunctionValues} {ρ τ : Assignment} (h : e.isConstant = true)
    (hspecial : ∀ x, Names.isSpecial x = true → τ x = ρ x) :
    value F.interpretation e τ = value F.interpretation e ρ := by
  induction e using Expr.induction with
  | number n => rfl
  | var name => exact hspecial name h
  | unary op u ih => rw [value, value, ih h]
  | binary op u v ihu ihv =>
    obtain ⟨hu, hv⟩ := (Bool.and_eq_true _ _).mp h
    rw [value, value, ihu hu, ihv hv]
  | nary op es ih =>
    have hall := isConstant_of_allConstant h
    have hvalues : values F.interpretation es τ = values F.interpretation es ρ :=
      values_congr (List.forall₂_same.2 fun e he => ih e he (hall e he))
    rw [value, value, hvalues]
  | call f primes u ih => rw [value, value, ih h]
  | derivative body name _ => rfl
  | derivativeAt body name point _ _ => simp [value, FunctionValues.interpretation]
  | element | invalid | invalidPart => cases h

end Expr

namespace Matching

variable {F : FunctionValues} {ρ τ : Assignment} {p e : Expr} {ps es fs : List Expr}
  {σ σ₁ σ' final : Images} {x : String} {q : ℚ}

/-! ## Compared constants -/

/-- The comparison of two constants tells their values. Both are folded exactly, the folded
constants can be told from their texts, and folding does not make the one in the pattern more
defined. -/
structure Comparable (I : Interpretation) (ρ : Assignment) (pattern e : Expr) : Prop where
  patternExact : pattern.FoldsExactly {}
  exact : e.FoldsExactly {}
  patternReadable : (pattern.fold {}).Readable
  readable : (e.fold {}).Readable
  defined : (value I (pattern.fold {}) ρ).isSome = true → (value I pattern ρ).isSome = true

instance (I : Interpretation) (ρ : Assignment) (p e : Expr) : Decidable (Comparable I ρ p e) :=
  decidable_of_iff (p.FoldsExactly {} ∧ e.FoldsExactly {} ∧ (p.fold {}).Readable ∧
    (e.fold {}).Readable ∧ ((value I (p.fold {}) ρ).isSome = true → (value I p ρ).isSome = true))
    ⟨fun ⟨hp, he, hpr, her, hd⟩ => ⟨hp, he, hpr, her, hd⟩,
      fun ⟨hp, he, hpr, her, hd⟩ => ⟨hp, he, hpr, her, hd⟩⟩

theorem isConstant_of_compared (h : compared p e = true) : p.isConstant = true := by
  cases p with
  | number n => rfl
  | unary op u =>
    rw [compared, Bool.and_eq_true, Bool.and_eq_true] at h
    exact h.1.1
  | _ => cases h

theorem literal_default (n : Number) : Folding.literal {} n = .number n := rfl

/-- Constants agree if they fold to the same literal or to the same text. -/
theorem fold_of_compared (h : compared p e = true) :
    (∃ m n, p.fold {} = .number m ∧ e.fold {} = .number n ∧ m.same n = true) ∨
      (p.fold {}).text = (e.fold {}).text := by
  cases p with
  | number n =>
    replace h : number n e = true := h
    unfold number at h
    split at h
    · exact .inl ⟨n, _, literal_default n, literal_default _, h⟩
    · rw [Bool.and_eq_true, beq_iff_eq] at h
      exact .inr h.2.symm
  | unary op u =>
    simp only [compared, constant, Bool.and_eq_true, Bool.or_eq_true, beq_iff_eq] at h
    rcases h.2 with hsame | htext
    · split at hsame
      · rename_i m n hm hn
        exact .inl ⟨m, n, hm, hn, hsame⟩
      · cases hsame
    · exact .inr htext
  | _ => cases h

/-- Constants that agree have the same value if their comparison tells it. -/
theorem value_of_compared (h : compared p e = true)
    (hcomparable : Comparable F.interpretation ρ p e) (he : value F.interpretation e ρ = some q) :
    value F.interpretation p ρ = some q := by
  have hfolded : value F.interpretation (p.fold {}) ρ = some q := by
    have he := Expr.value_fold F hcomparable.exact he
    rcases fold_of_compared h with ⟨m, n, hm, hn, hsame⟩ | htext
    · have hlegible := (Expr.legible_iff.1 hcomparable.patternReadable.legible).1
      rw [hn] at he
      rw [hm] at hlegible ⊢
      cases n with
      | real v => cases he
      | exact s =>
        cases m with
        | real v => cases hlegible
        | exact r =>
          have hrs : r = s := beq_iff_eq.1 hsame
          rw [hrs]
          exact he
    · rw [← Expr.value_ofText_text hcomparable.patternReadable, htext,
        Expr.value_ofText_text hcomparable.readable]
      exact he
  obtain ⟨r, hr⟩ := Option.isSome_iff_exists.1 (hcomparable.defined (by rw [hfolded]; rfl))
  rw [hr, ← hfolded, Expr.value_fold F hcomparable.patternExact hr]

/-- The texts of the wildcards, to be read again in their places. -/
def substitutions (σ : Images) : Substitutions := σ.map fun (name, text) => (name, .text text)

theorem lookup_substitutions (σ : Images) (x : String) :
    (substitutions σ).lookup x = (σ.lookup x).map .text := by
  induction σ with
  | nil => rfl
  | cons image σ ih =>
    rw [substitutions, List.map_cons, List.lookup_cons, List.lookup_cons]
    cases x == image.1 with
    | true => rfl
    | false => exact ih

/-- What the names of a pattern stand for: the wildcards for the values of their texts. -/
def meaning (I : Interpretation) (σ : Images) (ρ : Assignment) : Assignment :=
  Substitution.assigned I [] (substitutions σ) ρ

theorem meaning_of_some {I : Interpretation} {text : String} (h : σ.lookup x = some text) :
    meaning I σ ρ x = value I (Expr.ofText text) ρ := by
  simp only [meaning, Substitution.assigned, lookup_substitutions, h, Option.map_some]
  rfl

theorem meaning_of_none {I : Interpretation} (h : σ.lookup x = none) : meaning I σ ρ x = ρ x := by
  simp only [meaning, Substitution.assigned, lookup_substitutions, h, Option.map_none]

/-! ## Values -/

/-- The meaning of a pattern can be told from what matching records. The expression is legible; the
text of a wildcard leaves no base of a power open; and compared constants are told by their
comparison. -/
structure Faithful (F : FunctionValues) (ρ : Assignment) (σ : Images) (pattern e : Expr) :
    Prop where
  legible : e.Legible
  closed : ∀ piece ∈ e.pieces, piece.text ∈ σ.map (·.2) → piece.basesClosed = true
  comparable : ∀ node ∈ pattern.nodes, ∀ piece ∈ e.pieces, compared node piece = true →
    Comparable F.interpretation ρ node piece

instance (F : FunctionValues) (ρ : Assignment) (σ : Images) (p e : Expr) :
    Decidable (Faithful F ρ σ p e) :=
  decidable_of_iff (e.Legible ∧
    (∀ piece ∈ e.pieces, piece.text ∈ σ.map (·.2) → piece.basesClosed = true) ∧
    ∀ node ∈ p.nodes, ∀ piece ∈ e.pieces, compared node piece = true →
      Comparable F.interpretation ρ node piece)
    ⟨fun ⟨hl, hb, hc⟩ => ⟨hl, hb, hc⟩, fun ⟨hl, hb, hc⟩ => ⟨hl, hb, hc⟩⟩

/-- What matching records tells the meaning of all parts that are lined up. -/
theorem Faithful.of_aligned (h : Faithful F ρ σ p e) (haligned : Aligned p e fs) {part f : Expr}
    (hpart : part ∈ p.children) (hf : f ∈ fs) : Faithful F ρ σ part f := by
  have hpieces : ∀ piece ∈ f.pieces, piece ∈ e.pieces := by
    intro piece hpiece
    rcases haligned.mem hf with hchild | hgroup
    · exact Expr.pieces_of_child hchild hpiece
    · exact Expr.pieces_of_group hgroup hpiece
  refine ⟨?_, fun piece hpiece => h.closed piece (hpieces piece hpiece),
    fun node hnode piece hpiece =>
      h.comparable node (Expr.mem_nodes_of_child hpart hnode) piece (hpieces piece hpiece)⟩
  rcases haligned.mem hf with hchild | hgroup
  · exact (Expr.legible_iff.1 h.legible).2 f hchild
  · exact Expr.legible_of_group h.legible hgroup

section

variable {I : Interpretation} {op : Family}

theorem value_grouped (h : Amount I ρ op es q) : value I (grouped op es) ρ = some q := by
  match es with
  | [e] =>
    obtain ⟨qs, hqs, rfl⟩ := h
    cases hqs with | cons he hnil =>
    cases hnil
    rw [family_singleton]
    exact he
  | [] | _ :: _ :: _ => exact value_nary.2 h

theorem amount_of_grouping {count : Nat} (hfs : IsGrouping op count es fs)
    (h : Amount I ρ op es q) : Amount I ρ op fs q := by
  obtain ⟨-, -, rfl | rfl⟩ := hfs
  · rw [← List.take_append_drop (count - 1) es] at h
    obtain ⟨r, s, hfirst, hlast, rfl⟩ := h.of_append
    exact hfirst.append (amount_singleton (value_grouped hlast))
  · rw [← List.take_append_drop (es.length - count + 1) es] at h
    obtain ⟨r, s, hfirst, hlast, rfl⟩ := h.of_append
    exact hlast.cons (value_grouped hfirst)

end

/-- The parts that are lined up have values where the expression has one, and a node of the pattern
has the value of the expression once its own parts have these values. -/
theorem Aligned.values (h : Aligned p e fs) (he : value F.interpretation e ρ = some q) :
    ∃ qs, Values F.interpretation ρ fs qs ∧
      ∀ τ, Values F.interpretation τ p.children qs → value F.interpretation p τ = some q := by
  cases h with
  | unary op u v =>
    obtain ⟨r, hv, hq⟩ := value_unary.1 he
    refine ⟨[r], .cons hv .nil, fun τ hparts => ?_⟩
    obtain ⟨hu, -⟩ := List.forall₂_cons.1 hparts
    exact value_unary.2 ⟨r, hu, hq⟩
  | binary op u v u' v' =>
    obtain ⟨r, hu', s, hv', hq⟩ := value_binary.1 he
    refine ⟨[r, s], .cons hu' (.cons hv' .nil), fun τ hparts => ?_⟩
    obtain ⟨hu, hparts⟩ := List.forall₂_cons.1 hparts
    obtain ⟨hv, -⟩ := List.forall₂_cons.1 hparts
    exact value_binary.2 ⟨r, hu, s, hv, hq⟩
  | nary op ps es fs hfs =>
    obtain ⟨qs, hqs, rfl⟩ := amount_of_grouping hfs (value_nary.1 he)
    exact ⟨qs, hqs, fun τ hparts => value_nary.2 ⟨qs, hparts, rfl⟩⟩
  | call f primes u v =>
    obtain ⟨r, hv, hq⟩ := value_call.1 he
    refine ⟨[r], .cons hv .nil, fun τ hparts => ?_⟩
    obtain ⟨hu, -⟩ := List.forall₂_cons.1 hparts
    exact value_call.2 ⟨r, hu, hq⟩
  | element | derivative | derivativeAt => simp [value, FunctionValues.interpretation] at he

theorem readable_special (hx : Names.isSpecial x = true) : (Expr.var x).Readable := by
  have hmem : x ∈ Names.specials := List.contains_iff_mem.1 hx
  have hname : ∀ x ∈ Names.specials, Token.IsName x := by decide +kernel
  refine ⟨Expr.legible_iff.2 ⟨hname x hmem, List.forall_mem_nil _⟩, ?_⟩
  rw [Expr.basesClosed_eq]
  rfl

/-- A special constant only matches what has its value. -/
theorem value_of_special (hx : Names.isSpecial x = true) (he : e.Legible) (htext : e.text = x) :
    value F.interpretation e = value F.interpretation (.var x) := by
  have hspecials : ∀ x ∈ Names.specials, '^' ∉ x.toList := by decide
  have hclosed : e.basesClosed = true :=
    Expr.basesClosed_of_text e (htext ▸ hspecials x (List.contains_iff_mem.1 hx))
  rw [← Expr.value_ofText_text ⟨he, hclosed⟩, ← Expr.value_ofText_text (readable_special hx), htext]
  rfl

theorem mem_of_lookup {text : String} (h : σ.lookup x = some text) : text ∈ σ.map (·.2) :=
  List.mem_map.2 ⟨(x, text), mem_of_lookup_eq_some h, rfl⟩

/-- A name of the pattern means the value of what it matched. -/
theorem meaning_of_name (h : name x e σ = some σ') (hfinal : Extends σ' final)
    (hspecial : ∀ y, Names.isSpecial y = true → final.lookup y = none)
    (hfaithful : Faithful F ρ final (.var x) e) :
    meaning F.interpretation final ρ x = value F.interpretation e ρ := by
  cases hx : Names.isSpecial x with
  | true =>
    rw [name, hx, if_pos rfl] at h
    rw [value_of_special hx hfaithful.legible (Option.ite_none_right_eq_some.1 h).1]
    exact meaning_of_none (hspecial x hx)
  | false =>
    have hlookup := hfinal x e.text (lookup_of_name hx h)
    have hclosed := hfaithful.closed e (Expr.mem_pieces_self e) (mem_of_lookup hlookup)
    rw [meaning_of_some hlookup, Expr.value_ofText_text ⟨hfaithful.legible, hclosed⟩]

theorem forall_pairs_cons {α β : Type} {P : α → β → Prop} {a : α} {b : β} {as : List α}
    {bs : List β} (h : ∀ x ∈ a :: as, ∀ y ∈ b :: bs, P x y) : P a b ∧ ∀ x ∈ as, ∀ y ∈ bs, P x y :=
  ⟨h a List.mem_cons_self b List.mem_cons_self,
    fun x hx y hy => h x (List.mem_cons_of_mem _ hx) y (List.mem_cons_of_mem _ hy)⟩

/-- The induction is on what the match consists of, for what the wildcards stand for in the end. -/
theorem Matched.values (h : Matched ps es σ σ') (hfinal : Extends σ' final)
    (hspecial : ∀ y, Names.isSpecial y = true → final.lookup y = none)
    (hfaithful : ∀ p ∈ ps, ∀ e ∈ es, Faithful F ρ final p e) {qs : List ℚ}
    (hes : Values F.interpretation ρ es qs) :
    Values F.interpretation (meaning F.interpretation final ρ) ps qs := by
  induction h generalizing qs with
  | nil σ =>
    cases hes
    exact .nil
  | @constant p e ps es σ σ' h rest ih =>
    cases hes with | cons he hes =>
    obtain ⟨hroot, htail⟩ := forall_pairs_cons hfaithful
    have hcomparable := hroot.comparable p (Expr.mem_nodes_self p) e (Expr.mem_pieces_self e) h
    refine .cons ?_ (ih hfinal htail hes)
    rw [Expr.value_of_isConstant (isConstant_of_compared h) fun y hy =>
      meaning_of_none (hspecial y hy)]
    exact value_of_compared h hcomparable he
  | @name x e ps es σ σ₁ σ' h rest ih =>
    cases hes with | cons he hes =>
    obtain ⟨hroot, htail⟩ := forall_pairs_cons hfaithful
    refine .cons ?_ (ih hfinal htail hes)
    rw [← he]
    exact meaning_of_name h (fun y text hy => hfinal y text (rest.extends y text hy)) hspecial hroot
  | @node p e fs ps es σ σ₁ σ' h parts rest ihparts ih =>
    cases hes with | cons he hes =>
    obtain ⟨hroot, htail⟩ := forall_pairs_cons hfaithful
    obtain ⟨rs, hrs, hvalue⟩ := h.values he
    have hparts := ihparts (fun y text hy => hfinal y text (rest.extends y text hy))
      (fun part hpart f hf => hroot.of_aligned h hpart hf) hrs
    exact .cons (hvalue _ hparts) (ih hfinal htail hes)

/-- A pattern has the value of what it matches once its wildcards have the values of their texts. -/
theorem value_of_matches (h : p.matches? e = some σ) (hfaithful : Faithful F ρ σ p e)
    (he : value F.interpretation e ρ = some q) :
    value F.interpretation p (meaning F.interpretation σ ρ) = some q := by
  have hmatched := matched_of_matchFrom p h
  have hspecial (y : String) (hy : Names.isSpecial y = true) : σ.lookup y = none :=
    (hmatched.lookup_special hy).trans rfl
  have hvalues := hmatched.values (fun _ _ => id) hspecial
    (List.forall_mem_singleton.2 (List.forall_mem_singleton.2 hfaithful)) (.cons he .nil)
  exact (List.forall₂_cons.1 hvalues).1

end Matching

end Formulary
