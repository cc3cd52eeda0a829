import Formulary.Matching
import Formulary.Proofs.Expr.Traversal
import Mathlib.Data.List.Infix

/-!
# What a match consists of

Matching goes through a pattern and an expression side by side. `Matched` says what it finds:
constants that are compared, wildcards, and nodes whose parts are matched with parts of the
expression. The operands of a sum or product may have been put into a group before; `Expr.pieces`
lists everything that may come to stand against a part of the pattern.

What holds of a match is then shown by induction on `Matched`, and `matchFrom` is not opened again.
-/

namespace Formulary

namespace Expr

variable {e part piece : Expr}

/-! ## Pieces -/

/-- Several neighbours among the operands of a sum or product, as an operation of their own. -/
def groups : Expr → List Expr
  | nary op es => ((es.tails.flatMap List.inits).filter (2 ≤ ·.length)).map (nary op)
  | _ => []

/-- What a part of a pattern may be matched with: the nodes of the expression and the groups of
operands in them. -/
def pieces (e : Expr) : List Expr := e.nodes.flatMap fun node => node :: node.groups

/-- A group is an operation over at least two neighbours. -/
theorem mem_groups : piece ∈ e.groups ↔
    ∃ op es fs, e = nary op es ∧ fs <:+: es ∧ 2 ≤ fs.length ∧ piece = nary op fs := by
  cases e with
  | nary op es =>
    simp only [groups, List.mem_map, List.mem_filter, List.mem_flatMap, List.mem_tails,
      List.mem_inits, decide_eq_true_eq]
    constructor
    · rintro ⟨fs, ⟨⟨ts, hsuffix, hprefix⟩, hlength⟩, rfl⟩
      exact ⟨op, es, fs, rfl, hprefix.isInfix.trans hsuffix.isInfix, hlength, rfl⟩
    · rintro ⟨_, _, fs, heq, ⟨before, after, happend⟩, hlength, rfl⟩
      obtain ⟨rfl, rfl⟩ := nary.inj heq
      refine ⟨fs, ⟨⟨fs ++ after, ⟨before, ?_⟩, List.prefix_append fs after⟩, hlength⟩, rfl⟩
      rw [← List.append_assoc, happend]
  | _ => simp [groups]

theorem mem_pieces : piece ∈ e.pieces ↔ ∃ node ∈ e.nodes, piece = node ∨ piece ∈ node.groups := by
  simp only [pieces, List.mem_flatMap, List.mem_cons]

theorem mem_pieces_self (e : Expr) : e ∈ e.pieces :=
  mem_pieces.2 ⟨e, mem_nodes_self e, .inl rfl⟩

theorem pieces_of_child (hpart : part ∈ e.children) (h : piece ∈ part.pieces) :
    piece ∈ e.pieces := by
  obtain ⟨node, hnode, hpiece⟩ := mem_pieces.1 h
  exact mem_pieces.2 ⟨node, mem_nodes_of_child hpart hnode, hpiece⟩

/-- A group of a group is a group. -/
theorem pieces_of_group (hpart : part ∈ e.groups) (h : piece ∈ part.pieces) :
    piece ∈ e.pieces := by
  obtain ⟨op, es, fs, rfl, hfs, hlength, rfl⟩ := mem_groups.1 hpart
  obtain ⟨node, hnode, hpiece⟩ := mem_pieces.1 h
  rw [nodes_eq, List.mem_cons, List.mem_flatMap] at hnode
  rcases hnode with rfl | ⟨part, hpart, hnode⟩
  · refine mem_pieces.2 ⟨_, mem_nodes_self _, .inr ?_⟩
    rcases hpiece with rfl | hpiece
    · assumption
    · obtain ⟨_, _, gs, heq, hgs, hlength, rfl⟩ := mem_groups.1 hpiece
      obtain ⟨rfl, rfl⟩ := nary.inj heq
      exact mem_groups.2 ⟨op, es, gs, rfl, hgs.trans hfs, hlength, rfl⟩
  · have hpart : part ∈ (nary op es).children := hfs.subset hpart
    exact mem_pieces.2 ⟨node, mem_nodes_of_child hpart hnode, hpiece⟩

end Expr

namespace Matching

variable {p e : Expr} {ps es fs : List Expr} {σ σ₁ σ' : Images} {x : String}

/-! ## Nodes, constants and wildcards -/

/-- The part of a pattern is a constant that agrees with the constant it is compared with. -/
def compared : (pattern e : Expr) → Bool
  | .number n, e => number n e
  | .unary op u, e => u.isConstant && e.isConstant && constant (.unary op u) e
  | _, _ => false

/-- A grouping of operands for a number of places. -/
def IsGrouping (op : Family) (count : Nat) (es fs : List Expr) : Prop :=
  0 < count ∧ count ≤ es.length ∧ (fs = groupedLast op count es ∨ fs = groupedFirst op count es)

/-- The node of a pattern fits the node of an expression, whose parts are lined up with its own. -/
inductive Aligned : Expr → Expr → List Expr → Prop
  | element (x : String) (u v : Expr) : Aligned (.element x u) (.element x v) [v]
  | unary (op : UnaryOp) (u v : Expr) : Aligned (.unary op u) (.unary op v) [v]
  | binary (op : BinaryOp) (u v u' v' : Expr) :
    Aligned (.binary op u v) (.binary op u' v') [u', v']
  | nary (op : Family) (ps es fs : List Expr) (h : IsGrouping op ps.length es fs) :
    Aligned (.nary op ps) (.nary op es) fs
  | call (f : String) (primes : Nat) (u v : Expr) :
    Aligned (.call f primes u) (.call f primes v) [v]
  | derivative (x : String) (u v : Expr) : Aligned (.derivative u x) (.derivative v x) [v]
  | derivativeAt (x : String) (u v u' v' : Expr) :
    Aligned (.derivativeAt u x v) (.derivativeAt u' x v') [u', v']

/-- Patterns match expressions, one after another: from what some wildcards stand for to what they
stand for afterwards. -/
inductive Matched : (patterns es : List Expr) → (before after : Images) → Prop
  | nil (σ : Images) : Matched [] [] σ σ
  | constant {p e : Expr} {ps es : List Expr} {σ σ' : Images} (h : compared p e = true)
    (rest : Matched ps es σ σ') : Matched (p :: ps) (e :: es) σ σ'
  | name {x : String} {e : Expr} {ps es : List Expr} {σ σ₁ σ' : Images}
    (h : name x e σ = some σ₁) (rest : Matched ps es σ₁ σ') :
    Matched (.var x :: ps) (e :: es) σ σ'
  | node {p e : Expr} {fs ps es : List Expr} {σ σ₁ σ' : Images} (h : Aligned p e fs)
    (parts : Matched p.children fs σ σ₁) (rest : Matched ps es σ₁ σ') :
    Matched (p :: ps) (e :: es) σ σ'

theorem Matched.cons (h : Matched [p] [e] σ σ₁) (rest : Matched ps es σ₁ σ') :
    Matched (p :: ps) (e :: es) σ σ' := by
  cases h with
  | constant h hnil =>
    cases hnil
    exact .constant h rest
  | name h hnil =>
    cases hnil
    exact .name h rest
  | node h parts hnil =>
    cases hnil
    exact .node h parts rest

/-- A match of some operands is one for some grouping of them. -/
theorem groupings_eq_some {op : Family} {count : Nat} {attempt : List Expr → Option Images}
    (h : groupings op count es attempt = some σ') :
    ∃ fs, IsGrouping op count es fs ∧ attempt fs = some σ' := by
  unfold groupings at h
  split at h
  · cases h
  · rename_i hcount
    simp only [Bool.or_eq_true, decide_eq_true_eq, not_or, Nat.not_lt] at hcount
    have hpos := Nat.pos_of_ne_zero hcount.1
    have hlast : IsGrouping op count es (groupedLast op count es) := ⟨hpos, hcount.2, .inl rfl⟩
    split at h
    · exact ⟨_, hlast, h⟩
    · cases hattempt : attempt (groupedLast op count es) with
      | some τ =>
        rw [hattempt] at h
        exact ⟨_, hlast, hattempt.trans h⟩
      | none =>
        rw [hattempt] at h
        exact ⟨_, ⟨hpos, hcount.2, .inr rfl⟩, h⟩

theorem matchListFrom_singleton : Expr.matchListFrom [p] [e] σ = p.matchFrom e σ := by
  simp [Expr.matchListFrom]

/-- The ways in which a pattern can match. -/
theorem matchFrom_eq_some (h : p.matchFrom e σ = some σ') :
    (compared p e = true ∧ σ' = σ) ∨ (∃ x, p = .var x ∧ name x e σ = some σ') ∨
      ∃ fs, Aligned p e fs ∧ Expr.matchListFrom p.children fs σ = some σ' := by
  unfold Expr.matchFrom at h
  split at h
  · cases h
  · cases p with
    | number n =>
      obtain ⟨hnumber, hσ⟩ := Option.ite_none_right_eq_some.1 h
      exact .inl ⟨hnumber, (Option.some.inj hσ).symm⟩
    | var x => exact .inr (.inl ⟨x, rfl, h⟩)
    | element x u =>
      cases e with
      | element y v =>
        obtain ⟨rfl, hparts⟩ := Option.ite_none_right_eq_some.1 h
        exact .inr (.inr ⟨_, .element x u v, matchListFrom_singleton.trans hparts⟩)
      | _ => cases h
    | unary op u =>
      simp only at h
      split at h
      · rename_i hconstant
        obtain ⟨hsame, hσ⟩ := Option.ite_none_right_eq_some.1 h
        exact .inl ⟨(Bool.and_eq_true _ _).mpr ⟨hconstant, hsame⟩, (Option.some.inj hσ).symm⟩
      · cases e with
        | unary op' v =>
          obtain ⟨rfl, hparts⟩ := Option.ite_none_right_eq_some.1 h
          exact .inr (.inr ⟨_, .unary op u v, matchListFrom_singleton.trans hparts⟩)
        | _ => cases h
    | binary op u v =>
      cases e with
      | binary op' u' v' =>
        obtain ⟨rfl, hparts⟩ := Option.ite_none_right_eq_some.1 h
        refine .inr (.inr ⟨_, .binary op u v u' v', ?_⟩)
        simpa [Expr.children, Expr.matchListFrom] using hparts
      | _ => cases h
    | nary op ps =>
      cases e with
      | nary op' es =>
        obtain ⟨rfl, hparts⟩ := Option.ite_none_right_eq_some.1 h
        obtain ⟨fs, hfs, hmatch⟩ := groupings_eq_some hparts
        exact .inr (.inr ⟨fs, .nary op ps es fs hfs, hmatch⟩)
      | _ => cases h
    | call f m u =>
      cases e with
      | call g n v =>
        obtain ⟨⟨rfl, rfl⟩, hparts⟩ := Option.ite_none_right_eq_some.1 h
        exact .inr (.inr ⟨_, .call f m u v, matchListFrom_singleton.trans hparts⟩)
      | _ => cases h
    | derivative u x =>
      cases e with
      | derivative v y =>
        obtain ⟨rfl, hparts⟩ := Option.ite_none_right_eq_some.1 h
        exact .inr (.inr ⟨_, .derivative x u v, matchListFrom_singleton.trans hparts⟩)
      | _ => cases h
    | derivativeAt u x v =>
      cases e with
      | derivativeAt u' y v' =>
        obtain ⟨rfl, hparts⟩ := Option.ite_none_right_eq_some.1 h
        refine .inr (.inr ⟨_, .derivativeAt x u v u' v', ?_⟩)
        simpa [Expr.children, Expr.matchListFrom] using hparts
      | _ => cases h
    | invalid | invalidPart => cases h

theorem matched_of_matchListFrom
    (hps : ∀ p ∈ ps, ∀ e σ σ', p.matchFrom e σ = some σ' → Matched [p] [e] σ σ')
    (h : Expr.matchListFrom ps es σ = some σ') : Matched ps es σ σ' := by
  induction ps generalizing es σ with
  | nil =>
    cases es with
    | nil =>
      obtain rfl := Option.some.inj h
      exact .nil σ
    | cons e es => cases h
  | cons p ps ih =>
    cases es with
    | nil => cases h
    | cons e es =>
      rw [List.forall_mem_cons] at hps
      simp only [Expr.matchListFrom, Option.bind_eq_bind, Option.bind_eq_some_iff] at h
      obtain ⟨σ₁, hp, hrest⟩ := h
      exact (hps.1 e σ σ₁ hp).cons (ih hps.2 hrest)

theorem matched_of_matchFrom (p : Expr) (h : p.matchFrom e σ = some σ') :
    Matched [p] [e] σ σ' := by
  induction p using Expr.induction_children generalizing e σ σ' with
  | step p ih =>
    rcases matchFrom_eq_some h with ⟨hcompared, rfl⟩ | ⟨x, rfl, hname⟩ | ⟨fs, haligned, hparts⟩
    · exact .constant hcompared (.nil _)
    · exact .name hname (.nil _)
    · have hmatched := matched_of_matchListFrom (fun p hp e σ σ' => ih p hp) hparts
      exact .node haligned hmatched (.nil _)

theorem mem_or_group_of_grouped {op : Family} (hne : fs ≠ []) (hfs : fs <:+: es) :
    grouped op fs ∈ es ∨ grouped op fs ∈ (Expr.nary op es).groups := by
  match fs with
  | [] => exact absurd rfl hne
  | [f] => exact .inl (hfs.subset List.mem_cons_self)
  | f :: g :: fs =>
    exact .inr (Expr.mem_groups.2 ⟨op, es, f :: g :: fs, rfl, hfs, Nat.le_add_left .., rfl⟩)

/-- The parts that are lined up are parts of the expression, or groups of its operands. -/
theorem Aligned.mem {f : Expr} (h : Aligned p e fs) (hf : f ∈ fs) :
    f ∈ e.children ∨ f ∈ e.groups := by
  cases h with
  | nary op ps es fs h =>
    obtain ⟨hpos, hle, rfl | rfl⟩ := h
    · rcases List.mem_append.1 hf with hf | hf
      · exact .inl (List.mem_of_mem_take hf)
      · rw [List.mem_singleton.1 hf]
        refine mem_or_group_of_grouped ?_ (List.drop_suffix _ es).isInfix
        rw [Ne, List.drop_eq_nil_iff]
        omega
    · rcases List.mem_cons.1 hf with rfl | hf
      · refine mem_or_group_of_grouped ?_ (List.take_prefix _ es).isInfix
        rw [Ne, List.take_eq_nil_iff, ← List.length_eq_zero_iff]
        omega
      · exact .inl (List.mem_of_mem_drop hf)
  | _ => exact .inl hf

/-! ## Wildcards -/

/-- What a wildcard stands for stays so. -/
def Extends (σ σ' : Images) : Prop := ∀ x text, σ.lookup x = some text → σ'.lookup x = some text

theorem extends_of_name (h : name x e σ = some σ') : Extends σ σ' := by
  unfold name at h
  split at h
  · obtain rfl := Option.some.inj (Option.ite_none_right_eq_some.1 h).2
    exact fun _ _ => id
  · split at h
    · rename_i hnone
      obtain rfl := Option.some.inj (Option.ite_none_right_eq_some.1 h).2
      intro y text hy
      have hne : y ≠ x := by
        rintro rfl
        rw [hnone] at hy
        cases hy
      rw [List.lookup_cons, beq_eq_false_iff_ne.2 hne]
      exact hy
    · obtain rfl := Option.some.inj (Option.ite_none_right_eq_some.1 h).2
      exact fun _ _ => id

/-- A special constant is no wildcard. -/
theorem lookup_special_of_name (h : name x e σ = some σ') {y : String}
    (hy : Names.isSpecial y = true) : σ'.lookup y = σ.lookup y := by
  unfold name at h
  split at h
  · rw [Option.some.inj (Option.ite_none_right_eq_some.1 h).2]
  · rename_i hx
    split at h
    · obtain rfl := Option.some.inj (Option.ite_none_right_eq_some.1 h).2
      have hne : y ≠ x := by
        rintro rfl
        exact hx hy
      rw [List.lookup_cons, beq_eq_false_iff_ne.2 hne]
    · rw [Option.some.inj (Option.ite_none_right_eq_some.1 h).2]

theorem Matched.extends (h : Matched ps es σ σ') : Extends σ σ' := by
  induction h with
  | nil => exact fun _ _ => id
  | constant _ _ ih => exact ih
  | name h _ ih => exact fun x text hx => ih x text (extends_of_name h x text hx)
  | node _ _ _ ihparts ih => exact fun x text hx => ih x text (ihparts x text hx)

theorem Matched.lookup_special (h : Matched ps es σ σ') {y : String}
    (hy : Names.isSpecial y = true) : σ'.lookup y = σ.lookup y := by
  induction h with
  | nil => rfl
  | constant _ _ ih => exact ih
  | name h _ ih => rw [ih, lookup_special_of_name h hy]
  | node _ _ _ ihparts ih => rw [ih, ihparts]

/-- A wildcard that was matched stands for the text of the expression. -/
theorem lookup_of_name (hx : Names.isSpecial x = false) (h : name x e σ = some σ') :
    σ'.lookup x = some e.text := by
  rw [name, hx, if_neg Bool.false_ne_true] at h
  split at h
  · obtain rfl := Option.some.inj (Option.ite_none_right_eq_some.1 h).2
    rw [List.lookup_cons, beq_self_eq_true]
  · rename_i text hlookup
    obtain ⟨rfl, hσ⟩ := Option.ite_none_right_eq_some.1 h
    rw [← Option.some.inj hσ]
    exact hlookup

end Matching

end Formulary
