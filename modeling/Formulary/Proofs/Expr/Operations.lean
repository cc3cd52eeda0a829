import Formulary.Proofs.Flattening.Value
import Formulary.Proofs.Folding.Idempotence
import Formulary.Proofs.Substitution.Value

/-!
# Properties that operations take over from their operands

A property that an operation has if and only if its operands have it is kept where expressions are
put together anew: by flattening, which takes sums and products apart, by folding, as long as the
literals that it writes have the property, and by the operations of a substitution.
-/

namespace Formulary

namespace Expr

/-- A property that an operation has if and only if its operands have it. Zero and one, the values
of empty sums and products, have it. -/
structure Structural (P : Expr → Prop) : Prop where
  zero : P (.ofInt 0)
  one : P (.ofInt 1)
  unary (op : UnaryOp) (u : Expr) : P (.unary op u) ↔ P u
  binary (op : BinaryOp) (u v : Expr) : P (.binary op u v) ↔ P u ∧ P v
  nary (op : Family) (es : List Expr) : P (.nary op es) ↔ ∀ e ∈ es, P e

/-- What holds of all nodes of an expression, if it holds of every operation. -/
theorem structural_of_nodes {p : Expr → Prop} (hzero : p (.ofInt 0)) (hone : p (.ofInt 1))
    (hunary : ∀ op u, p (.unary op u)) (hbinary : ∀ op u v, p (.binary op u v))
    (hnary : ∀ op es, p (.nary op es)) : Structural fun e => ∀ node ∈ e.nodes, p node where
  zero := (forall_mem_nodes_of_root hzero).2 (List.forall_mem_nil _)
  one := (forall_mem_nodes_of_root hone).2 (List.forall_mem_nil _)
  unary op u := forall_mem_nodes_single (hunary op u) rfl
  binary op u v := forall_mem_nodes_pair (hbinary op u v) rfl
  nary op es := forall_mem_nodes_of_root (hnary op es)

end Expr

open Formulary.Expr

variable {P : Expr → Prop} {es : List Expr}

/-! ## Flattening -/

namespace Flattened

/-- The whole of a flattened expression has a property, and so have the operands it brings. -/
structure All (P : Expr → Prop) (f : Flattened) : Prop where
  whole : P f.whole
  operands (op : Family) : ∀ e ∈ f.operands op, P e

theorem of_mem_spread (h : Structural P) {e : Expr} (he : P e) (op : Family) :
    ∀ part ∈ spread op e, P part := by
  unfold spread
  split
  · split
    · exact (h.nary _ _).1 he
    · exact List.forall_mem_singleton.2 he
  · exact List.forall_mem_singleton.2 he

theorem of_invert (h : Structural P) {e : Expr} (he : P e) (op : Family) : P (invert op e) := by
  unfold invert
  split
  · split
    · exact (h.unary _ _).1 he
    · exact (h.unary _ _).2 he
  · exact (h.unary _ _).2 he

theorem all_ofExpr (h : Structural P) {e : Expr} (he : P e) : All P (ofExpr e) := by
  refine ⟨he, fun op => ?_⟩
  rw [operands_ofExpr]
  exact of_mem_spread h he op

end Flattened

namespace Substitution

/-- Two literals that become one have the property before and after. -/
theorem binary_iff (h : Structural P) (hnumber : ∀ n, P (.number n)) (op : BinaryOp) {u v : Expr} :
    P (binary op u v) ↔ P u ∧ P v := by
  unfold binary
  cases hw : literals? op u v with
  | none => exact h.binary op u v
  | some w =>
    obtain ⟨m, n, k, rfl, rfl, rfl, -, -⟩ := literals?_eq_some hw
    exact iff_of_true (hnumber k) ⟨hnumber m, hnumber n⟩

theorem nary_iff (h : Structural P) (op : Family) : P (nary op es) ↔ ∀ e ∈ es, P e := by
  match es with
  | [] =>
    refine iff_of_true ?_ (List.forall_mem_nil _)
    cases op with
    | sum => exact h.zero
    | product => exact h.one
  | [e] => exact List.forall_mem_singleton.symm
  | _ :: _ :: _ => exact h.nary op _

end Substitution

namespace Flattened

theorem of_build (h : Structural P) (op : Family) (hes : ∀ e ∈ es, P e) : P (build op es) := by
  rw [build_eq]
  exact (Substitution.nary_iff h op).2 fun e he => hes e ((arranged_perm op es).mem_iff.1 he)

theorem all_ofOperands (h : Structural P) (op : Family) (hes : ∀ e ∈ es, P e) :
    All P (ofOperands op es) := by
  have hwhole := of_build h op hes
  refine ⟨by rwa [whole_ofOperands], fun other => ?_⟩
  rw [operands_ofOperands]
  split
  · exact hes
  · exact of_mem_spread h hwhole other

/-- The flattened operation has the property throughout if both operands have. -/
theorem all_binary (h : Structural P) (op : BinaryOp) {f g : Flattened} (hf : All P f)
    (hg : All P g) : All P (Flattened.binary op f g) := by
  unfold Flattened.binary
  split
  · rename_i family _
    refine all_ofOperands h family (List.forall_mem_append.2 ⟨hf.operands family, ?_⟩)
    split
    · exact hg.operands family
    · exact List.forall_mem_map.2
        fun e he => of_invert h (of_mem_spread h hg.whole family e he) family
  · exact all_ofExpr h ((h.binary op _ _).2 ⟨hf.whole, hg.whole⟩)

theorem of_mem_flattenedOperands (op : Family) (h : ∀ e ∈ es, All P e.flattened) :
    ∀ e ∈ flattenedOperands op es, P e := by
  rw [flattenedOperands_eq_flatMap]
  intro e he
  obtain ⟨part, hpart, he⟩ := List.mem_flatMap.1 he
  exact (h part hpart).operands op e he

/-- Flattening keeps a property that every part of an expression takes over, and every node from new
parts. -/
theorem all_flattened (h : Structural P)
    (hpart : ∀ {e part : Expr}, part ∈ e.children → P e → P part)
    (hparts : ∀ {e : Expr} {parts : List Expr}, P e → parts.length = e.children.length →
      (∀ part ∈ parts, P part) → P (e.withChildren parts)) {e : Expr} (he : P e) :
    All P e.flattened := by
  have hsingle {e u v : Expr} (he : P e) (hchildren : e.children = [u]) (hv : P v) :
      P (e.withChildren [v]) :=
    hparts he (by rw [hchildren]; rfl) (List.forall_mem_singleton.2 hv)
  induction e using Expr.induction with
  | number | var | invalid | invalidPart => exact all_ofExpr h he
  | element sequence index ih =>
    exact all_ofExpr h (hsingle he rfl (ih (hpart List.mem_cons_self he)).whole)
  | unary op u ih => exact all_ofExpr h (hsingle he rfl (ih (hpart List.mem_cons_self he)).whole)
  | binary op u v ihu ihv =>
    obtain ⟨hu, hv⟩ := (h.binary op u v).1 he
    exact all_binary h op (ihu hu) (ihv hv)
  | nary op es ih =>
    have hes := (h.nary op es).1 he
    exact all_ofOperands h op
      (of_mem_flattenedOperands op fun e hmem => ih e hmem (hes e hmem))
  | call f primes u ih =>
    exact all_ofExpr h (hsingle he rfl (ih (hpart List.mem_cons_self he)).whole)
  | derivative body name ih =>
    exact all_ofExpr h (hsingle he rfl (ih (hpart List.mem_cons_self he)).whole)
  | derivativeAt body name point ihbody ihpoint =>
    have hbody := (ihbody (hpart List.mem_cons_self he)).whole
    have hpoint := (ihpoint (hpart (List.mem_cons_of_mem _ List.mem_cons_self) he)).whole
    have hfilled : P ((derivativeAt body name point).withChildren
        [body.flattened.whole, point.flattened.whole]) :=
      hparts he rfl (List.forall_mem_cons.2 ⟨hbody, List.forall_mem_singleton.2 hpoint⟩)
    exact all_ofExpr h hfilled

end Flattened

/-! ## Folding -/

namespace Folding

variable {o : Options}

theorem of_unary (h : Structural P) (hliteral : ∀ n, P (literal o n)) (op : UnaryOp) {u : Expr}
    (hu : P u) : P (Folding.unary o op u) := by
  unfold Folding.unary
  split
  · exact hu
  · exact hliteral _
  · exact hliteral _
  · exact (h.unary _ _).2 hu

theorem of_collapse (h : Structural P) (op : BinaryOp) {u v : Expr} (hu : P u) (hv : P v) :
    P (collapse op u v) := by
  rcases collapse_cases op u v with he | he | he | he | he | ⟨-, ⟨-, he⟩ | ⟨-, he⟩⟩
  · rwa [he]
  · rwa [he]
  · rw [he]
    exact h.zero
  · rw [he]
    exact h.one
  · rw [he]
    exact (h.binary op u v).2 ⟨hu, hv⟩
  · rw [he]
    exact (h.unary .neg v).2 hv
  · rw [he]
    exact (h.unary .recip v).2 hv

theorem of_binary (h : Structural P) (hliteral : ∀ n, P (literal o n)) (op : BinaryOp) {u v : Expr}
    (hu : P u) (hv : P v) : P (Folding.binary o op u v) := by
  have hcollapse := of_collapse h op hu hv
  unfold Folding.binary
  split
  · split
    · exact hliteral _
    · exact hcollapse
  · exact hcollapse

theorem of_nary (h : Structural P) (hliteral : ∀ n, P (literal o n)) (op : Family)
    (hes : ∀ e ∈ es, P e) : P (Folding.nary o op es) := by
  rw [nary_eq]
  exact (Substitution.nary_iff h op).2 (of_mem_gather op (fun n _ => hliteral n) h.zero hes)

end Folding

end Formulary
