import Formulary.Proofs.Reading.Regrouped
import Formulary.Reading.Stack

/-!
# The stacks of a canonical text

What the tokens of an expression leave on the two stacks of a group is a segment on top of what was
there before: it has as many operands as its operators need. A segment is reduced in place, and what
is below it comes next only when nothing of the segment waits any more.
-/

namespace Formulary.Reading

open Formulary.Expr State

/-! ## Segments -/

/-- The expression has no issues, and if it is a literal it is a small integer. -/
structure Proper (e : Expr) : Prop where
  noIssue : e.hasIssue = false
  literal : ∀ n, e = .number n → ∃ k : Int, k.natAbs < literalBound ∧ n = .ofInt k

/-- The number of waiting operators that stand between operands. -/
def binaries (pending : List Pending) : Nat := pending.countP (!·.isUnary)

/-- The operands are as many as the waiting operators need, and their free names are the given
ones. -/
structure Segment (pending : List Pending) (operands : List Expr) (names : List String) : Prop where
  enough : operands.length = binaries pending + 1
  proper : ∀ e ∈ operands, Proper e
  names : operands.reverse.flatMap occurrences = names

theorem neg_ofInt {k : Int} (hk : k.natAbs < literalBound) :
    -(Number.ofInt k) = Number.ofInt (-k) := by
  have hfits : Word.checked (-k) = some (-k) := by
    refine Word.checked_eq_some.2 ⟨?_, rfl⟩
    unfold Word.Fits Word.least Word.greatest
    unfold literalBound at hk
    omega
  change Number.neg (.exact (k : Rat)) = .exact ((-k : Int) : Rat)
  simp [Number.neg, hfits]

theorem proper_ofInt {k : Int} (hk : k.natAbs < literalBound) : Proper (.ofInt k) := by
  refine ⟨by simp [Expr.ofInt], fun n hn => ⟨k, hk, ?_⟩⟩
  simpa [Expr.ofInt] using hn.symm

/-- A sign is applied to an operand, and may become part of a literal. -/
theorem apply_sign {p : Pending} {op : UnaryOp} (hp : p.op = .unary op) {e : Expr} (he : Proper e) :
    ∃ e', (∀ operands, p.apply true (e :: operands) = e' :: operands) ∧ Proper e' ∧
      e'.occurrences = e.occurrences ∧ Rearranged (.unary op e) e' := by
  by_cases hneg : ∃ n, op = .neg ∧ e = .number n
  · obtain ⟨n, rfl, rfl⟩ := hneg
    obtain ⟨k, hk, rfl⟩ := he.literal n rfl
    refine ⟨.ofInt (-k), fun operands => ?_, proper_ofInt (by simpa using hk), rfl, .negLiteral k⟩
    simp only [Pending.apply, hp, neg_ofInt hk]
    rfl
  · refine ⟨.unary op e, fun operands => ?_, ⟨by simp [he.noIssue], by simp⟩, rfl, .refl _⟩
    simp only [Pending.apply, hp]
    split
    · exact absurd ⟨_, rfl, rfl⟩ hneg
    · rfl

section

variable {p : Pending} {pending base : List Pending} {operands below : List Expr}
  {names : List String} {keep : Pending → Bool}

/-- Applying the operator at the top of a segment leaves a segment. -/
theorem Segment.apply (h : Segment (p :: pending) operands names) :
    ∃ operands', Segment pending operands' names ∧
      ∀ below, p.apply true (operands ++ below) = operands' ++ below := by
  obtain ⟨henough, hproper, hnames⟩ := h
  cases hop : p.op with
  | unary op =>
    have hcount : binaries (p :: pending) = binaries pending := by
      simp [binaries, Pending.isUnary, hop]
    rw [hcount] at henough
    obtain ⟨e, rest, rfl⟩ := List.exists_cons_of_length_eq_add_one henough
    obtain ⟨e', happly, he', hocc, -⟩ := apply_sign hop (hproper e List.mem_cons_self)
    refine ⟨e' :: rest, ⟨by simpa using henough, fun f hf => ?_, ?_⟩, fun below => happly _⟩
    · rcases List.mem_cons.1 hf with rfl | hf
      · exact he'
      · exact hproper f (List.mem_cons_of_mem _ hf)
    · simpa [hocc] using hnames
  | binary op =>
    have hcount : binaries (p :: pending) = binaries pending + 1 := by
      simp [binaries, Pending.isUnary, hop]
    rw [hcount] at henough
    obtain ⟨last, rest, rfl⟩ := List.exists_cons_of_length_eq_add_one henough
    obtain ⟨first, rest, rfl⟩ :=
      List.exists_cons_of_length_eq_add_one (n := binaries pending) (by simpa using henough)
    have hlast := hproper last (by simp)
    have hfirst := hproper first (by simp)
    refine ⟨.binary op first last :: rest, ⟨by simpa using henough, fun f hf => ?_, ?_⟩,
      fun below => by simp [Pending.apply, hop]⟩
    · rcases List.mem_cons.1 hf with rfl | hf
      · exact ⟨by simp [hlast.noIssue, hfirst.noIssue], by simp⟩
      · exact hproper f (by simp [hf])
    · simpa [occurrences] using hnames

/-- Reducing a segment leaves a segment. -/
theorem Segment.reduceUntil (h : Segment pending operands names) (keep : Pending → Bool) :
    Segment (reduceUntil true keep pending operands).1 (reduceUntil true keep pending operands).2
      names := by
  induction pending generalizing operands with
  | nil => exact h
  | cons p pending ih =>
    rw [State.reduceUntil]
    split
    · exact h
    · obtain ⟨operands', hseg, happly⟩ := h.apply
      have := happly []
      simp only [List.append_nil] at this
      rw [this]
      exact ih hseg

theorem reduceUntil_suffix (keep : Pending → Bool) (pending : List Pending) (operands : List Expr) :
    (reduceUntil true keep pending operands).1 <:+ pending := by
  induction pending generalizing operands with
  | nil => exact List.suffix_refl _
  | cons p pending ih =>
    rw [State.reduceUntil]
    split
    · exact List.suffix_refl _
    · exact (ih _).trans (List.suffix_cons p pending)

/-- A segment is reduced in place, and what is below it only when nothing of it is left. -/
theorem Segment.reduceUntil_append (h : Segment pending operands names) (base : List Pending)
    (below : List Expr) :
    State.reduceUntil true keep (pending ++ base) (operands ++ below) =
      if (State.reduceUntil true keep pending operands).1 = [] then
        State.reduceUntil true keep base ((State.reduceUntil true keep pending operands).2 ++ below)
      else ((State.reduceUntil true keep pending operands).1 ++ base,
        (State.reduceUntil true keep pending operands).2 ++ below) := by
  induction pending generalizing operands with
  | nil => simp [State.reduceUntil]
  | cons p pending ih =>
    rw [List.cons_append, State.reduceUntil, State.reduceUntil]
    by_cases hp : keep p = true
    · simp [hp]
    · obtain ⟨operands', hseg, happly⟩ := h.apply
      have hself := happly []
      simp only [List.append_nil] at hself
      simp only [if_neg hp, happly, hself]
      exact ih hseg

theorem reduceUntil_of_keep (h : ∀ p ∈ base.head?, keep p = true) (operands : List Expr) :
    reduceUntil true keep base operands = (base, operands) := by
  cases base with
  | nil => rfl
  | cons p base => rw [State.reduceUntil, if_pos (h p rfl)]

/-- Where the operator below a segment is kept, only the segment is reduced. -/
theorem Segment.reduceUntil_kept (h : Segment pending operands names)
    (hkeep : ∀ p ∈ base.head?, keep p = true) (below : List Expr) :
    State.reduceUntil true keep (pending ++ base) (operands ++ below) =
      ((State.reduceUntil true keep pending operands).1 ++ base,
        (State.reduceUntil true keep pending operands).2 ++ below) := by
  rw [h.reduceUntil_append]
  split
  · rename_i hnil
    rw [reduceUntil_of_keep hkeep, hnil, List.nil_append]
  · rfl

/-- Reducing stops at an operator that is kept. -/
theorem keep_of_mem_reduceUntil (pending : List Pending) (operands : List Expr) :
    ∀ p ∈ (reduceUntil true keep pending operands).1.head?, keep p = true := by
  induction pending generalizing operands with
  | nil => simp [State.reduceUntil]
  | cons p pending ih =>
    rw [State.reduceUntil]
    split
    · rename_i hp
      intro q hq
      obtain rfl : p = q := by simpa using hq
      exact hp
    · exact ih _

theorem reduceUntil_congr {keep' : Pending → Bool} (h : ∀ p ∈ pending, keep p = keep' p)
    (operands : List Expr) :
    reduceUntil true keep pending operands = reduceUntil true keep' pending operands := by
  induction pending generalizing operands with
  | nil => rfl
  | cons p pending ih =>
    rw [State.reduceUntil, State.reduceUntil, h p List.mem_cons_self,
      ih fun q hq => h q (List.mem_cons_of_mem _ hq)]

/-- All operators of a segment applied. -/
def settle (pending : List Pending) (operands : List Expr) : List Pending × List Expr :=
  reduceUntil true (fun _ => false) pending operands

theorem settle_fst (pending : List Pending) (operands : List Expr) :
    (settle pending operands).1 = [] := by
  induction pending generalizing operands with
  | nil => rfl
  | cons p pending ih => exact ih _

/-- What was reduced before settles as it would have otherwise. -/
theorem settle_reduceUntil (keep : Pending → Bool) (pending : List Pending) (operands : List Expr) :
    settle (reduceUntil true keep pending operands).1 (reduceUntil true keep pending operands).2 =
      settle pending operands := by
  induction pending generalizing operands with
  | nil => rfl
  | cons p pending ih =>
    rw [State.reduceUntil]
    split
    · rfl
    · exact ih _

/-- A segment settles to a single operand. -/
theorem Segment.settle (h : Segment pending operands names) :
    ∃ e, Reading.settle pending operands = ([], [e]) ∧ Proper e ∧ e.occurrences = names := by
  have hseg := h.reduceUntil fun _ => false
  have hnil := settle_fst pending operands
  rw [Reading.settle] at hnil
  obtain ⟨e, rest, he⟩ := List.exists_cons_of_length_eq_add_one hseg.enough
  have hrest : rest = [] := by
    have hlength := hseg.enough
    rw [he, hnil] at hlength
    simpa [binaries] using hlength
  subst hrest
  have hnames := hseg.names
  rw [he] at hnames
  refine ⟨e, Prod.ext hnil he, hseg.proper e (by simp [he]), by simpa using hnames⟩

theorem Segment.settle_append (h : Segment pending operands names) (base : List Pending)
    (below : List Expr) :
    Reading.settle (pending ++ base) (operands ++ below) =
      Reading.settle base ((Reading.settle pending operands).2 ++ below) := by
  have hnil := settle_fst pending operands
  unfold Reading.settle at *
  rw [h.reduceUntil_append, if_pos hnil]

end

end Formulary.Reading
