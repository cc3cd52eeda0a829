import Formulary.Proofs.Number.Sign
import Formulary.Proofs.Reading.Source

/-!
# Nothing is lost while reading

The leaves of an expression that is read without an issue are the literals and names of its text, in
the order of the text (`Yields`). A literal may have taken up minus signs, the name of a function is
resolved, and two bars put a call of `abs` in front of what is between them.

Operands and operators wait on two stacks, so two things are shown about a state of the reader. The
operands, from the bottom of the stack to its top, have the leaves of the tokens read so far
(`Covers`). And there are never more operands than the waiting operators need (`Enough`), so at the
end of a group there is at most one, and taking the last one drops nothing.
-/

namespace Formulary

namespace Expr

/-- A literal or a name in an expression. -/
inductive Leaf where
  | number (n : Number)
  | name (text : String)
deriving DecidableEq

/-- The literal or name at the root of an expression. -/
def leaf? : Expr → Option Leaf
  | number n => some (.number n)
  | var name => some (.name name)
  | element sequence _ => some (.name sequence)
  | call function primes _ => some (.name (Names.withPrimes function primes))
  | _ => none

/-- The literals and names of an expression from left to right. The name of a function comes before
its argument, and the name of a sequence before its index. -/
def leaves (e : Expr) : List Leaf := e.nodes.filterMap leaf?

theorem leaves_eq (e : Expr) : e.leaves = e.leaf?.toList ++ e.children.flatMap leaves := by
  rw [leaves, nodes_eq, List.filterMap_cons, List.filterMap_flatMap]
  cases e.leaf? <;> rfl

end Expr

namespace Reading

open Formulary.Expr State

variable {settings : Settings} {s : State}

/-! ## The number of operands -/

/-- There are not more operands than the waiting operators have had so far, and one more after an
operand. -/
def Enough (s : State) : Prop :=
  s.operands.length ≤ binaries s.pending + if s.afterOperand then 1 else 0

/-- Applying an operator leaves no more operands than the other operators need. -/
theorem length_apply (negativeNumbers : Bool) (p : Pending) {pending : List Pending}
    {operands : List Expr} (h : operands.length ≤ binaries (p :: pending) + 1) :
    (p.apply negativeNumbers operands).length ≤ binaries pending + 1 := by
  cases operands with
  | nil => simp [Pending.apply]
  | cons last operands =>
    cases hop : p.op with
    | unary op =>
      have hcount : binaries (p :: pending) = binaries pending := by
        simp [binaries, Pending.isUnary, hop]
      rw [hcount] at h
      simp only [Pending.apply, hop]
      split <;> exact h
    | binary op =>
      have hcount : binaries (p :: pending) = binaries pending + 1 := by
        simp [binaries, Pending.isUnary, hop]
      rw [hcount] at h
      cases operands with
      | nil => simp [Pending.apply, hop]
      | cons first operands =>
        simp only [Pending.apply, hop, List.length_cons] at *
        omega

/-- There are never more operands than the waiting operators need, however many are applied. -/
theorem length_reduceUntil (negativeNumbers : Bool) (keep : Pending → Bool)
    {pending : List Pending} {operands : List Expr}
    (h : operands.length ≤ binaries pending + 1) :
    (reduceUntil negativeNumbers keep pending operands).2.length ≤
      binaries (reduceUntil negativeNumbers keep pending operands).1 + 1 := by
  induction pending generalizing operands with
  | nil => exact h
  | cons p pending ih =>
    rw [reduceUntil]
    split
    · exact h
    · exact ih (length_apply negativeNumbers p h)

theorem Enough.le (h : Enough s) : s.operands.length ≤ binaries s.pending + 1 := by
  unfold Enough at h
  split at h <;> omega

theorem Enough.reduceAll (h : Enough s) (negativeNumbers : Bool) :
    (s.reduceAll negativeNumbers).operands.length ≤ 1 := by
  have hlength := length_reduceUntil negativeNumbers (fun _ => false) h.le
  have hnone : (reduceUntil negativeNumbers (fun _ => false) s.pending s.operands).1 = [] := by
    generalize s.operands = operands
    induction s.pending generalizing operands with
    | nil => rfl
    | cons p pending ih => exact ih _
  rwa [hnone] at hlength

/-- Nothing is applied before a unary operator, and a binary operator asks for one more operand. -/
theorem Enough.wait (h : Enough s) (negativeNumbers : Bool) (p : Pending)
    (hp : p.isUnary = true → s.afterOperand = false) :
    (s.wait negativeNumbers p).operands.length ≤ binaries (s.wait negativeNumbers p).pending := by
  unfold State.wait
  dsimp only
  cases hunary : p.isUnary with
  | true =>
    have hkeep : reduceUntil negativeNumbers (fun _ => true) s.pending s.operands =
        (s.pending, s.operands) := by
      cases s.pending <;> rfl
    have hbefore := h
    unfold Enough at hbefore
    rw [hp hunary] at hbefore
    simpa [hkeep, binaries, hunary] using hbefore
  | false =>
    have hlength := length_reduceUntil negativeNumbers
      (fun old => false || decide (old.precedence < p.precedence)) h.le
    simpa [binaries, hunary] using hlength

/-- An operand that is pushed comes with an operator between it and the last one. -/
theorem Enough.pushOperand (h : Enough s) (negativeNumbers : Bool) (e : Expr) (start : Nat) :
    Enough (s.pushOperand negativeNumbers e start) := by
  unfold State.pushOperand
  split
  · exact Nat.succ_le_succ (h.wait negativeNumbers _ (by simp [Pending.isUnary]))
  · rename_i hafter
    unfold Enough at h
    rw [if_neg hafter] at h
    exact Nat.succ_le_succ h

theorem Enough.note (h : Enough s) (issue : Issue) : Enough (s.note issue) := h

/-- An operator keeps the balance of operands and operators. -/
theorem Enough.pushOperator (h : Enough s) (negativeNumbers : Bool) (op : BinaryOp) (span : Span) :
    Enough (s.pushOperator negativeNumbers op span) := by
  have waiting {s : State} (h : Enough s) {op : PendingOp}
      (hop : (Pending.mk op span).isUnary = true → s.afterOperand = false) :
      Enough { s.wait negativeNumbers ⟨op, span⟩ with afterOperand := false } :=
    h.wait negativeNumbers _ hop
  unfold State.pushOperator
  split
  · exact waiting h (by simp [Pending.isUnary])
  · rename_i hafter
    have hnone : s.afterOperand = false := by simpa using hafter
    split
    · exact waiting h fun _ => hnone
    · exact waiting h fun _ => hnone
    · exact waiting (h.note _) (by simp [Pending.isUnary])

theorem Enough.closeImplicit (h : Enough s) (negativeNumbers : Bool) :
    Enough (s.closeImplicit negativeNumbers) := by
  have hlength := h.reduceAll negativeNumbers
  unfold State.closeImplicit
  dsimp only
  split
  · rename_i hempty
    rw [Enough, List.isEmpty_iff.1 hempty]
    exact Nat.zero_le _
  · simpa [Enough, binaries, State.reduceAll] using hlength

/-! ## The leaves of a text -/

/-- The number that a literal writes. -/
def literalOf (t : Token) : Number := .ofDouble ((Double.read? t.lexeme).getD Double.nan)

/-- The spelling of the name of a function in an expression. -/
def resolved (name : String) : String :=
  Names.withPrimes (Names.canonical (Names.base name)) (Names.primes name)

/-- The leaves that tokens stand for, in their order. -/
inductive Yields : List Token → List Leaf → Prop where
  | nil : Yields [] []
  /-- Operators and other symbols have no leaves. -/
  | skip {t : Token} {ts : List Token} {ls : List Leaf} : t.kind ≠ .name → t.kind ≠ .number →
    t.kind ≠ .bar → Yields ts ls → Yields (t :: ts) ls
  /-- A literal may be negated. -/
  | number {t : Token} {n : Number} {ts : List Token} {ls : List Leaf} : t.kind = .number →
    n = literalOf t ∨ n = -literalOf t → Yields ts ls → Yields (t :: ts) (.number n :: ls)
  | name {t : Token} {ts : List Token} {ls : List Leaf} : t.kind = .name → Yields ts ls →
    Yields (t :: ts) (.name t.lexeme :: ls)
  /-- A name in front of a parenthesis may be the name of a function, which is resolved. -/
  | function {t u : Token} {ts : List Token} {ls : List Leaf} : t.kind = .name →
    u.kind = .openParen → Yields (u :: ts) ls →
    Yields (t :: u :: ts) (.name (resolved t.lexeme) :: ls)
  /-- Two bars call a function. -/
  | bars {t u : Token} {ts us : List Token} {ls ms : List Leaf} : t.kind = .bar → u.kind = .bar →
    Yields ts ls → Yields us ms → Yields (t :: (ts ++ u :: us)) (.name "abs" :: (ls ++ ms))

/-- A function is called under the name of the derivative operator. -/
def CallsDerivative (tokens : List Token) : Prop :=
  ∃ t u, [t, u] <:+: tokens ∧ t.kind = .name ∧ t.lexeme = "D" ∧
    u.kind = .openParen ∧ u.span.start = t.span.stop

/-- The leaves of the tokens can be found again in an expression: a literal is the same after two
negations, and the derivative operator, which has a name but no leaf, is not called. -/
structure Traceable (tokens : List Token) : Prop where
  literals : ∀ t ∈ tokens, t.kind = .number → - -literalOf t = literalOf t
  plain : ¬ CallsDerivative tokens

section

variable {tokens others : List Token} {t u : Token} {ls ms : List Leaf} {n : Number}

theorem Traceable.within (h : Traceable tokens) (hwithin : others <:+: tokens) : Traceable others := by
  refine ⟨fun t ht => h.literals t (hwithin.subset ht), fun ⟨t, u, hpair, hcall⟩ => ?_⟩
  exact h.plain ⟨t, u, hpair.trans hwithin, hcall⟩

theorem Traceable.left (h : Traceable (tokens ++ others)) : Traceable tokens :=
  h.within (List.prefix_append tokens others).isInfix

theorem Traceable.right (h : Traceable (tokens ++ others)) : Traceable others :=
  h.within (List.suffix_append tokens others).isInfix

theorem Yields.append (h : Yields tokens ls) (h' : Yields others ms) :
    Yields (tokens ++ others) (ls ++ ms) := by
  induction h with
  | nil => exact h'
  | skip hname hnumber hbar _ ih => exact .skip hname hnumber hbar ih
  | number ht hn _ ih => exact .number ht hn ih
  | name ht _ ih => exact .name ht ih
  | function ht hu _ ih => exact .function ht hu ih
  | bars ht hu hinner _ _ ih =>
    rw [List.cons_append, List.append_assoc, List.cons_append, List.cons_append, List.append_assoc]
    exact .bars ht hu hinner ih

/-- A single token without a leaf. -/
theorem yields_symbol (hname : t.kind ≠ .name) (hnumber : t.kind ≠ .number)
    (hbar : t.kind ≠ .bar) : Yields [t] [] := .skip hname hnumber hbar .nil

/-- A literal among the leaves is negated. -/
theorem Yields.negate (h : Yields tokens (ls ++ .number n :: ms))
    (hliterals : ∀ t ∈ tokens, t.kind = .number → - -literalOf t = literalOf t) :
    Yields tokens (ls ++ .number (-n) :: ms) := by
  generalize hall : ls ++ .number n :: ms = all at h
  induction h generalizing ls ms with
  | nil => simp at hall
  | skip hname hnumber hbar _ ih =>
    exact .skip hname hnumber hbar (ih (List.forall_mem_cons.1 hliterals).2 hall)
  | @number t m ts ns ht hm h ih =>
    obtain ⟨hfirst, hrest⟩ := List.forall_mem_cons.1 hliterals
    cases ls with
    | nil =>
      obtain ⟨hn, rfl⟩ := List.cons.inj hall
      obtain rfl : n = m := Leaf.number.inj hn
      refine .number ht ?_ h
      rcases hm with rfl | rfl
      · exact .inr rfl
      · exact .inl (hfirst ht)
    | cons l ls =>
      obtain ⟨rfl, hns⟩ := List.cons.inj hall
      exact .number ht hm (ih hrest hns)
  | name ht _ ih =>
    cases ls with
    | nil => cases (List.cons.inj hall).1
    | cons l ls =>
      obtain ⟨rfl, hns⟩ := List.cons.inj hall
      exact .name ht (ih (List.forall_mem_cons.1 hliterals).2 hns)
  | function ht hu _ ih =>
    cases ls with
    | nil => cases (List.cons.inj hall).1
    | cons l ls =>
      obtain ⟨rfl, hns⟩ := List.cons.inj hall
      exact .function ht hu (ih (List.forall_mem_cons.1 hliterals).2 hns)
  | @bars t u ts us inner outer ht hu hinner houter ihinner ihouter =>
    cases ls with
    | nil => cases (List.cons.inj hall).1
    | cons l ls =>
      obtain ⟨rfl, hns⟩ := List.cons.inj hall
      have hts : ∀ t ∈ ts, t.kind = .number → - -literalOf t = literalOf t :=
        fun t ht => hliterals t (by simp [ht])
      have hus : ∀ t ∈ us, t.kind = .number → - -literalOf t = literalOf t :=
        fun t ht => hliterals t (by simp [ht])
      rw [List.cons_append]
      -- the literal is between the bars or behind them
      rcases List.append_eq_append_iff.1 hns with ⟨as, rfl, houter'⟩ | ⟨as, rfl, rfl⟩
      · cases as with
        | nil =>
          have hnegated : Yields us ([] ++ .number (-n) :: ms) := ihouter hus houter'
          rw [List.append_nil] at hinner
          exact .bars ht hu hinner hnegated
        | cons a as =>
          obtain ⟨rfl, rfl⟩ := List.cons.inj houter'
          have hnegated := Yields.bars ht hu (ihinner hts rfl) houter
          rwa [List.append_assoc] at hnegated
      · have hnegated := Yields.bars ht hu hinner (ihouter hus rfl)
        rwa [← List.append_assoc] at hnegated

end

/-! ## The leaves of the operands -/

/-- The leaves of the operands, from the bottom of the stack to its top. -/
def stackLeaves (operands : List Expr) : List Leaf := operands.reverse.flatMap leaves

/-- None of the operands has an issue. -/
def Sound (operands : List Expr) : Prop := ∀ e ∈ operands, e.hasIssue = false

/-- Operands are put together without losing an issue or a leaf. -/
structure Settles (operands result : List Expr) : Prop where
  sound : Sound result → Sound operands
  yields {done : List Token} : Traceable done → Sound result →
    Yields done (stackLeaves operands) → Yields done (stackLeaves result)

theorem stackLeaves_cons (e : Expr) (operands : List Expr) :
    stackLeaves (e :: operands) = stackLeaves operands ++ e.leaves := by
  rw [stackLeaves, List.reverse_cons, List.flatMap_append, List.flatMap_singleton]
  rfl

theorem leaves_number (n : Number) : (Expr.number n).leaves = [.number n] := leaves_eq _

theorem leaves_unary (op : UnaryOp) (e : Expr) : (Expr.unary op e).leaves = e.leaves := by
  rw [leaves_eq]
  simp [leaf?, children]

theorem leaves_binary (op : BinaryOp) (l r : Expr) :
    (Expr.binary op l r).leaves = l.leaves ++ r.leaves := by
  rw [leaves_eq]
  simp [leaf?, children]

theorem Settles.refl (operands : List Expr) : Settles operands operands :=
  ⟨id, fun _ _ => id⟩

theorem Settles.trans {a b c : List Expr} (h : Settles a b) (h' : Settles b c) : Settles a c :=
  ⟨fun hc => h.sound (h'.sound hc),
    fun hdone hc hyields => h'.yields hdone hc (h.yields hdone (h'.sound hc) hyields)⟩

theorem not_sound_cons {e : Expr} {operands : List Expr} (h : e.hasIssue = true) :
    ¬ Sound (e :: operands) := by
  intro hsound
  rw [hsound e List.mem_cons_self] at h
  cases h

/-- Operands that get an issue settle whatever they were. -/
theorem settles_of_issue {e : Expr} {operands rest : List Expr} (h : e.hasIssue = true) :
    Settles operands (e :: rest) :=
  ⟨fun hsound => absurd hsound (not_sound_cons h),
    fun _ hsound => absurd hsound (not_sound_cons h)⟩

/-- Applying an operator keeps the leaves in order. -/
theorem settles_apply (negativeNumbers : Bool) (p : Pending) (operands : List Expr) :
    Settles operands (p.apply negativeNumbers operands) := by
  cases operands with
  | nil => exact settles_of_issue (hasIssue_invalid _)
  | cons last operands =>
    cases hop : p.op with
    | unary op =>
      simp only [Pending.apply, hop]
      split
      · refine ⟨fun h e he => ?_, fun hdone _ hyields => ?_⟩
        · rcases List.mem_cons.1 he with rfl | he
          · exact hasIssue_number _
          · exact h e (List.mem_cons_of_mem _ he)
        · rw [stackLeaves_cons, leaves_number] at *
          exact hyields.negate hdone.literals
      · refine ⟨fun h e he => ?_, fun _ _ hyields => ?_⟩
        · rcases List.mem_cons.1 he with rfl | he
          · have hissue := h _ List.mem_cons_self
            rwa [hasIssue_unary] at hissue
          · exact h e (List.mem_cons_of_mem _ he)
        · rwa [stackLeaves_cons, leaves_unary, ← stackLeaves_cons]
    | binary op =>
      cases operands with
      | nil =>
        simp only [Pending.apply, hop]
        exact settles_of_issue (hasIssue_invalidPart _ _)
      | cons first operands =>
        simp only [Pending.apply, hop]
        refine ⟨fun h e he => ?_, fun _ _ hyields => ?_⟩
        · have hissue := h _ List.mem_cons_self
          rw [hasIssue_binary, Bool.or_eq_false_iff] at hissue
          rcases List.mem_cons.1 he with rfl | he
          · exact hissue.2
          · rcases List.mem_cons.1 he with rfl | he
            · exact hissue.1
            · exact h e (List.mem_cons_of_mem _ he)
        · rwa [stackLeaves_cons, leaves_binary, ← List.append_assoc, ← stackLeaves_cons,
            ← stackLeaves_cons]

theorem settles_reduceUntil (negativeNumbers : Bool) (keep : Pending → Bool)
    (pending : List Pending) (operands : List Expr) :
    Settles operands (reduceUntil negativeNumbers keep pending operands).2 := by
  induction pending generalizing operands with
  | nil => exact .refl operands
  | cons p pending ih =>
    rw [reduceUntil]
    split
    · exact .refl operands
    · exact (settles_apply negativeNumbers p operands).trans (ih _)

/-! ## What has been read -/

/-- The operands of a group account for the tokens that have been read, unless there is an issue. -/
structure Covers (done : List Token) (s : State) : Prop where
  enough : Enough s
  yields : Traceable done → s.issue = none → Sound s.operands → Yields done (stackLeaves s.operands)

section

variable {done tokens : List Token} {e : Expr}

theorem covers_start : Covers [] {} := ⟨Nat.zero_le _, fun _ _ _ => .nil⟩

/-- The operands have been put together, and nothing else has changed. -/
theorem Covers.settle (h : Covers done s) {s' : State} (henough : Enough s')
    (hissue : s'.issue = none → s.issue = none) (hsettles : Settles s.operands s'.operands) :
    Covers done s' := by
  refine ⟨henough, fun hdone hnone hsound => hsettles.yields hdone hsound ?_⟩
  exact h.yields hdone (hissue hnone) (hsettles.sound hsound)

/-- Tokens without leaves have been read. -/
theorem Covers.skip (h : Covers done s) (hyields : Yields tokens []) : Covers (done ++ tokens) s := by
  refine ⟨h.enough, fun hdone hnone hsound => ?_⟩
  have happend := (h.yields hdone.left hnone hsound).append hyields
  rwa [List.append_nil] at happend

theorem Covers.note (h : Covers done s) (issue : Issue) (tokens : List Token) :
    Covers (done ++ tokens) (s.note issue) := by
  refine ⟨h.enough.note issue, fun _ hnone => ?_⟩
  cases hissue : s.issue <;> simp [State.note, hissue] at hnone

/-- Reading an operand goes on with the tokens that it is made of. -/
theorem Covers.pushOperand (h : Covers done s) (negativeNumbers : Bool) (start : Nat)
    (he : Traceable tokens → e.hasIssue = false → Yields tokens e.leaves) :
    Covers (done ++ tokens) (s.pushOperand negativeNumbers e start) := by
  have hsettles : Settles s.operands (s.pushOperand negativeNumbers e start).operands.tail := by
    unfold State.pushOperand
    split
    · exact settles_reduceUntil _ _ _ _
    · exact .refl _
  have hoperands : (s.pushOperand negativeNumbers e start).operands =
      e :: (s.pushOperand negativeNumbers e start).operands.tail := rfl
  have hissue : (s.pushOperand negativeNumbers e start).issue = s.issue := by
    unfold State.pushOperand
    split <;> rfl
  refine ⟨h.enough.pushOperand negativeNumbers e start, fun hdone hnone hsound => ?_⟩
  rw [hoperands] at hsound ⊢
  obtain ⟨hclean, hrest⟩ := List.forall_mem_cons.1 hsound
  rw [hissue] at hnone
  rw [stackLeaves_cons]
  refine (hsettles.yields hdone.left hrest ?_).append (he hdone.right hclean)
  exact h.yields hdone.left hnone (hsettles.sound hrest)

theorem Covers.pushOperator (h : Covers done s) (negativeNumbers : Bool) (op : BinaryOp) {t : Token}
    (ht : t.kind = .operator op) :
    Covers (done ++ [t]) (s.pushOperator negativeNumbers op t.span) := by
  refine (h.skip (yields_symbol (by simp [ht]) (by simp [ht]) (by simp [ht]))).settle
    (h.enough.pushOperator negativeNumbers op t.span) ?_ ?_
  · unfold State.pushOperator
    split
    · exact id
    · split
      · exact id
      · exact id
      · intro hnone
        cases hissue : s.issue <;> simp [State.note, State.wait, hissue] at hnone
  · unfold State.pushOperator
    split
    · exact settles_reduceUntil _ _ _ _
    · split <;> exact settles_reduceUntil _ _ _ _

/-- A closing parenthesis has no leaves, whatever it does to the operands. -/
theorem Covers.closeImplicit (h : Covers done s) (negativeNumbers : Bool) {t : Token}
    (ht : t.kind = .closeParen) :
    Covers (done ++ [t]) (s.closeImplicit negativeNumbers) := by
  refine (h.skip (yields_symbol (by simp [ht]) (by simp [ht]) (by simp [ht]))).settle
    (h.enough.closeImplicit negativeNumbers) ?_ ?_
  · unfold State.closeImplicit
    dsimp only
    split <;> exact id
  · unfold State.closeImplicit
    dsimp only
    split <;> exact settles_reduceUntil _ _ _ _

/-- At the end of a group without an issue one operand is left. -/
theorem Covers.finish (h : Covers done s) (negativeNumbers : Bool) {outer : Span}
    (hissue : (s.finish negativeNumbers outer).hasIssue = false) :
    (s.reduceAll negativeNumbers).operands = [s.finish negativeNumbers outer] ∧
      (Traceable done → Yields done (s.finish negativeNumbers outer).leaves) := by
  have hlength := h.enough.reduceAll negativeNumbers
  have hsettles : Settles s.operands (s.reduceAll negativeNumbers).operands :=
    settles_reduceUntil _ _ _ _
  unfold State.finish at hissue ⊢
  dsimp only at hissue ⊢
  cases hnone : s.issue with
  | some issue => simp [hnone] at hissue
  | none =>
    rw [hnone] at hissue
    cases hoperands : (s.reduceAll negativeNumbers).operands with
    | nil => simp [hoperands] at hissue
    | cons e es =>
      rw [hoperands] at hissue hlength hsettles
      obtain rfl : es = [] := by simpa using hlength
      have hsound : Sound [e] := List.forall_mem_singleton.2 hissue
      refine ⟨rfl, fun hdone => ?_⟩
      have hyields := hsettles.yields hdone hsound (h.yields hdone hnone (hsettles.sound hsound))
      simpa [stackLeaves] using hyields

/-! ## Groups -/

theorem Covers.pushIssue (h : Covers done s) (negativeNumbers : Bool) (start : Nat)
    (tokens : List Token) (he : e.hasIssue = true) :
    Covers (done ++ tokens) (s.pushOperand negativeNumbers e start) := by
  refine h.pushOperand negativeNumbers start fun _ hclean => ?_
  rw [he] at hclean
  cases hclean

/-- What is read from the tokens behind an operand goes on from there. -/
theorem covers_rest (before : List Token) {after : List Token} (hsplit : tokens = before ++ after)
    (h : Covers ((done ++ before) ++ after) s) : Covers (done ++ tokens) s := by
  rwa [hsplit, ← List.append_assoc]

/-- Parentheses and brackets have no leaves. -/
theorem Yields.enclose {t u : Token} {ts : List Token} {ls : List Leaf}
    (ht : t.kind = .openParen ∨ t.kind = .openBracket)
    (hu : u.kind = .closeParen ∨ u.kind = .closeBracket) (h : Yields ts ls) :
    Yields (t :: (ts ++ [u])) ls := by
  have hclose : Yields [u] [] := by
    rcases hu with hu | hu <;> exact yields_symbol (by simp [hu]) (by simp [hu]) (by simp [hu])
  have happend := h.append hclose
  rw [List.append_nil] at happend
  rcases ht with ht | ht <;> exact .skip (by simp [ht]) (by simp [ht]) (by simp [ht]) happend

theorem yields_of_strip (tokens : List Token) (outer : Span) {ls : List Leaf}
    (h : Yields (strip tokens outer).1 ls) : Yields tokens ls := by
  fun_induction strip tokens outer with
  | case1 => exact h
  | case2 outer t ts ht inner close hclosing ih =>
    obtain ⟨rfl, hclose⟩ := closing_eq_some hclosing
    exact (ih h).enclose (.inl ht) (.inl hclose)
  | case3 => exact h
  | case4 => exact h

theorem infix_of_strip (tokens : List Token) (outer : Span) :
    (strip tokens outer).1 <:+: tokens := by
  fun_induction strip tokens outer with
  | case1 => exact List.infix_rfl
  | case2 outer t ts ht inner close hclosing ih =>
    obtain ⟨rfl, -⟩ := closing_eq_some hclosing
    exact ih.trans ⟨[t], [close], by simp⟩
  | case3 => exact List.infix_rfl
  | case4 => exact List.infix_rfl

/-- A group without an issue is not empty. -/
theorem group_eq_finish {outer : Span} (h : (group settings [] tokens outer).hasIssue = false) :
    group settings [] tokens outer =
      (elements settings [] (strip tokens outer).2 (strip tokens outer).1 {}).finish
        settings.negativeNumbers (strip tokens outer).2 := by
  rw [group] at h ⊢
  split
  · rename_i hnil
    simp [hnil] at h
  · rfl

theorem number_eq {t : Token} (h : (number settings t).hasIssue = false) :
    number settings t = .number (literalOf t) := by
  unfold number at h ⊢
  dsimp only at h ⊢
  split
  · rename_i hpoint
    rw [if_pos hpoint, hasIssue_invalidPart] at h
    cases h
  · rfl

theorem element_eq {name : String} {index : Expr} {brackets : Span}
    (h : (element name index brackets).hasIssue = false) :
    element name index brackets = .element name index := by
  unfold element at h ⊢
  dsimp only at h ⊢
  split
  · rename_i hnames
    simp [hnames] at h
  · rfl

theorem leaves_element (name : String) (index : Expr) :
    (Expr.element name index).leaves = .name name :: index.leaves := by
  rw [leaves_eq]
  simp [leaf?, children]

theorem leaves_callNamed (name : String) (argument : Expr) :
    (callNamed name argument).leaves = .name (resolved name) :: argument.leaves := by
  rw [leaves_eq]
  simp [leaf?, children, callNamed, resolved]

end

/-- Where no name is bound, all of a name is handed back as its last part. -/
theorem parts_eq {negativeNumbers : Bool} {t : Token} {s' : State} {name : String} {start : Nat}
    (h : pushParts negativeNumbers s t.span.start (nameParts [] t.lexeme) = (s', name, start)) :
    s' = s ∧ name = t.lexeme := by
  rw [nameParts_nil, pushParts] at h
  cases h
  exact ⟨rfl, rfl⟩

/-! ## The induction over the reader -/

/-- The operands of a group account for all tokens of it that have been read. -/
theorem steps_covers (settings : Settings) :
    Steps settings []
      (fun tokens _ e => Traceable tokens → e.hasIssue = false → Yields tokens e.leaves)
      (fun _ tokens s last => ∀ done, Covers done s → Covers (done ++ tokens) last)
      (fun name tokens _ e => name ≠ "D" → Traceable tokens → e.hasIssue = false →
        ∃ ls, e.leaves = .name (resolved name) :: ls ∧ Yields tokens ls) where
  empty _ _ hissue := by simp at hissue
  group {tokens outer _} _ inside htokens hissue := by
    have hcovers := inside [] covers_start
    exact yields_of_strip tokens outer
      ((hcovers.finish _ hissue).2 (htokens.within (infix_of_strip tokens outer)))
  nil _ _ _ hs := by
    rw [List.append_nil]
    exact hs
  closeParen {_ _ _ t _} ht rest _ hs := covers_rest [t] rfl (rest _ (hs.closeImplicit _ ht))
  parentheses {_ _ _ t _ g _} ht hg inside rest _ hs := by
    obtain ⟨rfl, hclose⟩ := closing_eq_some hg
    refine covers_rest (t :: (g.inner ++ [g.close])) (by simp) (rest _ ?_)
    refine hs.pushOperand _ _ fun htokens hissue => .enclose (.inl ht) (.inl hclose) ?_
    exact inside (htokens.within ⟨[t], [g.close], by simp⟩) hissue
  openParen _ _ _ _ hs := hs.pushIssue _ _ _ (hasIssue_invalidPart _ _)
  bars {_ _ _ t _ g _} ht hg inside rest _ hs := by
    obtain ⟨rfl, hclose⟩ := closingBar_eq_some hg
    refine covers_rest (t :: (g.inner ++ [g.close])) (by simp) (rest _ ?_)
    refine hs.pushOperand _ _ fun htokens hissue => ?_
    rw [leaves_callNamed]
    rw [callNamed, hasIssue_call] at hissue
    have hinner := inside (htokens.within ⟨[t], [g.close], by simp⟩) hissue
    have hbars := Yields.bars ht hclose hinner .nil
    rwa [List.append_nil] at hbars
  openBar _ _ _ _ hs := by
    refine hs.pushIssue _ _ _ ?_
    rw [callNamed, hasIssue_call]
    exact hasIssue_invalidPart _ _
  number {_ _ _ t _} ht rest _ hs := by
    refine covers_rest [t] rfl (rest _ (hs.pushOperand _ _ fun _ hissue => ?_))
    rw [number_eq hissue, leaves_number]
    exact .number ht (.inl rfl) .nil
  lastName ht hparts _ hs := by
    obtain ⟨rfl, rfl⟩ := parts_eq hparts
    exact hs.pushOperand _ _ fun _ _ => .name ht .nil
  name {_ _ _ _ t _ _ _ _} ht hparts _ _ rest _ hs := by
    obtain ⟨rfl, rfl⟩ := parts_eq hparts
    exact covers_rest [t] rfl (rest _ (hs.pushOperand _ _ fun _ _ => .name ht .nil))
  call {_ _ _ _ t u _ _ _ g _} ht hparts hcall hg inside rest _ hs := by
    obtain ⟨rfl, rfl⟩ := parts_eq hparts
    obtain ⟨rfl, hclose⟩ := closing_eq_some hg
    refine covers_rest (t :: u :: (g.inner ++ [g.close])) (by simp) (rest _ ?_)
    refine hs.pushOperand _ _ fun htokens hissue => ?_
    have hname : t.lexeme ≠ "D" := fun hD =>
      htokens.plain ⟨t, u, ⟨[], g.inner ++ [g.close], rfl⟩, ht, hD, hcall.2.1, hcall.1⟩
    obtain ⟨ls, hls, hinner⟩ := inside hname (htokens.within ⟨[t, u], [g.close], by simp⟩) hissue
    rw [hls]
    exact .function ht hcall.2.1 (hinner.enclose (.inl hcall.2.1) (.inl hclose))
  openCall _ hparts _ _ _ _ hs := by
    obtain ⟨rfl, rfl⟩ := parts_eq hparts
    exact hs.pushIssue _ _ _ (hasIssue_invalidPart _ _)
  subscript {_ _ _ _ t u _ _ _ g _} ht hparts hbracket hg _ inside rest _ hs := by
    obtain ⟨rfl, rfl⟩ := parts_eq hparts
    obtain ⟨rfl, hclose⟩ := closing_eq_some hg
    refine covers_rest (t :: u :: (g.inner ++ [g.close])) (by simp) (rest _ ?_)
    refine hs.pushOperand _ _ fun htokens hissue => ?_
    rw [element_eq hissue, leaves_element]
    rw [element_eq hissue, hasIssue_element] at hissue
    have hinner := inside (htokens.within ⟨[t, u], [g.close], by simp⟩) hissue
    exact .name ht (hinner.enclose (.inr hbracket.2) (.inr hclose))
  nestedSubscript {_ _ _ _ t u _ _ _ g} _ hparts _ hg rest _ hs := by
    obtain ⟨rfl, rfl⟩ := parts_eq hparts
    obtain ⟨rfl, -⟩ := closing_eq_some hg
    refine covers_rest (t :: u :: (g.inner ++ [g.close])) (by simp) (rest _ ?_)
    exact hs.pushIssue _ _ _ (hasIssue_invalidPart _ _)
  openSubscript _ hparts _ _ _ _ _ hs := by
    obtain ⟨rfl, rfl⟩ := parts_eq hparts
    exact hs.pushIssue _ _ _ (hasIssue_invalidPart _ _)
  openNestedSubscript _ hparts _ _ _ hs := by
    obtain ⟨rfl, rfl⟩ := parts_eq hparts
    exact hs.pushIssue _ _ _ (hasIssue_invalidPart _ _)
  operator {_ _ _ t _ _} ht rest _ hs := covers_rest [t] rfl (rest _ (hs.pushOperator _ _ ht))
  unrecognized {_ _ _ t _} _ rest _ hs := covers_rest [t] rfl (rest _ (hs.note _ _))
  derivative _ _ hname := absurd rfl hname
  derivativeByName _ _ hname := absurd rfl hname
  derivativeAtPoint _ _ _ hname := absurd rfl hname
  function _ inside _ htokens hissue := by
    rw [callNamed, hasIssue_call] at hissue
    exact ⟨_, leaves_callNamed _ _, inside htokens hissue⟩

/-- The operands that a group leaves behind when all of it has been read. -/
def leftOperands (settings : Settings) (scope : Scope) (tokens : List Token) (outer : Span) :
    List Expr :=
  let inner := strip tokens outer
  ((elements settings scope inner.2 inner.1 {}).reduceAll settings.negativeNumbers).operands

/-- No group leaves more than one operand behind, and a group without an issue is the one it
leaves. -/
theorem leftOperands_eq (settings : Settings) (tokens : List Token) (outer : Span) :
    (leftOperands settings [] tokens outer).length ≤ 1 ∧
      ((group settings [] tokens outer).hasIssue = false →
        leftOperands settings [] tokens outer = [group settings [] tokens outer]) := by
  have hcovers := (steps_covers settings).reads.2.1 (strip tokens outer).2 (strip tokens outer).1
    {} [] covers_start
  refine ⟨hcovers.enough.reduceAll _, fun hissue => ?_⟩
  have hgroup := group_eq_finish hissue
  rw [hgroup] at hissue ⊢
  exact (hcovers.finish _ hissue).1

/-- The leaves of what is read without an issue are those of the tokens. -/
theorem group_yields (tokens : List Token) (outer : Span) (htokens : Traceable tokens)
    (hissue : (group settings [] tokens outer).hasIssue = false) :
    Yields tokens (group settings [] tokens outer).leaves :=
  (steps_covers settings).reads.1 tokens outer htokens hissue

/-! ## Texts -/

/-- The tokens of a text without the blanks, as the reader gets them. -/
def tokensOf (source : String) : List Token := (Token.scan source).filter (·.kind != .blank)

/-- No literal of a text starts with a minus sign. -/
theorem head?_of_number {t : Token} {start : Nat} {cs : List Char}
    (h : t ∈ Token.scanFrom start cs) (ht : t.kind = .number) :
    t.lexeme.toList.head? ≠ some '-' := by
  fun_induction Token.scanFrom start cs with
  | case1 => cases h
  | case2 start c cs kind more hclass lexeme stop ih =>
    rcases List.mem_cons.1 h with rfl | h
    · intro hhead
      have hchars : lexeme.toList = c :: cs.take more := String.toList_ofList
      rw [hchars] at hhead
      obtain rfl : c = '-' := Option.some.inj hhead
      have hkind : (Token.classify '-' cs).1 = .number := by
        rw [hclass]
        exact ht
      cases hkind
    · exact ih h

/-- No literal of a text is negative. -/
theorem unsigned_of_number {source : String} {t : Token} (ht : t ∈ tokensOf source)
    (hkind : t.kind = .number) : Double.Unsigned ((Double.read? t.lexeme).getD Double.nan) := by
  have hhead := head?_of_number (List.mem_of_mem_filter ht) hkind
  cases hread : Double.read? t.lexeme with
  | none => exact Double.unsigned_nan
  | some v => exact Double.unsigned_read? hhead hread

theorem traceable_tokensOf {source : String} (h : ¬ CallsDerivative (tokensOf source)) :
    Traceable (tokensOf source) :=
  ⟨fun _ ht hkind => Number.neg_neg_ofDouble (unsigned_of_number ht hkind), h⟩

/-- A text that is read without an issue loses, doubles and moves nothing: the leaves of the
expression are those of its tokens. One operand is left at the end of the text, and so it is at the
end of each group without an issue. -/
theorem leaves_ofText (source : String) (hplain : ¬ CallsDerivative (tokensOf source))
    (hissue : (Expr.ofText source).hasIssue = false) :
    Yields (tokensOf source) (Expr.ofText source).leaves ∧
      leftOperands {} [] (tokensOf source) ⟨0, source.utf8ByteSize⟩ = [Expr.ofText source] ∧
      ∀ (part : List Token) (outer : Span), (leftOperands {} [] part outer).length ≤ 1 ∧
        ((group {} [] part outer).hasIssue = false →
          leftOperands {} [] part outer = [group {} [] part outer]) :=
  ⟨group_yields _ _ (traceable_tokensOf hplain) hissue, (leftOperands_eq {} _ _).2 hissue,
    leftOperands_eq {}⟩

/-- The bars become a call, the name of the function is resolved and the literal has taken up the
minus sign. -/
theorem leaves_ofText_bars :
    let source := "-2asin(x)/|y a[k]|"
    Yields (tokensOf source) (Expr.ofText source).leaves ∧
      (Expr.ofText source).leaves =
        .number (-2) :: ["arcsin", "x", "abs", "y", "a", "k"].map Leaf.name := by
  intro source
  have hnone : ∀ t ∈ tokensOf source, t.lexeme ≠ "D" := by decide +kernel
  have hplain : ¬ CallsDerivative (tokensOf source) :=
    fun ⟨t, u, hpair, _, hD, _⟩ => hnone t (hpair.subset List.mem_cons_self) hD
  exact ⟨(leaves_ofText source hplain (by decide +kernel)).1, by decide +kernel⟩

end Reading

end Formulary
