import Formulary.Proofs.Reading.Factors
import Formulary.Proofs.Reading.Symbols

/-!
# Products with and without a sign

The reader multiplies an operand with the one before it when nothing stands between them. It does
the same when a product sign stands there: the state after the operand is the one it would be in
(`Ready.pushOperand`), apart from the places of the waiting operators, which only an issue would
show (`Agrees.finish`). So a group without an issue is read as the same expression with all product
signs (`group_products`).

A closing parenthesis that belongs to no opening one makes a group of everything in front of it. If
there is nothing, no operand ends with it, and a sign behind it would be one too many. So every
closing parenthesis has to belong to an opening one, and to hand this on from one argument to the
next, the statements also say that no parenthesis stays open behind what is read.
-/

namespace Formulary.Reading

open Formulary.Expr State

variable {settings : Settings} {scope : Scope} {negativeNumbers : Bool} {s s' s'' : State}
  {t t' u u' : Token} {ts ts' us : List Token} {before : Option (Token × Token)}

/-! ## Waiting operators -/

/-- The same operators wait, wherever they stand. -/
abbrev SameOps : List Pending → List Pending → Prop := List.Forall₂ fun p p' => p.op = p'.op

/-- The place of an operator matters only to the issues of what it makes. -/
theorem apply_congr {p p' : Pending} (hop : p.op = p'.op) {operands : List Expr}
    (h : Sound (p.apply negativeNumbers operands)) :
    p'.apply negativeNumbers operands = p.apply negativeNumbers operands := by
  cases operands with
  | nil => exact absurd h (not_sound_cons (hasIssue_invalid _))
  | cons last operands =>
    cases hp : p.op with
    | unary op => simp only [Pending.apply, ← hop, hp]
    | binary op =>
      cases operands with
      | nil =>
        simp only [Pending.apply, hp] at h
        exact absurd h (not_sound_cons (hasIssue_invalidPart _ _))
      | cons first operands => simp only [Pending.apply, ← hop, hp]

/-- Waiting operators do the same to the operands, wherever they stand. Only an issue would tell. -/
theorem reduceUntil_sameOps {keep keep' : Pending → Bool}
    (hkeep : ∀ p p', p.op = p'.op → keep' p' = keep p) {ps ps' : List Pending}
    (hps : SameOps ps ps') {operands : List Expr}
    (h : Sound (reduceUntil negativeNumbers keep ps operands).2) :
    SameOps (reduceUntil negativeNumbers keep ps operands).1
        (reduceUntil negativeNumbers keep' ps' operands).1 ∧
      (reduceUntil negativeNumbers keep' ps' operands).2 =
        (reduceUntil negativeNumbers keep ps operands).2 := by
  induction hps generalizing operands with
  | nil => exact ⟨.nil, rfl⟩
  | @cons p p' ps ps' hop hrest ih =>
    rw [reduceUntil] at h
    rw [reduceUntil, reduceUntil, hkeep p p' hop]
    split at h
    · rename_i hp
      rw [if_pos hp, if_pos hp]
      exact ⟨.cons hop hrest, rfl⟩
    · rename_i hp
      rw [if_neg hp, if_neg hp, apply_congr hop ((settles_reduceUntil _ _ _ _).sound h)]
      exact ih h

/-! ## States -/

/-- The states differ only in the places of the waiting operators. -/
structure Agrees (s s' : State) : Prop where
  operands : s'.operands = s.operands
  pending : SameOps s.pending s'.pending
  afterOperand : s'.afterOperand = s.afterOperand
  issue : s'.issue = s.issue

theorem agrees_empty : Agrees {} {} := ⟨rfl, .nil, rfl, rfl⟩

/-- An operator that waits reduces the same operators in both. -/
theorem Agrees.wait (h : Agrees s s') {op : PendingOp} {span : Span}
    (hclean : Clean (s.wait negativeNumbers ⟨op, span⟩)) (span' : Span) :
    Agrees (s.wait negativeNumbers ⟨op, span⟩) (s'.wait negativeNumbers ⟨op, span'⟩) := by
  obtain ⟨operands, pending, afterOperand, issue⟩ := s
  obtain ⟨_, pending', _, _⟩ := s'
  obtain ⟨rfl, hpending, rfl, rfl⟩ := h
  have hkeep (p p' : Pending) (hop : p.op = p'.op) :
      ((Pending.mk op span').isUnary || decide (p'.precedence < (Pending.mk op span').precedence)) =
        ((Pending.mk op span).isUnary ||
          decide (p.precedence < (Pending.mk op span).precedence)) := by
    have hprecedence : p'.precedence = p.precedence := by
      rw [Pending.precedence, Pending.precedence, hop]
    rw [hprecedence]
    rfl
  obtain ⟨hwaiting, hoperands⟩ := reduceUntil_sameOps hkeep hpending hclean.operands
  exact ⟨hoperands, .cons rfl hwaiting, rfl, rfl⟩

theorem Agrees.reduceAll (h : Agrees s s') (hclean : Clean (s.reduceAll negativeNumbers)) :
    Agrees (s.reduceAll negativeNumbers) (s'.reduceAll negativeNumbers) := by
  obtain ⟨operands, pending, afterOperand, issue⟩ := s
  obtain ⟨_, pending', _, _⟩ := s'
  obtain ⟨rfl, hpending, rfl, rfl⟩ := h
  exact ⟨(reduceUntil_sameOps (fun _ _ _ => rfl) hpending hclean.operands).2, .nil, rfl, rfl⟩

/-- Where the group has no issue, an operator waits in both as it does in one. -/
theorem Agrees.pushOperator (h : Agrees s s') {op : BinaryOp} {span : Span}
    (hclean : Clean (s.pushOperator negativeNumbers op span)) (span' : Span) :
    Agrees (s.pushOperator negativeNumbers op span) (s'.pushOperator negativeNumbers op span') := by
  have waiting (op : PendingOp)
      (hclean : Clean { s.wait negativeNumbers ⟨op, span⟩ with afterOperand := false }) :
      Agrees { s.wait negativeNumbers ⟨op, span⟩ with afterOperand := false }
        { s'.wait negativeNumbers ⟨op, span'⟩ with afterOperand := false } := by
    have hwait : Clean (s.wait negativeNumbers ⟨op, span⟩) := ⟨hclean.issue, hclean.operands⟩
    obtain ⟨hoperands, hpending, -, hissue⟩ := h.wait hwait span'
    exact ⟨hoperands, hpending, rfl, hissue⟩
  unfold State.pushOperator at hclean ⊢
  rw [h.afterOperand]
  split at hclean
  · rename_i hafter
    rw [if_pos hafter, if_pos hafter]
    exact waiting _ hclean
  · rename_i hafter
    rw [if_neg hafter, if_neg hafter]
    split at hclean
    · exact waiting _ hclean
    · exact waiting _ hclean
    · have hnoted : Clean ((s.note ⟨span, .consecutiveOperators⟩).wait negativeNumbers
          ⟨.binary op, span⟩) := ⟨hclean.issue, hclean.operands⟩
      exact absurd hnoted.of_wait (not_clean_note _)

/-- A group without an issue is the one operand that is left at its end. -/
theorem reduceAll_of_finish {outer : Span} (henough : Enough s)
    (h : (s.finish negativeNumbers outer).hasIssue = false) :
    s.issue = none ∧ (s.reduceAll negativeNumbers).operands = [s.finish negativeNumbers outer] := by
  have hlength := henough.reduceAll negativeNumbers
  unfold State.finish at h ⊢
  dsimp only at h ⊢
  cases hissue : s.issue with
  | some issue => simp [hissue] at h
  | none =>
    rw [hissue] at h
    match hoperands : (s.reduceAll negativeNumbers).operands with
    | [] => simp [hoperands] at h
    | [e] => exact ⟨rfl, rfl⟩
    | _ :: _ :: _ =>
      rw [hoperands] at hlength
      simp at hlength

/-- States that agree finish with one expression, in whatever place, if it has no issue. -/
theorem Agrees.finish (h : Agrees s s') (henough : Enough s) {outer : Span}
    (hissue : (s.finish negativeNumbers outer).hasIssue = false) (outer' : Span) :
    s'.finish negativeNumbers outer' = s.finish negativeNumbers outer := by
  obtain ⟨hnone, hoperands⟩ := reduceAll_of_finish henough hissue
  have hclean : Clean (s.reduceAll negativeNumbers) :=
    ⟨hnone, by rw [hoperands]; exact List.forall_mem_singleton.2 hissue⟩
  have hsame := (h.reduceAll hclean).operands.trans hoperands
  conv_lhs => rw [State.finish, h.issue, hnone, hsame]

/-! ## Operands -/

/-- In the second state the product sign in front of the next operand may have been read. -/
def Ready (negativeNumbers : Bool) (s s' : State) : Prop :=
  Agrees s s' ∨ s.afterOperand = true ∧
    ∃ s₁ span, Agrees s s₁ ∧ s' = s₁.pushOperator negativeNumbers .mul span

theorem Agrees.operand (h : Agrees s s') (e : Expr) :
    Agrees { s with operands := e :: s.operands, afterOperand := true }
      { s' with operands := e :: s'.operands, afterOperand := true } :=
  ⟨congrArg (e :: ·) h.operands, h.pending, rfl, h.issue⟩

/-- An operand is multiplied with the one before it, with a sign or without one. -/
theorem Ready.pushOperand (h : Ready negativeNumbers s s') {e : Expr} {start : Nat}
    (hclean : Clean (s.pushOperand negativeNumbers e start)) (start' : Nat) :
    Agrees (s.pushOperand negativeNumbers e start)
      (s'.pushOperand negativeNumbers e start') := by
  unfold State.pushOperand at hclean ⊢
  dsimp only at hclean ⊢
  rcases h with hagrees | ⟨hafter, s₁, span, hagrees, rfl⟩
  · rw [hagrees.afterOperand]
    split at hclean
    · rename_i hafter
      rw [if_pos hafter, if_pos hafter]
      have hwait : Clean (s.wait negativeNumbers ⟨.binary .mul, ⟨start, start⟩⟩) :=
        ⟨hclean.issue, (List.forall_mem_cons.1 hclean.operands).2⟩
      exact (hagrees.wait hwait _).operand e
    · rename_i hafter
      rw [if_neg hafter, if_neg hafter]
      exact hagrees.operand e
  · rw [if_pos hafter] at hclean ⊢
    have hwait : Clean (s.wait negativeNumbers ⟨.binary .mul, ⟨start, start⟩⟩) :=
      ⟨hclean.issue, (List.forall_mem_cons.1 hclean.operands).2⟩
    have hafter' : s₁.afterOperand = true := hagrees.afterOperand.trans hafter
    unfold State.pushOperator
    rw [if_pos hafter', if_neg (by simp)]
    obtain ⟨hoperands, hpending, -, hissue⟩ := hagrees.wait hwait span
    exact ⟨congrArg (e :: ·) hoperands, hpending, rfl, hissue⟩

/-- Where an operand has ended, the state is one after an operand. -/
def Follows (before : Option (Token × Token)) (s : State) : Prop :=
  ∀ q ∈ before, endsOperand q.1.kind = true → s.afterOperand = true

theorem follows_start : Follows none s := by simp [Follows]

theorem follows_pushOperand (s : State) (e : Expr) (start : Nat) :
    Follows before (s.pushOperand negativeNumbers e start) := fun _ _ _ => rfl

/-- A product sign in front of a token is read first. -/
theorem Filled.operand (h : Filled before (t :: ts) us) (hagrees : Agrees s s')
    (hfollows : Follows before s) (outer : Span) :
    ∃ t' ts' s'', Alike t t' ∧ Filled (some (t, t')) ts ts' ∧
      Ready settings.negativeNumbers s s'' ∧
      elements settings scope outer us s' = elements settings scope outer (t' :: ts') s'' := by
  cases h with
  | keep _ _ alike rest => exact ⟨_, _, s', alike, rest, .inl hagrees, rfl⟩
  | @product _ _ _ t' sign _ ts' meet times alike rest =>
    have hafter := hfollows _ rfl meet.1
    exact ⟨t', ts', _, alike, rest, .inr ⟨hafter, s', sign.span, hagrees, rfl⟩,
      elements_operator times⟩

/-! ## In front of a name and behind it -/

/-- The parts of a name are multiplied in both. -/
theorem Ready.pushParts (h : Ready negativeNumbers s s') (henough : Enough s)
    {parts : List String} {start stop : Nat} {name : String} {s₁ : State}
    (hparts : pushParts negativeNumbers s start parts = (s₁, name, stop)) (hclean : Clean s₁)
    (start' : Nat) :
    ∃ s₁' stop', Reading.pushParts negativeNumbers s' start' parts = (s₁', name, stop') ∧
      Ready negativeNumbers s₁ s₁' := by
  induction parts generalizing s s' start start' with
  | nil =>
    cases hparts
    exact ⟨s', start', rfl, h⟩
  | cons part parts ih =>
    by_cases hrest : parts = []
    · subst hrest
      cases hparts
      exact ⟨s', start', rfl, h⟩
    · rw [pushParts_cons hrest] at hparts ⊢
      have henough' := henough.pushOperand negativeNumbers (.var part) start
      have hpushed :=
        (clean_of_pushParts negativeNumbers (start + part.utf8ByteSize) hrest henough').2
      rw [hparts] at hpushed
      exact ih (.inl (h.pushOperand (hpushed hclean) start')) henough' hparts _

/-- Neither an argument nor an index comes right behind the name. -/
def Plain (scope : Scope) (name : String) (t : Token) (ts : List Token) : Prop :=
  ∀ u ∈ ts.head?, ¬ (u.span.start = t.span.stop ∧ u.kind = .openParen ∧ name ∉ scope) ∧
    ¬ (u.span.start = t.span.stop ∧ u.kind = .openBracket)

theorem plain_nil {name : String} : Plain scope name t [] := by simp [Plain]

theorem elements_plain {outer : Span} {name : String} {start : Nat} (ht : t.kind = .name)
    (hparts : pushParts settings.negativeNumbers s t.span.start (nameParts scope t.lexeme) =
      (s', name, start)) (hplain : Plain scope name t ts) :
    elements settings scope outer (t :: ts) s =
      elements settings scope outer ts
        (s'.pushOperand settings.negativeNumbers (.var name) start) := by
  cases ts with
  | nil => rw [elements_lastName ht hparts, elements_nil]
  | cons u us =>
    obtain ⟨hcall, hbracket⟩ := hplain u rfl
    exact elements_name ht hparts hcall hbracket

theorem Filled.plain (h : Filled (some (t, t')) ts ts') (ht : t.kind = .name) {name : String}
    (hplain : Plain scope name t ts) : Plain scope name t' ts' := by
  cases h with
  | nil => exact plain_nil
  | keep _ near alike _ =>
    rintro _ ⟨⟩
    rw [near _ rfl ht, alike.kind]
    exact hplain _ rfl
  | product _ times _ _ =>
    rintro _ ⟨⟩
    simp [times]

/-- What comes right behind a name is not multiplied with it. -/
theorem Filled.attached (h : Filled (some (t, t')) (u :: ts) us) (ht : t.kind = .name)
    (hnear : u.span.start = t.span.stop) (hu : u.kind = .openParen ∨ u.kind = .openBracket) :
    ∃ u' ts', us = u' :: ts' ∧ Alike u u' ∧ u'.span.start = t'.span.stop ∧
      Filled (some (u, u')) ts ts' := by
  cases h with
  | keep _ near alike rest => exact ⟨_, _, rfl, alike, (near _ rfl ht).2 hnear, rest⟩
  | product meet _ _ _ =>
    rcases hu with hu | hu
    · exact absurd ⟨ht, hu, hnear⟩ meet.2.2
    · exact absurd meet (not_meet_of_begins (by rw [hu]; rfl))

/-! ## What is read -/

theorem clean_of_elements {outer : Span} (henough : Enough s)
    (h : Clean (elements settings scope outer ts s)) : Clean s :=
  ((elements_accounts settings scope outer ts s henough).2 h).1

theorem sound_of_elements {outer : Span} {e : Expr} {start : Nat} (henough : Enough s)
    (h : Clean (elements settings scope outer ts
      (s.pushOperand settings.negativeNumbers e start))) : Clean s ∧ e.hasIssue = false :=
  (clean_of_elements (henough.pushOperand _ e start) h).of_pushOperand

/-- A group that is not empty is its elements, without the parentheses around them. -/
theorem group_eq_elements {outer : Span} (h : (strip ts outer).1 ≠ []) :
    group settings scope ts outer =
      (elements settings scope (strip ts outer).2 (strip ts outer).1 {}).finish
        settings.negativeNumbers (strip ts outer).2 := by
  rw [group]
  split
  · rename_i hnil
    exact absurd hnil h
  · rfl

/-- A literal without an issue is read the same wherever it stands. -/
theorem number_congr (alike : Alike t t') (h : (number settings t).hasIssue = false) :
    number settings t' = number settings t := by
  unfold number at h ⊢
  dsimp only at h ⊢
  rw [alike.lexeme]
  split at h
  · simp at h
  · rename_i hpoint
    rw [if_neg hpoint, if_neg hpoint]

theorem element_congr {name : String} {index : Expr} {brackets : Span}
    (h : (element name index brackets).hasIssue = false) (brackets' : Span) :
    element name index brackets' = element name index brackets := by
  unfold element at h ⊢
  dsimp only at h ⊢
  split at h
  · simp at h
  · rfl

/-- The variable of a derivative is the same in both. -/
theorem derivativeBy_congr {body : Expr} {span : Span} {point : Option Expr}
    (h : (derivativeBy body ts span point).hasIssue = false) (hfilled : Filled none ts ts')
    (span' : Span) :
    derivativeBy body ts' span' point = derivativeBy body ts span point ∧
      openAfter 0 ts = some 0 := by
  unfold derivativeBy at h ⊢
  dsimp only at h ⊢
  split at h
  · rename_i t
    split at h
    · rename_i hkind
      cases hfilled with
      | keep _ _ alike rest =>
        cases rest
        dsimp only
        rw [alike.kind, alike.lexeme, if_pos hkind, if_pos hkind]
        exact ⟨rfl, openAfter_other (by simp [hkind]) (by simp [hkind]) _ _⟩
    · simp at h
  · simp at h

/-- The group is the same with all product signs, unless it has an issue. -/
def GroupKept (settings : Settings) (scope : Scope) (tokens : List Token) (outer : Span) : Prop :=
  (group settings scope tokens outer).hasIssue = false → (openAfter 0 tokens).isSome →
    openAfter 0 tokens = some 0 ∧ ∀ tokens' outer', Filled none tokens tokens' →
      group settings scope tokens' outer' = group settings scope tokens outer

/-- The elements lead to the same state with all product signs, unless there is an issue. -/
def ElementsKept (settings : Settings) (scope : Scope) (outer : Span) (tokens : List Token)
    (s : State) : Prop :=
  Enough s → Clean (elements settings scope outer tokens s) → (openAfter 0 tokens).isSome →
    openAfter 0 tokens = some 0 ∧ ∀ before tokens' s' outer', Filled before tokens tokens' →
      Agrees s s' → Follows before s →
        Agrees (elements settings scope outer tokens s)
          (elements settings scope outer' tokens' s')

/-- The call is the same with all product signs, unless it has an issue. -/
def CallKept (settings : Settings) (scope : Scope) (name : String) (tokens : List Token)
    (span : Span) : Prop :=
  (call settings scope name tokens span).hasIssue = false → (openAfter 0 tokens).isSome →
    ∀ tokens' span', Filled none tokens tokens' →
      call settings scope name tokens' span' = call settings scope name tokens span

theorem elementsKept_nil (outer : Span) (s : State) : ElementsKept settings scope outer [] s := by
  intro _ _ _
  refine ⟨rfl, fun before tokens' s' outer' hfilled hagrees _ => ?_⟩
  cases hfilled
  rwa [elements_nil, elements_nil]

/-- After an operand that is read in both, reading goes on in both. -/
theorem ElementsKept.operand {outer : Span} {e : Expr} {start : Nat}
    (h : ElementsKept settings scope outer ts (s.pushOperand settings.negativeNumbers e start))
    (henough : Enough s)
    (hclean : Clean (elements settings scope outer ts
      (s.pushOperand settings.negativeNumbers e start)))
    (hopen : (openAfter 0 ts).isSome) :
    openAfter 0 ts = some 0 ∧ ∀ before ts' s' start' outer', Filled before ts ts' →
      Ready settings.negativeNumbers s s' →
        Agrees (elements settings scope outer ts (s.pushOperand settings.negativeNumbers e start))
          (elements settings scope outer' ts'
            (s'.pushOperand settings.negativeNumbers e start')) := by
  have henough' := henough.pushOperand settings.negativeNumbers e start
  obtain ⟨hzero, hkept⟩ := h henough' hclean hopen
  refine ⟨hzero, fun before ts' s' start' outer' hfilled hready => ?_⟩
  have hagrees := hready.pushOperand (clean_of_elements henough' hclean) start'
  exact hkept before ts' _ outer' hfilled hagrees (follows_pushOperand s e start)

/-- Signs that change nothing in a parenthesized group and behind it change nothing in both. -/
theorem ElementsKept.parenthesized {outer : Span} {g : Enclosed} (ht : t.kind = .openParen)
    (hg : closing .openParen .closeParen 0 ts = some g)
    (inner : GroupKept settings scope g.inner ⟨t.span.stop, g.close.span.start⟩)
    (rest : ElementsKept settings scope outer g.rest (s.pushOperand settings.negativeNumbers
      (group settings scope g.inner ⟨t.span.stop, g.close.span.start⟩) t.span.start)) :
    ElementsKept settings scope outer (t :: ts) s := by
  intro henough hclean hopen
  rw [elements_group ht hg] at hclean ⊢
  rw [openAfter_group ht hg] at hopen ⊢
  obtain ⟨-, hinner⟩ :=
    inner (sound_of_elements henough hclean).2 (by rw [openAfter_closing hg]; rfl)
  obtain ⟨hzero, hkept⟩ := rest.operand henough hclean hopen
  refine ⟨hzero, fun before tokens' s' outer' hfilled hagrees hfollows => ?_⟩
  obtain ⟨t', ts', s'', halike, hts, hready, heq⟩ := hfilled.operand hagrees hfollows outer'
  obtain ⟨g', hg', hsame⟩ := hts.closing_some .parens hg
  have hfresh := hsame.inner.fresh (by rw [ht]; rfl)
  rw [heq, elements_group (halike.kind.trans ht) hg', hinner _ _ hfresh]
  exact hkept _ _ _ _ _ hsame.rest hready

/-- Signs that change nothing between bars and behind them change nothing in both. -/
theorem ElementsKept.bars {outer : Span} {g : Enclosed} (ht : t.kind = .bar)
    (hg : closingBar 0 true ts = some g)
    (inner : GroupKept settings scope g.inner ⟨t.span.stop, g.close.span.start⟩)
    (rest : ElementsKept settings scope outer g.rest (s.pushOperand settings.negativeNumbers
      (.callNamed "abs" (group settings scope g.inner ⟨t.span.stop, g.close.span.start⟩))
      t.span.start)) :
    ElementsKept settings scope outer (t :: ts) s := by
  intro henough hclean hopen
  obtain ⟨hts, hclose⟩ := closingBar_eq_some hg
  rw [elements_bars ht hg] at hclean ⊢
  rw [openAfter_other (by simp [ht]) (by simp [ht]),
    openAfter_enclosed hts (by simp [hclose]) (by simp [hclose])] at hopen ⊢
  have hsound := (sound_of_elements henough hclean).2
  rw [callNamed, hasIssue_call] at hsound
  obtain ⟨hopened, hinner⟩ := inner hsound (Option.isSome_of_isSome_bind hopen)
  rw [hopened, Option.bind_some] at hopen ⊢
  obtain ⟨hzero, hkept⟩ := rest.operand henough hclean hopen
  refine ⟨hzero, fun before tokens' s' outer' hfilled hagrees hfollows => ?_⟩
  obtain ⟨t', ts', rfl, halike, hts'⟩ := hfilled.keeps (by rw [ht]; rfl)
  obtain ⟨g', hg', hsame⟩ := hts'.closingBar_some hg
  have hfresh := hsame.inner.fresh (by rw [ht]; rfl)
  rw [elements_bars (halike.kind.trans ht) hg', hinner _ _ hfresh]
  exact hkept _ _ _ _ _ hsame.rest (.inl hagrees)

theorem ElementsKept.number {outer : Span} (ht : t.kind = .number)
    (rest : ElementsKept settings scope outer ts
      (s.pushOperand settings.negativeNumbers (number settings t) t.span.start)) :
    ElementsKept settings scope outer (t :: ts) s := by
  intro henough hclean hopen
  rw [elements_number ht] at hclean ⊢
  rw [openAfter_other (by simp [ht]) (by simp [ht])] at hopen ⊢
  obtain ⟨hzero, hkept⟩ := rest.operand henough hclean hopen
  refine ⟨hzero, fun before tokens' s' outer' hfilled hagrees hfollows => ?_⟩
  obtain ⟨t', ts', s'', halike, hts, hready, heq⟩ := hfilled.operand hagrees hfollows outer'
  rw [heq, elements_number (halike.kind.trans ht),
    number_congr halike (sound_of_elements henough hclean).2]
  exact hkept _ _ _ _ _ hts hready

theorem ElementsKept.operator {outer : Span} {op : BinaryOp} (ht : t.kind = .operator op)
    (rest : ElementsKept settings scope outer ts
      (s.pushOperator settings.negativeNumbers op t.span)) :
    ElementsKept settings scope outer (t :: ts) s := by
  intro henough hclean hopen
  rw [elements_operator ht] at hclean ⊢
  rw [openAfter_other (by simp [ht]) (by simp [ht])] at hopen ⊢
  have henough' := henough.pushOperator settings.negativeNumbers op t.span
  obtain ⟨hzero, hkept⟩ := rest henough' hclean hopen
  refine ⟨hzero, fun before tokens' s' outer' hfilled hagrees hfollows => ?_⟩
  obtain ⟨t', ts', rfl, halike, hts⟩ := hfilled.keeps (by rw [ht]; rfl)
  rw [elements_operator (halike.kind.trans ht)]
  refine hkept _ _ _ _ hts (hagrees.pushOperator (clean_of_elements henough' hclean) _) ?_
  rintro _ ⟨⟩ hends
  rw [ht] at hends
  cases hends

/-! ## Names -/

/-- A name that stands for itself. -/
theorem ElementsKept.name {outer : Span} {name : String} {start : Nat} (ht : t.kind = .name)
    (hparts : pushParts settings.negativeNumbers s t.span.start (nameParts scope t.lexeme) =
      (s', name, start)) (hplain : Plain scope name t ts)
    (rest : ElementsKept settings scope outer ts
      (s'.pushOperand settings.negativeNumbers (.var name) start)) :
    ElementsKept settings scope outer (t :: ts) s := by
  intro henough hclean hopen
  rw [elements_plain ht hparts hplain] at hclean ⊢
  rw [openAfter_other (by simp [ht]) (by simp [ht])] at hopen ⊢
  have henough' := ((accounts_parts hparts).1 henough).1
  obtain ⟨hzero, hkept⟩ := rest.operand henough' hclean hopen
  refine ⟨hzero, fun before tokens' r outer' hfilled hagrees hfollows => ?_⟩
  obtain ⟨t', ts', r', halike, hts, hready, heq⟩ := hfilled.operand hagrees hfollows outer'
  obtain ⟨r₁, start', hparts', hready'⟩ := hready.pushParts henough hparts
    (sound_of_elements henough' hclean).1 t'.span.start
  rw [← halike.lexeme] at hparts'
  rw [heq, elements_plain (halike.kind.trans ht) hparts' (hts.plain ht hplain)]
  exact hkept _ _ _ _ _ hts hready'

/-- A name with its argument. -/
theorem ElementsKept.call {outer : Span} {name : String} {start : Nat} {g : Enclosed}
    (ht : t.kind = .name)
    (hparts : pushParts settings.negativeNumbers s t.span.start (nameParts scope t.lexeme) =
      (s', name, start))
    (hcall : u.span.start = t.span.stop ∧ u.kind = .openParen ∧ name ∉ scope)
    (hg : closing .openParen .closeParen 0 ts = some g)
    (inner : CallKept settings scope name g.inner ⟨u.span.stop, g.close.span.start⟩)
    (rest : ElementsKept settings scope outer g.rest (s'.pushOperand settings.negativeNumbers
      (call settings scope name g.inner ⟨u.span.stop, g.close.span.start⟩) start)) :
    ElementsKept settings scope outer (t :: u :: ts) s := by
  intro henough hclean hopen
  rw [elements_call ht hparts hcall hg] at hclean ⊢
  rw [openAfter_other (by simp [ht]) (by simp [ht]), openAfter_group hcall.2.1 hg] at hopen ⊢
  have henough' := ((accounts_parts hparts).1 henough).1
  obtain ⟨hclean', hsound⟩ := sound_of_elements henough' hclean
  have hinner := inner hsound (by rw [openAfter_closing hg]; rfl)
  obtain ⟨hzero, hkept⟩ := rest.operand henough' hclean hopen
  refine ⟨hzero, fun before tokens' r outer' hfilled hagrees hfollows => ?_⟩
  obtain ⟨t', us, r', halike, hus, hready, heq⟩ := hfilled.operand hagrees hfollows outer'
  obtain ⟨u', ts', rfl, halike', hnear, hts⟩ := hus.attached ht hcall.1 (.inl hcall.2.1)
  obtain ⟨r₁, start', hparts', hready'⟩ := hready.pushParts henough hparts hclean' t'.span.start
  obtain ⟨g', hg', hsame⟩ := hts.closing_some .parens hg
  have hfresh := hsame.inner.fresh (by rw [hcall.2.1]; rfl)
  rw [← halike.lexeme] at hparts'
  rw [heq, elements_call (halike.kind.trans ht) hparts'
    ⟨hnear, halike'.kind.trans hcall.2.1, hcall.2.2⟩ hg', hinner _ _ hfresh]
  exact hkept _ _ _ _ _ hsame.rest hready'

/-- A name with its index. -/
theorem ElementsKept.subscript {outer : Span} {name : String} {start : Nat} {g : Enclosed}
    (ht : t.kind = .name)
    (hparts : pushParts settings.negativeNumbers s t.span.start (nameParts scope t.lexeme) =
      (s', name, start))
    (hbracket : u.span.start = t.span.stop ∧ u.kind = .openBracket)
    (hg : closing .openBracket .closeBracket 0 ts = some g)
    (inner : GroupKept settings scope g.inner ⟨u.span.stop, g.close.span.start⟩)
    (rest : ElementsKept settings scope outer g.rest (s'.pushOperand settings.negativeNumbers
      (if g.inner.any (·.kind == .openBracket) then
        .invalidPart ⟨⟨u.span.start, g.close.span.stop⟩, .nestedSubscript⟩ (.var name)
      else element name (group settings scope g.inner ⟨u.span.stop, g.close.span.start⟩)
        ⟨u.span.start, g.close.span.stop⟩) start)) :
    ElementsKept settings scope outer (t :: u :: ts) s := by
  intro henough hclean hopen
  obtain ⟨hts, hclose⟩ := closing_eq_some hg
  rw [elements_subscript ht hparts hbracket hg] at hclean ⊢
  rw [openAfter_other (by simp [ht]) (by simp [ht]),
    openAfter_other (by simp [hbracket.2]) (by simp [hbracket.2]),
    openAfter_enclosed hts (by simp [hclose]) (by simp [hclose])] at hopen ⊢
  have henough' := ((accounts_parts hparts).1 henough).1
  obtain ⟨hclean', hsound⟩ := sound_of_elements henough' hclean
  have hnested : ¬ (g.inner.any (·.kind == .openBracket)) = true := by
    intro hnested
    rw [if_pos hnested] at hsound
    simp at hsound
  rw [if_neg hnested] at hsound hclean rest ⊢
  have hindex := hsound
  rw [element_eq hsound, hasIssue_element] at hindex
  obtain ⟨hopened, hinner⟩ := inner hindex (Option.isSome_of_isSome_bind hopen)
  rw [hopened, Option.bind_some] at hopen ⊢
  obtain ⟨hzero, hkept⟩ := rest.operand henough' hclean hopen
  refine ⟨hzero, fun before tokens' r outer' hfilled hagrees hfollows => ?_⟩
  obtain ⟨t', us, r', halike, hus, hready, heq⟩ := hfilled.operand hagrees hfollows outer'
  obtain ⟨u', ts', rfl, halike', hnear, hts'⟩ := hus.attached ht hbracket.1 (.inr hbracket.2)
  obtain ⟨r₁, start', hparts', hready'⟩ := hready.pushParts henough hparts hclean' t'.span.start
  obtain ⟨g', hg', hsame⟩ := hts'.closing_some .brackets hg
  have hfresh := hsame.inner.fresh (by rw [hbracket.2]; rfl)
  have hnested' : ¬ (g'.inner.any (·.kind == .openBracket)) = true := by
    rwa [hsame.inner.any_openBracket]
  rw [← halike.lexeme] at hparts'
  rw [heq, elements_subscript (halike.kind.trans ht) hparts'
    ⟨hnear, halike'.kind.trans hbracket.2⟩ hg', if_neg hnested', hinner _ _ hfresh,
    element_congr hsound ⟨u'.span.start, g'.close.span.stop⟩]
  exact hkept _ _ _ _ _ hsame.rest hready'

/-! ## Derivatives -/

theorem CallKept.derivative {tokens body : List Token} {span : Span}
    (harguments : arguments 0 tokens = [body])
    (hbody : GroupKept settings scope body (spanOf body span)) :
    CallKept settings scope "D" tokens span := by
  intro hissue hopen tokens' span' hfilled
  rw [call_D_one harguments, hasIssue_derivative] at hissue
  obtain ⟨after, rfl⟩ := (infix_of_arguments harguments).1
  have hrel := hfilled.arguments_forall₂
  rw [harguments] at hrel
  generalize harguments' : arguments 0 tokens' = parts at hrel
  obtain _ | ⟨hfilledBody, ⟨⟩⟩ := hrel
  rw [call_D_one harguments, call_D_one harguments',
    (hbody hissue (isSome_openAfter_of_append hopen)).2 _ _ hfilledBody]

theorem CallKept.derivativeBy {tokens body x : List Token} {span : Span}
    (harguments : arguments 0 tokens = [body, x])
    (hbody : GroupKept settings scope body (spanOf body span)) :
    CallKept settings scope "D" tokens span := by
  intro hissue hopen tokens' span' hfilled
  rw [call_D_two harguments] at hissue
  obtain ⟨-, hsound, -⟩ := explained_variable scope hissue
  have hbodyOpen : (openAfter 0 body).isSome := by
    obtain ⟨after, rfl⟩ := (infix_of_arguments harguments).1
    exact isSome_openAfter_of_append hopen
  have hrel := hfilled.arguments_forall₂
  rw [harguments] at hrel
  generalize harguments' : arguments 0 tokens' = parts at hrel
  obtain _ | ⟨hfilledBody, _ | ⟨hfilledVariable, ⟨⟩⟩⟩ := hrel
  rw [call_D_two harguments, call_D_two harguments', (hbody hsound hbodyOpen).2 _ _ hfilledBody]
  exact (derivativeBy_congr hissue hfilledVariable span').1

/-- Signs that change nothing in the body and in the point change nothing in the derivative. -/
theorem CallKept.derivativeAt {tokens body x point : List Token} {others : List (List Token)}
    {span : Span} (harguments : arguments 0 tokens = body :: x :: point :: others)
    (hbody : GroupKept settings scope body (spanOf body span))
    (hpoint : GroupKept settings scope point (spanOf point span)) :
    CallKept settings scope "D" tokens span := by
  intro hissue hopen tokens' span' hfilled
  rw [call_D_three harguments] at hissue
  obtain ⟨-, hsound, hpointSound⟩ := explained_variable scope hissue
  have hrel := hfilled.arguments_forall₂
  rw [harguments] at hrel
  generalize harguments' : arguments 0 tokens' = parts at hrel
  obtain _ | ⟨hfilledBody, _ | ⟨hfilledVariable, _ | ⟨hfilledPoint, -⟩⟩⟩ := hrel
  -- Behind an argument that is read no parenthesis is open, so the next one has its own only.
  obtain ⟨us, hus, hsplit⟩ := openAfter_arguments harguments
  rw [hsplit] at hopen
  obtain ⟨hbodyZero, hbodyKept⟩ := hbody hsound (Option.isSome_of_isSome_bind hopen)
  rw [hbodyZero, Option.bind_some] at hopen
  obtain ⟨vs, hvs, hsplit'⟩ := openAfter_arguments hus
  obtain ⟨hderivative, hvariableZero⟩ := derivativeBy_congr hissue hfilledVariable span'
  rw [hsplit', hvariableZero, Option.bind_some] at hopen
  obtain ⟨after, rfl⟩ := (infix_of_arguments hvs).1
  obtain ⟨-, hpointKept⟩ := hpoint (hpointSound _ rfl) (isSome_openAfter_of_append hopen)
  rw [call_D_three harguments, call_D_three harguments', hbodyKept _ _ hfilledBody,
    hpointKept _ _ hfilledPoint]
  exact hderivative

/-! ## Groups -/

/-- It is enough to look at the elements without the parentheses around them. -/
theorem GroupKept.of_elements {tokens : List Token} {outer : Span}
    (hne : (strip tokens outer).1 ≠ [])
    (inner : ElementsKept settings scope (strip tokens outer).2 (strip tokens outer).1 {}) :
    GroupKept settings scope tokens outer := by
  intro hissue hopen
  rw [group_eq_elements hne] at hissue
  rw [← openAfter_strip tokens outer] at hopen ⊢
  have henough := (elements_accounts settings scope (strip tokens outer).2
    (strip tokens outer).1 {} (Nat.zero_le _)).1
  obtain ⟨hzero, hkept⟩ := inner (Nat.zero_le _) (.of_finish henough hissue) hopen
  refine ⟨hzero, fun tokens' outer' hfilled => ?_⟩
  have hstripped := hfilled.stripped outer outer'
  rw [group_eq_elements hne, group_eq_elements (hstripped.ne_nil hne)]
  exact (hkept _ _ _ _ hstripped agrees_empty follows_start).finish henough hissue _

/-- A group without an issue is read as the same expression with all product signs. The induction is
over the reader, like that of `Steps`, but what is kept is about the reading with all signs, too. -/
theorem group_products (settings : Settings) (scope : Scope) (tokens : List Token) (outer : Span) :
    GroupKept settings scope tokens outer := by
  refine (group.mutual_induct settings scope (GroupKept settings scope)
    (ElementsKept settings scope) (CallKept settings scope)
    ?empty ?group ?nil ?closeParen ?parentheses ?openParen ?bars ?openBar ?number ?lastName ?call
    ?openCall ?subscript ?openSubscript ?name ?operator ?blank ?comma ?openBracket ?closeBracket
    ?symbol ?noArgument ?derivative ?derivativeByName ?derivativeAtPoint ?function).1 tokens outer
  case empty =>
    intro tokens outer stripped _ hnil hissue
    rw [group, show strip tokens outer = stripped from rfl, hnil] at hissue
    simp at hissue
  case group =>
    intro tokens outer stripped _ head tail hcons inside
    refine .of_elements ?_ inside
    simp [show strip tokens outer = stripped from rfl, hcons]
  case nil => exact elementsKept_nil
  case closeParen =>
    intro outer s t ts ht _ _ _ hopen
    rw [openAfter_unopened ht] at hopen
    cases hopen
  case parentheses =>
    intro outer s t ts ht g hg _ e inside rest
    exact .parenthesized ht hg inside rest
  case openParen =>
    intro outer s t ts ht hg _ henough hclean
    rw [elements_openGroup ht hg] at hclean
    have hsound := hclean.of_pushOperand.2
    simp [unclosed] at hsound
  case bars =>
    intro outer s t ts ht g hg _ e inside rest
    exact .bars ht hg inside rest
  case openBar =>
    intro outer s t ts ht hg _ henough hclean
    rw [elements_openBar ht hg] at hclean
    have hsound := hclean.of_pushOperand.2
    simp [unclosed, callNamed] at hsound
  case number =>
    intro outer s t ts ht rest
    exact .number ht rest
  case lastName =>
    intro outer s t ht s' name start hparts
    exact .name ht hparts plain_nil (elementsKept_nil outer _)
  case call =>
    intro outer s t ht s' name start hparts u ts hcall g hg _ e inside rest
    exact .call ht hparts hcall hg inside rest
  case openCall =>
    intro outer s t ht s' name start hparts u ts hcall hg _ henough hclean
    rw [elements_openCall ht hparts hcall hg] at hclean
    have hsound := hclean.of_pushOperand.2
    simp [unclosed] at hsound
  case subscript =>
    intro outer s t ht s' name start hparts u ts _ hbracket g hg _ brackets e inside rest
    exact .subscript ht hparts hbracket hg inside rest
  case openSubscript =>
    intro outer s t ht s' name start hparts u ts _ hbracket hg _ henough hclean
    rw [elements_openSubscript ht hparts hbracket hg] at hclean
    have hsound := hclean.of_pushOperand.2
    split at hsound <;> simp [unclosed] at hsound
  case name =>
    intro outer s t ht s' name start hparts u ts hcall hbracket rest
    refine .name ht hparts ?_ rest
    rintro _ ⟨⟩
    exact ⟨hcall, hbracket⟩
  case operator =>
    intro outer s t ts op ht rest
    exact .operator ht rest
  case blank | comma | openBracket | closeBracket | symbol =>
    intro outer s t ts ht _ henough hclean
    rw [elements_unrecognized (by simp [ht])] at hclean
    exact absurd (clean_of_elements (henough.note _) hclean) (not_clean_note _)
  case noArgument =>
    intro tokens span hnone
    exact absurd hnone (arguments_ne_nil 0 tokens)
  case derivative =>
    intro tokens span body harguments _ inside
    exact .derivative harguments inside
  case derivativeByName =>
    intro tokens span body x harguments _ inside
    exact .derivativeBy harguments inside
  case derivativeAtPoint =>
    intro tokens span body x point others harguments _ _ inside insidePoint
    exact .derivativeAt harguments inside insidePoint
  case function =>
    intro name tokens span hname inside hissue hopen tokens' span' hfilled
    rw [call_other hname, callNamed, hasIssue_call] at hissue
    rw [call_other hname, call_other hname, (inside hissue hopen).2 _ _ hfilled]

end Formulary.Reading
