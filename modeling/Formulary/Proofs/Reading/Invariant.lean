import Formulary.Proofs.Reading.Elements
import Formulary.Proofs.Splitting

/-!
# Properties of everything that is read

A property of expressions holds of all that is read from certain tokens if the operations that the
reader builds expressions with keep it. `Kept` lists these operations; they make up the steps of the
stacks, and these the steps of the reader (`Kept.steps`), so that `group_kept` follows by induction.

The property may depend on whether opening brackets stand among the tokens, since subscripts are
read from tokens without them.
-/

namespace Formulary.Reading

open Formulary.Expr State

/-! ## The tokens of groups -/

/-- A group that is closed is its inside, the token that closes it and what comes after. -/
theorem closing_eq_some {opens closes : TokenKind} {depth : Nat} {ts : List Token} {g : Enclosed}
    (h : closing opens closes depth ts = some g) :
    ts = g.inner ++ g.close :: g.rest ∧ g.close.kind = closes := by
  induction ts generalizing depth g with
  | nil => simp [closing] at h
  | cons t ts ih =>
    have step {d : Nat} (h : (closing opens closes d ts).map (Enclosed.cons t) = some g) :
        t :: ts = g.inner ++ g.close :: g.rest ∧ g.close.kind = closes := by
      obtain ⟨g', hg', rfl⟩ := Option.map_eq_some_iff.1 h
      obtain ⟨hsplit, hclose⟩ := ih hg'
      exact ⟨congrArg (t :: ·) hsplit, hclose⟩
    simp only [closing] at h
    split at h
    · exact step h
    · split at h
      · rename_i hkind
        split at h
        · cases h
          exact ⟨rfl, hkind⟩
        · exact step h
      · exact step h

/-- The bars enclose the tokens before the closing one, which is a bar. -/
theorem closingBar_eq_some {depth : Nat} {afterOpening : Bool} {ts : List Token} {g : Enclosed}
    (h : closingBar depth afterOpening ts = some g) :
    ts = g.inner ++ g.close :: g.rest ∧ g.close.kind = .bar := by
  induction ts generalizing depth afterOpening g with
  | nil => simp [closingBar] at h
  | cons t ts ih =>
    have step {d : Nat} {b : Bool} (h : (closingBar d b ts).map (Enclosed.cons t) = some g) :
        t :: ts = g.inner ++ g.close :: g.rest ∧ g.close.kind = .bar := by
      obtain ⟨g', hg', rfl⟩ := Option.map_eq_some_iff.1 h
      obtain ⟨hsplit, hclose⟩ := ih hg'
      exact ⟨congrArg (t :: ·) hsplit, hclose⟩
    simp only [closingBar] at h
    split at h
    · rename_i hkind
      split at h
      · exact step h
      · split at h
        · cases h
          exact ⟨rfl, hkind⟩
        · exact step h
    · exact step h

theorem mem_of_closing {opens closes : TokenKind} {depth : Nat} {ts : List Token} {g : Enclosed}
    (h : closing opens closes depth ts = some g) :
    (∀ t ∈ g.inner, t ∈ ts) ∧ ∀ t ∈ g.rest, t ∈ ts := by
  rw [(closing_eq_some h).1]
  exact ⟨fun t ht => by simp [ht], fun t ht => by simp [ht]⟩

theorem mem_of_closingBar {depth : Nat} {afterOpening : Bool} {ts : List Token} {g : Enclosed}
    (h : closingBar depth afterOpening ts = some g) :
    (∀ t ∈ g.inner, t ∈ ts) ∧ ∀ t ∈ g.rest, t ∈ ts := by
  rw [(closingBar_eq_some h).1]
  exact ⟨fun t ht => by simp [ht], fun t ht => by simp [ht]⟩

theorem mem_of_strip {tokens : List Token} {outer : Span} {t : Token}
    (h : t ∈ (strip tokens outer).1) : t ∈ tokens := by
  fun_induction strip tokens outer with
  | case1 => exact h
  | case2 outer u us _ inner close hclosing ih =>
    exact List.mem_cons_of_mem _ ((mem_of_closing hclosing).1 t (ih h))
  | case3 => exact h
  | case4 => exact h

/-- The arguments have only tokens of the call. -/
theorem mem_of_arguments {depth : Int} {ts part : List Token} (hpart : part ∈ arguments depth ts)
    {t : Token} (h : t ∈ part) : t ∈ ts := by
  induction ts generalizing depth part with
  | nil => simp_all [arguments]
  | cons u ts ih =>
    unfold arguments at hpart
    split at hpart
    · rcases List.mem_cons.1 hpart with rfl | hpart
      · cases h
      · exact List.mem_cons_of_mem _ (ih hpart h)
    · dsimp only at hpart
      split at hpart
      · simp_all
      · rename_i heq
        rcases List.mem_cons.1 hpart with rfl | hpart
        · rcases List.mem_cons.1 h with rfl | h
          · exact List.mem_cons_self
          · exact List.mem_cons_of_mem _ (ih (heq ▸ List.mem_cons_self) h)
        · exact List.mem_cons_of_mem _ (ih (heq ▸ List.mem_cons_of_mem _ hpart) h)

/-! ## What the reader builds -/

/-- The operations of the reader keep a property of expressions, as long as the tokens have a
property of their own. -/
structure Kept (settings : Settings) (scope : Scope) (T : Token → Prop)
    (Q : (brackets : Bool) → Expr → Prop) : Prop where
  invalid (b : Bool) (issue : Issue) : Q b (.invalid issue)
  invalidPart {b : Bool} (issue : Issue) {e : Expr} : Q b e → Q b (.invalidPart issue e)
  number (b : Bool) {t : Token} : T t → t.kind = .number → Q b (number settings t)
  negative {b : Bool} {n : Number} : settings.negativeNumbers = true → Q b (.number n) →
    Q b (.number (-n))
  sign {b : Bool} {op : UnaryOp} {e : Expr} : op ≠ .plus → Q b e → Q b (.unary op e)
  binary {b : Bool} (op : BinaryOp) {l r : Expr} : Q b l → Q b r → Q b (.binary op l r)
  var (b : Bool) {t : Token} {name : String} : T t → t.kind = .name →
    name ∈ nameParts scope t.lexeme → Q b (.var name)
  absolute {b : Bool} {e : Expr} : Q b e → Q b (.callNamed "abs" e)
  call {b : Bool} {t : Token} {name : String} {e : Expr} : T t → t.kind = .name →
    name ∈ nameParts scope t.lexeme → name ≠ "D" → Q b e → Q b (.callNamed name e)
  element {t : Token} {name : String} {e : Expr} (brackets : Span) : T t → t.kind = .name →
    name ∈ nameParts scope t.lexeme → Q false e → Q true (element name e brackets)
  openElement {t : Token} {name : String} {e : Expr} (issue : Issue) : T t → t.kind = .name →
    name ∈ nameParts scope t.lexeme → Q false e →
    Q true (.invalidPart issue (.element name e))
  byX {b : Bool} {e : Expr} : Q b e → Q b (.derivative e "x")
  byXAt {b : Bool} {e point : Expr} : Q b e → Q b point → Q b (.derivativeAt e "x" point)
  derivative {b : Bool} {t : Token} {e : Expr} : T t → t.kind = .name → Q b e →
    Q b (.derivative e t.lexeme)
  derivativeAt {b : Bool} {t : Token} {e point : Expr} : T t → t.kind = .name → Q b e →
    Q b point → Q b (.derivativeAt e t.lexeme point)

/-- The operands have a property, and no plus sign waits for an operand. -/
structure Holds (P : Expr → Prop) (s : State) : Prop where
  operands : ∀ e ∈ s.operands, P e
  pending : ∀ p ∈ s.pending, p.op ≠ .unary .plus

section

variable {settings : Settings} {scope : Scope} {T : Token → Prop} {Q : Bool → Expr → Prop}
  {b : Bool} {s : State}

/-! ## The stacks -/

/-- Applying an operator keeps the property of the operands. -/
theorem Kept.apply (h : Kept settings scope T Q) {p : Pending} (hp : p.op ≠ .unary .plus)
    {operands : List Expr} (hoperands : ∀ e ∈ operands, Q b e) :
    ∀ e ∈ p.apply settings.negativeNumbers operands, Q b e := by
  cases operands with
  | nil =>
    intro e he
    obtain rfl : e = .invalid p.missing := by simpa [Pending.apply] using he
    exact h.invalid b _
  | cons last operands =>
    have hlast := hoperands last List.mem_cons_self
    have hrest (e : Expr) (he : e ∈ operands) : Q b e := hoperands e (List.mem_cons_of_mem _ he)
    cases hop : p.op with
    | unary op =>
      have hplus : op ≠ .plus := by
        rintro rfl
        exact hp hop
      simp only [Pending.apply, hop]
      split
      · rename_i n hsettings
        intro e he
        rcases List.mem_cons.1 he with rfl | he
        · exact h.negative hsettings hlast
        · exact hrest e he
      · intro e he
        rcases List.mem_cons.1 he with rfl | he
        · exact h.sign hplus hlast
        · exact hrest e he
    | binary op =>
      cases operands with
      | nil =>
        intro e he
        obtain rfl : e = .invalidPart p.missing last := by simpa [Pending.apply, hop] using he
        exact h.invalidPart _ hlast
      | cons first operands =>
        simp only [Pending.apply, hop]
        intro e he
        rcases List.mem_cons.1 he with rfl | he
        · exact h.binary op (hrest first List.mem_cons_self) hlast
        · exact hrest e (List.mem_cons_of_mem _ he)

/-- Applying the operators that wait keeps the property, and leaves no sign waiting. -/
theorem Kept.reduceUntil (h : Kept settings scope T Q) (keep : Pending → Bool)
    {pending : List Pending} {operands : List Expr} (hpending : ∀ p ∈ pending, p.op ≠ .unary .plus)
    (hoperands : ∀ e ∈ operands, Q b e) :
    (∀ p ∈ (reduceUntil settings.negativeNumbers keep pending operands).1, p.op ≠ .unary .plus) ∧
      ∀ e ∈ (reduceUntil settings.negativeNumbers keep pending operands).2, Q b e := by
  induction pending generalizing operands with
  | nil => exact ⟨hpending, hoperands⟩
  | cons p pending ih =>
    rw [State.reduceUntil]
    split
    · exact ⟨hpending, hoperands⟩
    · exact ih (fun q hq => hpending q (List.mem_cons_of_mem _ hq))
        (h.apply (hpending p List.mem_cons_self) hoperands)

theorem Kept.wait (h : Kept settings scope T Q) (hs : Holds (Q b) s) {p : Pending}
    (hp : p.op ≠ .unary .plus) : Holds (Q b) (s.wait settings.negativeNumbers p) := by
  obtain ⟨hpending, hoperands⟩ := h.reduceUntil
    (fun old => p.isUnary || decide (old.precedence < p.precedence)) hs.pending hs.operands
  refine ⟨hoperands, fun q hq => ?_⟩
  rcases List.mem_cons.1 hq with rfl | hq
  · exact hp
  · exact hpending q hq

/-- An operand with the property may be pushed, after a product sign if one is implied. -/
theorem Kept.pushOperand (h : Kept settings scope T Q) (hs : Holds (Q b) s) {e : Expr}
    (he : Q b e) (start : Nat) : Holds (Q b) (s.pushOperand settings.negativeNumbers e start) := by
  have push {s : State} (hs : Holds (Q b) s) :
      Holds (Q b) { s with operands := e :: s.operands, afterOperand := true } := by
    refine ⟨fun f hf => ?_, hs.pending⟩
    rcases List.mem_cons.1 hf with rfl | hf
    · exact he
    · exact hs.operands f hf
  unfold State.pushOperand
  split
  · exact push (h.wait hs (by simp))
  · exact push hs

theorem Holds.note {P : Expr → Prop} (hs : Holds P s) (issue : Issue) : Holds P (s.note issue) :=
  ⟨hs.operands, hs.pending⟩

/-- An operator keeps the property, as a sign and as an operation. -/
theorem Kept.pushOperator (h : Kept settings scope T Q) (hs : Holds (Q b) s) (op : BinaryOp)
    (span : Span) : Holds (Q b) (s.pushOperator settings.negativeNumbers op span) := by
  have waiting {s : State} (hs : Holds (Q b) s) {op : PendingOp} (hop : op ≠ .unary .plus) :
      Holds (Q b) { s.wait settings.negativeNumbers ⟨op, span⟩ with afterOperand := false } :=
    ⟨(h.wait hs hop).operands, (h.wait hs hop).pending⟩
  unfold State.pushOperator
  split
  · exact waiting hs (by simp)
  · split
    · exact waiting hs (by simp)
    · exact waiting hs (by simp)
    · exact waiting (hs.note _) (by simp)

theorem Kept.closeImplicit (h : Kept settings scope T Q) (hs : Holds (Q b) s) :
    Holds (Q b) (s.closeImplicit settings.negativeNumbers) := by
  have hall := h.reduceUntil (fun _ => false) hs.pending hs.operands
  unfold State.closeImplicit
  dsimp only
  split
  · exact ⟨hall.2, by simp [reduceAll]⟩
  · exact ⟨hall.2, by simp [reduceAll]⟩

/-- The expression of a group has the property if all its operands have it. -/
theorem Kept.finish (h : Kept settings scope T Q) (hs : Holds (Q b) s) (outer : Span) :
    Q b (s.finish settings.negativeNumbers outer) := by
  have hall := (h.reduceUntil (fun _ => false) hs.pending hs.operands).2
  unfold State.finish
  dsimp only
  cases heq : (s.reduceAll settings.negativeNumbers).operands with
  | nil =>
    split
    · exact h.invalidPart _ (h.invalid b _)
    · exact h.invalid b _
  | cons e es =>
    have hresult : Q b e := by
      refine hall e ?_
      change e ∈ (s.reduceAll settings.negativeNumbers).operands
      rw [heq]
      exact List.mem_cons_self
    split
    · exact h.invalidPart _ hresult
    · exact hresult

/-! ## Names -/

theorem nameParts_ne_nil (scope : Scope) (name : String) : nameParts scope name ≠ [] := by
  unfold nameParts
  split
  · exact List.cons_ne_nil name []
  · cases hsplit : scope.split? name with
    | none => exact List.cons_ne_nil name []
    | some parts => exact (Scope.cut_of_split? hsplit).ne_nil

/-- All parts of a name but the last one become operands. -/
theorem Kept.pushParts (h : Kept settings scope T Q) {parts : List String} (hne : parts ≠ [])
    (hparts : ∀ part ∈ parts, Q b (.var part)) (hs : Holds (Q b) s) (start : Nat) :
    Holds (Q b) (pushParts settings.negativeNumbers s start parts).1 ∧
      (pushParts settings.negativeNumbers s start parts).2.1 ∈ parts := by
  induction parts generalizing s start with
  | nil => exact absurd rfl hne
  | cons part parts ih =>
    cases parts with
    | nil => exact ⟨hs, List.mem_cons_self⟩
    | cons next parts =>
      rw [Reading.pushParts]
      · obtain ⟨hstate, hmem⟩ := ih (by simp)
          (fun p hp => hparts p (List.mem_cons_of_mem _ hp))
          (h.pushOperand hs (hparts part List.mem_cons_self) start)
          (start + part.utf8ByteSize)
        exact ⟨hstate, List.mem_cons_of_mem _ hmem⟩
      · simp

/-- The tokens have the property, and no opening bracket is among them unless it may be. -/
def Allowed (T : Token → Prop) (b : Bool) (ts : List Token) : Prop :=
  ∀ t ∈ ts, T t ∧ (b = false → t.kind ≠ .openBracket)

theorem Allowed.subset {ts us : List Token} (h : Allowed T b ts) (hsub : ∀ t ∈ us, t ∈ ts) :
    Allowed T b us := fun t ht => h t (hsub t ht)

theorem Allowed.tail {t : Token} {ts : List Token} (h : Allowed T b (t :: ts)) : Allowed T b ts :=
  h.subset fun _ hu => List.mem_cons_of_mem _ hu

theorem Allowed.withoutBrackets {ts : List Token} (h : Allowed T b ts)
    (hnone : ∀ t ∈ ts, t.kind ≠ .openBracket) : Allowed T false ts :=
  fun t ht => ⟨(h t ht).1, fun _ => hnone t ht⟩

theorem Allowed.argument {ts part : List Token} {parts : List (List Token)} {depth : Int}
    (h : Allowed T b ts) (harguments : arguments depth ts = parts) (hpart : part ∈ parts) :
    Allowed T b part := h.subset fun _ ht => mem_of_arguments (harguments ▸ hpart) ht

theorem eq_true_of_bracket {t u : Token} {ts : List Token} (h : Allowed T b (t :: u :: ts))
    (hu : u.kind = .openBracket) : b = true := by
  cases b
  · exact absurd hu ((h u (by simp)).2 rfl)
  · rfl

/-- The last part of a name is handed back as a name that may be called. -/
theorem Kept.name (h : Kept settings scope T Q) {t : Token} {ts : List Token}
    (htokens : Allowed T b (t :: ts)) (hkind : t.kind = .name) {s' : State} {name : String}
    {start : Nat}
    (hparts : Reading.pushParts settings.negativeNumbers s t.span.start
      (nameParts scope t.lexeme) = (s', name, start)) (hs : Holds (Q b) s) :
    Holds (Q b) s' ∧ Q b (.var name) ∧
      ∃ t, T t ∧ t.kind = .name ∧ name ∈ nameParts scope t.lexeme := by
  have ht := (htokens t List.mem_cons_self).1
  have hname := h.pushParts (nameParts_ne_nil scope t.lexeme)
    (fun part hpart => h.var b ht hkind hpart) hs t.span.start
  rw [hparts] at hname
  exact ⟨hname.1, h.var b ht hkind hname.2, t, ht, hkind, hname.2⟩

/-- A derivative operator has the property if its parts have it. -/
theorem Kept.derivativeBy (h : Kept settings scope T Q) {body : Expr} (hbody : Q b body)
    {tokens : List Token} (htokens : Allowed T b tokens) (span : Span) (point : Option Expr)
    (hpoint : ∀ p ∈ point, Q b p) : Q b (derivativeBy body tokens span point) := by
  unfold Reading.derivativeBy
  cases point with
  | none =>
    dsimp only
    split
    · rename_i t
      split
      · rename_i hkind
        exact h.derivative (htokens t List.mem_cons_self).1 hkind hbody
      · exact h.invalidPart _ (h.byX hbody)
    · exact h.invalidPart _ (h.byX hbody)
  | some p =>
    have hp := hpoint p rfl
    dsimp only
    split
    · rename_i t
      split
      · rename_i hkind
        exact h.derivativeAt (htokens t List.mem_cons_self).1 hkind hbody hp
      · exact h.invalidPart _ (h.byXAt hbody hp)
    · exact h.invalidPart _ (h.byXAt hbody hp)

/-! ## The induction over the reader -/

/-- Each step of the reader keeps the property that its operations keep. -/
theorem Kept.steps (h : Kept settings scope T Q) :
    Steps settings scope (fun tokens _ e => ∀ b, Allowed T b tokens → Q b e)
      (fun _ tokens s last => ∀ b, Allowed T b tokens → Holds (Q b) s → Holds (Q b) last)
      (fun name tokens _ e => ∀ b, Allowed T b tokens →
        (∃ t, T t ∧ t.kind = .name ∧ name ∈ nameParts scope t.lexeme) → Q b e) where
  empty _ b _ := h.invalid b _
  group _ inside b htokens :=
    h.finish (inside b (htokens.subset fun _ ht => mem_of_strip ht) ⟨by simp, by simp⟩) _
  nil _ _ _ _ hs := hs
  closeParen _ rest b htokens hs := rest b htokens.tail (h.closeImplicit hs)
  parentheses _ hg inside rest b htokens hs := by
    obtain ⟨hinner, hrest⟩ := mem_of_closing hg
    exact rest b (htokens.tail.subset hrest)
      (h.pushOperand hs (inside b (htokens.tail.subset hinner)) _)
  openParen _ _ inside b htokens hs := h.pushOperand hs (h.invalidPart _ (inside b htokens.tail)) _
  bars _ hg inside rest b htokens hs := by
    obtain ⟨hinner, hrest⟩ := mem_of_closingBar hg
    exact rest b (htokens.tail.subset hrest)
      (h.pushOperand hs (h.absolute (inside b (htokens.tail.subset hinner))) _)
  openBar _ _ inside b htokens hs :=
    h.pushOperand hs (h.absolute (h.invalidPart _ (inside b htokens.tail))) _
  number ht rest b htokens hs :=
    rest b htokens.tail (h.pushOperand hs (h.number b (htokens _ List.mem_cons_self).1 ht) _)
  lastName ht hparts b htokens hs := by
    obtain ⟨hs', hvar, -⟩ := h.name htokens ht hparts hs
    exact h.pushOperand hs' hvar _
  name ht hparts _ _ rest b htokens hs := by
    obtain ⟨hs', hvar, -⟩ := h.name htokens ht hparts hs
    exact rest b htokens.tail (h.pushOperand hs' hvar _)
  call ht hparts _ hg inside rest b htokens hs := by
    obtain ⟨hs', -, hnamed⟩ := h.name htokens ht hparts hs
    obtain ⟨hinner, hrest⟩ := mem_of_closing hg
    exact rest b (htokens.tail.tail.subset hrest)
      (h.pushOperand hs' (inside b (htokens.tail.tail.subset hinner) hnamed) _)
  openCall ht hparts _ _ inside b htokens hs := by
    obtain ⟨hs', -, hnamed⟩ := h.name htokens ht hparts hs
    exact h.pushOperand hs' (h.invalidPart _ (inside b htokens.tail.tail hnamed)) _
  subscript ht hparts hbracket hg hplain inside rest b htokens hs := by
    obtain ⟨hs', -, v, hv, hvkind, hname⟩ := h.name htokens ht hparts hs
    obtain ⟨hinner, hrest⟩ := mem_of_closing hg
    obtain rfl : b = true := eq_true_of_bracket htokens hbracket.2
    have hindex := inside false ((htokens.tail.tail.subset hinner).withoutBrackets hplain)
    exact rest true (htokens.tail.tail.subset hrest)
      (h.pushOperand hs' (h.element _ hv hvkind hname hindex) _)
  nestedSubscript ht hparts _ hg rest b htokens hs := by
    obtain ⟨hs', hvar, -⟩ := h.name htokens ht hparts hs
    exact rest b (htokens.tail.tail.subset (mem_of_closing hg).2)
      (h.pushOperand hs' (h.invalidPart _ hvar) _)
  openSubscript ht hparts hbracket _ hplain inside b htokens hs := by
    obtain ⟨hs', -, v, hv, hvkind, hname⟩ := h.name htokens ht hparts hs
    obtain rfl : b = true := eq_true_of_bracket htokens hbracket.2
    have hindex := inside false (htokens.tail.tail.withoutBrackets hplain)
    exact h.pushOperand hs' (h.openElement _ hv hvkind hname hindex) _
  openNestedSubscript ht hparts _ _ b htokens hs := by
    obtain ⟨hs', hvar, -⟩ := h.name htokens ht hparts hs
    exact h.pushOperand hs' (h.invalidPart _ hvar) _
  operator _ rest b htokens hs := rest b htokens.tail (h.pushOperator hs _ _)
  unrecognized _ rest b htokens hs := rest b htokens.tail (hs.note _)
  derivative harguments inside b htokens _ :=
    h.byX (inside b (htokens.argument harguments (by simp)))
  derivativeByName harguments inside b htokens _ :=
    h.derivativeBy (inside b (htokens.argument harguments (by simp)))
      (htokens.argument harguments (by simp)) _ none nofun
  derivativeAtPoint harguments inside insidePoint b htokens _ := by
    refine h.derivativeBy (inside b (htokens.argument harguments (by simp)))
      (htokens.argument harguments (by simp)) _ _ fun p hp => ?_
    obtain rfl := Option.mem_some_iff.1 hp
    exact insidePoint b (htokens.argument harguments (by simp))
  function hname inside b htokens hnamed := by
    obtain ⟨t, ht, hkind, hpart⟩ := hnamed
    exact h.call ht hkind hpart hname (inside b htokens)

/-- Everything that is read from tokens with a property has the property that the reader keeps. -/
theorem group_kept (h : Kept settings scope T Q) (tokens : List Token) (outer : Span)
    (b : Bool) (htokens : Allowed T b tokens) : Q b (group settings scope tokens outer) :=
  h.steps.reads.1 tokens outer b htokens

end

end Formulary.Reading
