import Formulary.Proofs.Reading.Leaves
import Formulary.Proofs.Reading.Positions

/-!
# Where issues point

An issue points at a region of the source: at a token, at what is between two tokens, at the place
of an operator that is not written, or at what is left of the source in a group that is never
closed. The tokens of a group follow each other inside the region of the group (`Within`), and this
is kept when the reader goes into a group, behind it, or into one of several arguments. So each of
these regions goes forwards, from the start of a token or the end of one to another such place
(`Regular`). A name that is cut into bound names adds the places in between.

What places these are only matters for the source as a whole, where they are those between two
characters (`IsBoundary`).
-/

namespace Formulary

namespace Expr

/-- The issues of an expression, that of a node before those of its parts. -/
def issues (e : Expr) : List Issue := e.nodes.filterMap ownIssue?

theorem issues_eq (e : Expr) : e.issues = e.ownIssue?.toList ++ e.children.flatMap issues := by
  rw [issues, nodes_eq, List.filterMap_cons, List.filterMap_flatMap]
  cases e.ownIssue? <;> rfl

end Expr

namespace Reading

open Formulary.Expr State

/-! ## Regions -/

/-- The region goes forwards from one boundary to another. -/
structure Regular (B : Nat → Prop) (span : Span) : Prop where
  le : span.start ≤ span.stop
  start : B span.start
  stop : B span.stop

/-- The token has a regular region, and it can be cut at boundaries only. -/
structure Placed (B : Nat → Prop) (t : Token) : Prop where
  regular : Regular B t.span
  parts (before after : String) : t.lexeme = before ++ after →
    B (t.span.start + before.utf8ByteSize)

/-- The tokens follow each other inside a region. -/
inductive Within (B : Nat → Prop) : List Token → Span → Prop where
  | nil {span : Span} : Regular B span → Within B [] span
  | cons {t : Token} {ts : List Token} {span : Span} : B span.start →
    span.start ≤ t.span.start → Placed B t → Within B ts ⟨t.span.stop, span.stop⟩ →
    Within B (t :: ts) span

section

variable {B : Nat → Prop} {ts us near : List Token} {t u : Token} {span outer : Span} {n : Nat}
  {opens closes : TokenKind} {g : Enclosed}

theorem regular_empty (h : B n) : Regular B ⟨n, n⟩ := ⟨Nat.le_refl n, h, h⟩

/-- A region and the one behind it make up a region. -/
theorem Regular.trans {stop : Nat} (h : Regular B span) (hnext : Regular B ⟨span.stop, stop⟩) :
    Regular B ⟨span.start, stop⟩ :=
  ⟨h.le.trans hnext.le, h.start, hnext.stop⟩

theorem Within.regular (h : Within B ts span) : Regular B span := by
  induction h with
  | nil h => exact h
  | cons hstart hle ht _ ih =>
    exact ⟨hle.trans (ht.regular.le.trans ih.le), hstart, ih.stop⟩

theorem Within.tail (h : Within B (t :: ts) span) :
    Placed B t ∧ Within B ts ⟨t.span.stop, span.stop⟩ := by
  cases h with
  | cons _ _ ht hts => exact ⟨ht, hts⟩

/-- The region may start earlier. -/
theorem Within.lower (h : Within B ts span) (hn : B n) (hle : n ≤ span.start) :
    Within B ts ⟨n, span.stop⟩ := by
  cases h with
  | nil h => exact .nil ⟨hle.trans h.le, hn, h.stop⟩
  | cons _ hstart ht hts => exact .cons hn (hle.trans hstart) ht hts

/-- The tokens in front of a token are inside the region up to it, those behind it inside what is
left. -/
theorem Within.split (h : Within B (ts ++ u :: us) span) :
    Within B ts ⟨span.start, u.span.start⟩ ∧ Placed B u ∧
      Within B us ⟨u.span.stop, span.stop⟩ := by
  induction ts generalizing span with
  | nil =>
    cases h with
    | cons hstart hle hu hus => exact ⟨.nil ⟨hle, hstart, hu.regular.start⟩, hu, hus⟩
  | cons t ts ih =>
    cases h with
    | cons hstart hle ht hts =>
      obtain ⟨hts, hu, hus⟩ := ih hts
      exact ⟨.cons hstart hle ht hts, hu, hus⟩

/-- The first tokens are inside the region up to the last of them. -/
theorem Within.front (h : Within B (ts ++ us) span) (hlast : ts.getLast? = some u) :
    Within B ts ⟨span.start, u.span.stop⟩ := by
  induction ts generalizing span with
  | nil => cases hlast
  | cons t ts ih =>
    cases h with
    | cons hstart hle ht hts =>
      refine .cons hstart hle ht ?_
      cases ts with
      | nil =>
        obtain rfl : t = u := Option.some.inj hlast
        exact .nil (regular_empty ht.regular.stop)
      | cons v ts =>
        rw [List.getLast?_cons_cons] at hlast
        exact ih hts hlast

/-- Neighbouring tokens are inside the region that they cover. -/
theorem Within.part (h : Within B ts span) (hnear : near <:+: ts) :
    Within B near (spanOf near span) := by
  cases near with
  | nil => exact .nil h.regular
  | cons first rest =>
    obtain ⟨before, after, rfl⟩ := hnear
    obtain ⟨last, hlast⟩ : ∃ last, (first :: rest).getLast? = some last :=
      ⟨_, List.getLast?_eq_some_getLast (List.cons_ne_nil first rest)⟩
    rw [List.append_assoc, List.cons_append] at h
    obtain ⟨-, hfirst, hrest⟩ := h.split
    have hfollowing : Within B (first :: rest ++ after) ⟨first.span.start, span.stop⟩ :=
      .cons hfirst.regular.start (Nat.le_refl _) hfirst hrest
    have hspan : spanOf (first :: rest) span = ⟨first.span.start, last.span.stop⟩ := by
      rw [spanOf, List.head?_cons, hlast]
    rw [hspan]
    exact hfollowing.front hlast

theorem Within.filter (h : Within B ts span) (p : Token → Bool) : Within B (ts.filter p) span := by
  induction h with
  | nil h => exact .nil h
  | @cons t ts span hstart hle ht _ ih =>
    rw [List.filter_cons]
    split
    · exact .cons hstart hle ht ih
    · exact ih.lower hstart (hle.trans ht.regular.le)

/-- What is inside a group is inside the region between its two tokens. -/
theorem Within.enclosed (h : Within B ts span) (hts : ts = g.inner ++ g.close :: g.rest) :
    Within B g.inner ⟨span.start, g.close.span.start⟩ ∧ Placed B g.close ∧
      Within B g.rest ⟨g.close.span.stop, span.stop⟩ := by
  rw [hts] at h
  exact h.split

/-- The region of a subscript goes from its opening bracket to its closing one. -/
theorem Within.subscript (h : Within B (u :: ts) span) (hts : ts = g.inner ++ g.close :: g.rest) :
    Within B g.inner ⟨u.span.stop, g.close.span.start⟩ ∧
      Regular B ⟨u.span.start, g.close.span.stop⟩ ∧
        Within B g.rest ⟨g.close.span.stop, span.stop⟩ := by
  obtain ⟨hu, hafter⟩ := h.tail
  obtain ⟨hinner, hclose, hrest⟩ := hafter.enclosed hts
  have hcontent : Regular B ⟨u.span.stop, g.close.span.stop⟩ :=
    hinner.regular.trans hclose.regular
  exact ⟨hinner, hu.regular.trans hcontent, hrest⟩

/-- An argument is inside the region that it covers. -/
theorem Within.argument {depth : Int} {parts : List (List Token)} (h : Within B ts span)
    (harguments : arguments depth ts = parts) (hnear : near ∈ parts) :
    Within B near (spanOf near span) :=
  h.part (infix_of_mem_arguments (harguments ▸ hnear))

/-- Tokens without the parentheses around them lie within the span that is given for them. -/
theorem Within.strip (h : Within B ts outer) :
    Within B (strip ts outer).1 (strip ts outer).2 := by
  fun_induction Reading.strip ts outer with
  | case1 => exact h
  | case2 outer t ts _ inner close hclosing ih =>
    exact ih (h.tail.2.enclosed (closing_eq_some hclosing).1).1
  | case3 => exact h
  | case4 => exact h

end

/-! ## Expressions -/

/-- All issues of the expression have regular regions. -/
def Points (B : Nat → Prop) (e : Expr) : Prop := ∀ issue ∈ e.issues, Regular B issue.span

section

variable {B : Nat → Prop} {e e' : Expr} {issue : Issue} {name : String}

/-- The issues of an expression are in place if its own is and those of its parts are. -/
theorem points_iff : Points B e ↔ (∀ issue ∈ e.ownIssue?, Regular B issue.span) ∧
    ∀ part ∈ e.children, Points B part := by
  unfold Points
  rw [issues_eq, List.forall_mem_append]
  simp only [Option.mem_toList, List.mem_flatMap, forall_exists_index, and_imp]
  exact and_congr_right fun _ => ⟨fun h part hpart issue hissue => h issue part hpart hissue,
    fun h issue part hpart hissue => h part hpart issue hissue⟩

@[simp] theorem points_number (n : Number) : Points B (.number n) := by
  simp [points_iff (e := .number n), ownIssue?, children]

@[simp] theorem points_var : Points B (.var name) := by
  simp [points_iff (e := .var name), ownIssue?, children]

@[simp] theorem points_element : Points B (.element name e) ↔ Points B e := by
  simp [points_iff (e := .element name e), ownIssue?, children]

@[simp] theorem points_unary (op : UnaryOp) : Points B (.unary op e) ↔ Points B e := by
  simp [points_iff (e := .unary op e), ownIssue?, children]

@[simp] theorem points_binary (op : BinaryOp) :
    Points B (.binary op e e') ↔ Points B e ∧ Points B e' := by
  simp [points_iff (e := .binary op e e'), ownIssue?, children]

@[simp] theorem points_callNamed : Points B (.callNamed name e) ↔ Points B e := by
  simp [callNamed, points_iff (e := .call _ _ e), ownIssue?, children]

@[simp] theorem points_derivative : Points B (.derivative e name) ↔ Points B e := by
  simp [points_iff (e := .derivative e name), ownIssue?, children]

@[simp] theorem points_derivativeAt :
    Points B (.derivativeAt e name e') ↔ Points B e ∧ Points B e' := by
  simp [points_iff (e := .derivativeAt e name e'), ownIssue?, children]

@[simp] theorem points_invalid : Points B (.invalid issue) ↔ Regular B issue.span := by
  simp [points_iff (e := .invalid issue), ownIssue?, children]

@[simp] theorem points_invalidPart :
    Points B (.invalidPart issue e) ↔ Regular B issue.span ∧ Points B e := by
  simp [points_iff (e := .invalidPart issue e), ownIssue?, children]

variable {settings : Settings} {tokens : List Token} {t : Token} {span : Span}

theorem points_literal (ht : Placed B t) : Points B (number settings t) := by
  unfold number
  dsimp only
  split
  · exact points_invalidPart.2 ⟨ht.regular, points_number _⟩
  · exact points_number _

theorem points_unclosed (ht : Placed B t) (close : Char) (he : Points B e) :
    Points B (unclosed t close e) :=
  points_invalidPart.2 ⟨ht.regular, he⟩

theorem points_indexed (he : Points B e) (hspan : Regular B span) :
    Points B (element name e span) := by
  have helement : Points B (.element name e) := points_element.2 he
  unfold element
  dsimp only
  split
  · exact points_invalidPart.2 ⟨hspan, helement⟩
  · exact helement

/-- If there is no name to differentiate by, the issue points at the tokens in its place. -/
theorem points_derivativeBy (he : Points B e) {point : Option Expr}
    (hpoint : ∀ e ∈ point, Points B e) (htokens : Within B tokens (spanOf tokens span)) :
    Points B (derivativeBy e tokens span point) := by
  have issued {body : Expr} (hbody : Points B body) :
      Points B (.invalidPart ⟨spanOf tokens span, .derivativeVariable⟩ body) :=
    points_invalidPart.2 ⟨htokens.regular, hbody⟩
  unfold derivativeBy
  cases point with
  | none =>
    have hderivative (name : String) : Points B (.derivative e name) := points_derivative.2 he
    dsimp only
    split
    · split
      · exact hderivative _
      · exact issued (hderivative _)
    · exact issued (hderivative _)
  | some e' =>
    have hderivative (name : String) : Points B (.derivativeAt e name e') :=
      points_derivativeAt.2 ⟨he, hpoint e' rfl⟩
    dsimp only
    split
    · split
      · exact hderivative _
      · exact issued (hderivative _)
    · exact issued (hderivative _)

end

/-! ## Operands and pending operators -/

/-- Whatever the operands, the waiting operators and the group point at has a regular region. -/
structure Tidy (B : Nat → Prop) (s : State) : Prop where
  operands : ∀ e ∈ s.operands, Points B e
  pending : ∀ p ∈ s.pending, Regular B p.span
  issue : ∀ issue ∈ s.issue, Regular B issue.span

section

variable {B : Nat → Prop} {negativeNumbers : Bool} {s s' : State} {p : Pending}
  {pending : List Pending} {operands : List Expr} {e : Expr} {start : Nat} {span outer : Span}
  {issue : Issue}

theorem tidy_empty : Tidy B {} :=
  ⟨List.forall_mem_nil _, List.forall_mem_nil _, nofun⟩

/-- The issues after an operator is applied lie at the operator or in the operands. -/
theorem points_apply (hp : Regular B p.span) (h : ∀ e ∈ operands, Points B e) :
    ∀ e ∈ p.apply negativeNumbers operands, Points B e := by
  cases operands with
  | nil => exact List.forall_mem_singleton.2 (points_invalid.2 hp)
  | cons last operands =>
    obtain ⟨hlast, hrest⟩ := List.forall_mem_cons.1 h
    cases hop : p.op with
    | unary op =>
      simp only [Pending.apply, hop]
      split
      · exact List.forall_mem_cons.2 ⟨points_number _, hrest⟩
      · exact List.forall_mem_cons.2 ⟨(points_unary _).2 hlast, hrest⟩
    | binary op =>
      cases operands with
      | nil =>
        simp only [Pending.apply, hop]
        exact List.forall_mem_singleton.2 (points_invalidPart.2 ⟨hp, hlast⟩)
      | cons first operands =>
        obtain ⟨hfirst, hrest⟩ := List.forall_mem_cons.1 hrest
        simp only [Pending.apply, hop]
        exact List.forall_mem_cons.2 ⟨(points_binary op).2 ⟨hfirst, hlast⟩, hrest⟩

theorem points_reduceUntil (negativeNumbers : Bool) (keep : Pending → Bool)
    (hpending : ∀ p ∈ pending, Regular B p.span) (hoperands : ∀ e ∈ operands, Points B e) :
    (∀ p ∈ (reduceUntil negativeNumbers keep pending operands).1, Regular B p.span) ∧
      ∀ e ∈ (reduceUntil negativeNumbers keep pending operands).2, Points B e := by
  induction pending generalizing operands with
  | nil => exact ⟨hpending, hoperands⟩
  | cons p pending ih =>
    rw [reduceUntil]
    split
    · exact ⟨hpending, hoperands⟩
    · obtain ⟨hp, hrest⟩ := List.forall_mem_cons.1 hpending
      exact ih hrest (points_apply hp hoperands)

theorem Tidy.reduceAll (h : Tidy B s) (negativeNumbers : Bool) :
    Tidy B (s.reduceAll negativeNumbers) :=
  ⟨(points_reduceUntil _ _ h.pending h.operands).2, List.forall_mem_nil _, h.issue⟩

theorem Tidy.wait (h : Tidy B s) (negativeNumbers : Bool) (hp : Regular B p.span) :
    Tidy B (s.wait negativeNumbers p) := by
  obtain ⟨hpending, hoperands⟩ := points_reduceUntil negativeNumbers
    (fun old => p.isUnary || decide (old.precedence < p.precedence)) h.pending h.operands
  exact ⟨hoperands, List.forall_mem_cons.2 ⟨hp, hpending⟩, h.issue⟩

/-- Pushing an operand keeps a state tidy if its issues are in place. -/
theorem Tidy.pushOperand (h : Tidy B s) (he : Points B e) (hstart : B start) :
    Tidy B (s.pushOperand negativeNumbers e start) := by
  have push {s : State} (h : Tidy B s) :
      Tidy B { s with operands := e :: s.operands, afterOperand := true } :=
    ⟨List.forall_mem_cons.2 ⟨he, h.operands⟩, h.pending, h.issue⟩
  unfold State.pushOperand
  split
  · exact push (h.wait negativeNumbers (regular_empty hstart))
  · exact push h

theorem Tidy.note (h : Tidy B s) (hissue : Regular B issue.span) : Tidy B (s.note issue) := by
  refine ⟨h.operands, h.pending, fun other hother => ?_⟩
  rcases Option.or_eq_some_iff.1 hother with hbefore | ⟨-, hnew⟩
  · exact h.issue other hbefore
  · obtain rfl := Option.some.inj hnew
    exact hissue

theorem Tidy.pushOperator (h : Tidy B s) (op : BinaryOp) (hspan : Regular B span) :
    Tidy B (s.pushOperator negativeNumbers op span) := by
  have waiting {s : State} (h : Tidy B s) (op : PendingOp) :
      Tidy B { s.wait negativeNumbers ⟨op, span⟩ with afterOperand := false } := by
    have hwait : Tidy B (s.wait negativeNumbers ⟨op, span⟩) := h.wait negativeNumbers hspan
    exact ⟨hwait.operands, hwait.pending, hwait.issue⟩
  unfold State.pushOperator
  split
  · exact waiting h _
  · split
    · exact waiting h _
    · exact waiting h _
    · exact waiting (h.note hspan) _

theorem Tidy.closeImplicit (h : Tidy B s) : Tidy B (s.closeImplicit negativeNumbers) := by
  have hreduced := h.reduceAll negativeNumbers
  unfold State.closeImplicit
  dsimp only
  split
  · exact hreduced
  · exact ⟨hreduced.operands, hreduced.pending, hreduced.issue⟩

/-- The expression of a tidy state has its issues in place. -/
theorem Tidy.finish (h : Tidy B s) (houter : Regular B outer) :
    Points B (s.finish negativeNumbers outer) := by
  have hreduced := (h.reduceAll negativeNumbers).operands
  unfold State.finish
  dsimp only
  cases heq : (s.reduceAll negativeNumbers).operands with
  | nil =>
    split
    · rename_i issue hissue
      exact points_invalidPart.2 ⟨h.issue issue hissue, points_invalid.2 houter⟩
    · exact points_invalid.2 houter
  | cons e es =>
    rw [heq] at hreduced
    have he : Points B e := hreduced e List.mem_cons_self
    split
    · rename_i issue hissue
      exact points_invalidPart.2 ⟨h.issue issue hissue, he⟩
    · exact he

/-! ## Names -/

/-- The parts of a name are a name split up, without a character lost. -/
theorem join_nameParts (scope : Scope) (name : String) :
    String.join (nameParts scope name) = name := by
  have hsingle : String.join [name] = name := by
    rw [String.join_cons, String.join_nil, String.append_empty]
  unfold nameParts
  split
  · exact hsingle
  · cases hsplit : scope.split? name with
    | none => exact hsingle
    | some parts => exact (Scope.cut_of_split? hsplit).join

/-- The parts of a name start at boundaries if the name can only be cut there. -/
theorem Tidy.pushParts (h : Tidy B s) (negativeNumbers : Bool) {start : Nat} (parts : List String)
    (hcuts : ∀ before after, String.join parts = before ++ after →
      B (start + before.utf8ByteSize)) :
    Tidy B (pushParts negativeNumbers s start parts).1 ∧
      B (pushParts negativeNumbers s start parts).2.2 := by
  have hstart : B start := hcuts "" (String.join parts) (String.empty_append).symm
  induction parts generalizing s start with
  | nil => exact ⟨h, hstart⟩
  | cons part parts ih =>
    cases parts with
    | nil => exact ⟨h, hstart⟩
    | cons next parts =>
      have hrest (before after : String) (hjoin : String.join (next :: parts) = before ++ after) :
          B (start + part.utf8ByteSize + before.utf8ByteSize) := by
        rw [Nat.add_assoc, ← String.utf8ByteSize_append]
        apply hcuts (part ++ before) after
        rw [String.join_cons, hjoin, String.append_assoc]
      rw [Reading.pushParts]
      · exact ih (h.pushOperand points_var hstart) hrest
          (hrest "" _ (String.empty_append).symm)
      · exact List.cons_ne_nil next parts

/-- Pushing the parts of a name keeps a state tidy, and the last part begins at a boundary. -/
theorem Tidy.name {scope : Scope} {t : Token} {name : String} (h : Tidy B s) (ht : Placed B t)
    (hparts : Reading.pushParts negativeNumbers s t.span.start (nameParts scope t.lexeme) =
      (s', name, start)) : Tidy B s' ∧ B start := by
  have hcuts (before after : String)
      (hjoin : String.join (nameParts scope t.lexeme) = before ++ after) :
      B (t.span.start + before.utf8ByteSize) := by
    rw [join_nameParts] at hjoin
    exact ht.parts before after hjoin
  have hname := h.pushParts negativeNumbers (nameParts scope t.lexeme) hcuts
  rwa [hparts] at hname

end

/-! ## The induction over the reader -/

/-- Each step of the reader takes its regions from the tokens. While the elements are read, the
region begins behind the last token and ends where it did. -/
theorem steps_points (B : Nat → Prop) (settings : Settings) (scope : Scope) :
    Steps settings scope (fun tokens outer e => Within B tokens outer → Points B e)
      (fun outer tokens s last => ∀ start, Within B tokens ⟨start, outer.stop⟩ → Tidy B s →
        Tidy B last)
      (fun _ tokens span e => Within B tokens span → Points B e) where
  empty _ h := points_invalid.2 h.strip.regular
  group _ inside h := (inside _ h.strip tidy_empty).finish h.strip.regular
  nil _ _ _ _ hs := hs
  closeParen _ rest _ h hs := rest _ h.tail.2 hs.closeImplicit
  parentheses _ hg inside rest _ h hs := by
    obtain ⟨ht, hts⟩ := h.tail
    obtain ⟨hinner, -, hrest⟩ := hts.enclosed (closing_eq_some hg).1
    exact rest _ hrest (hs.pushOperand (inside hinner) ht.regular.start)
  openParen _ _ inside _ h hs := by
    obtain ⟨ht, hts⟩ := h.tail
    exact hs.pushOperand (points_unclosed ht _ (inside hts)) ht.regular.start
  bars _ hg inside rest _ h hs := by
    obtain ⟨ht, hts⟩ := h.tail
    obtain ⟨hinner, -, hrest⟩ := hts.enclosed (closingBar_eq_some hg).1
    exact rest _ hrest (hs.pushOperand (points_callNamed.2 (inside hinner)) ht.regular.start)
  openBar _ _ inside _ h hs := by
    obtain ⟨ht, hts⟩ := h.tail
    exact hs.pushOperand (points_callNamed.2 (points_unclosed ht _ (inside hts))) ht.regular.start
  number _ rest _ h hs := by
    obtain ⟨ht, hts⟩ := h.tail
    exact rest _ hts (hs.pushOperand (points_literal ht) ht.regular.start)
  lastName _ hparts _ h hs := by
    obtain ⟨hs', hoffset⟩ := hs.name h.tail.1 hparts
    exact hs'.pushOperand points_var hoffset
  name _ hparts _ _ rest _ h hs := by
    obtain ⟨hs', hoffset⟩ := hs.name h.tail.1 hparts
    exact rest _ h.tail.2 (hs'.pushOperand points_var hoffset)
  call _ hparts _ hg inside rest _ h hs := by
    obtain ⟨hs', hoffset⟩ := hs.name h.tail.1 hparts
    obtain ⟨hinner, -, hrest⟩ := h.tail.2.tail.2.enclosed (closing_eq_some hg).1
    exact rest _ hrest (hs'.pushOperand (inside hinner) hoffset)
  openCall _ hparts _ _ inside _ h hs := by
    obtain ⟨hs', hoffset⟩ := hs.name h.tail.1 hparts
    obtain ⟨hu, hts⟩ := h.tail.2.tail
    exact hs'.pushOperand (points_unclosed hu _ (inside hts)) hoffset
  subscript _ hparts _ hg _ inside rest _ h hs := by
    obtain ⟨hs', hoffset⟩ := hs.name h.tail.1 hparts
    obtain ⟨hinner, hbrackets, hrest⟩ := h.tail.2.subscript (closing_eq_some hg).1
    exact rest _ hrest (hs'.pushOperand (points_indexed (inside hinner) hbrackets) hoffset)
  nestedSubscript _ hparts _ hg rest _ h hs := by
    obtain ⟨hs', hoffset⟩ := hs.name h.tail.1 hparts
    obtain ⟨-, hbrackets, hrest⟩ := h.tail.2.subscript (closing_eq_some hg).1
    exact rest _ hrest (hs'.pushOperand (points_invalidPart.2 ⟨hbrackets, points_var⟩) hoffset)
  openSubscript _ hparts _ _ _ inside _ h hs := by
    obtain ⟨hs', hoffset⟩ := hs.name h.tail.1 hparts
    obtain ⟨hu, hts⟩ := h.tail.2.tail
    exact hs'.pushOperand (points_unclosed hu _ (points_element.2 (inside hts))) hoffset
  openNestedSubscript _ hparts _ _ _ h hs := by
    obtain ⟨hs', hoffset⟩ := hs.name h.tail.1 hparts
    obtain ⟨hu, hts⟩ := h.tail.2.tail
    exact hs'.pushOperand
      (points_invalidPart.2 ⟨hu.regular.trans hts.regular, points_var⟩) hoffset
  operator _ rest _ h hs := by
    obtain ⟨ht, hts⟩ := h.tail
    exact rest _ hts (hs.pushOperator _ ht.regular)
  unrecognized _ rest _ h hs := by
    obtain ⟨ht, hts⟩ := h.tail
    exact rest _ hts (hs.note ht.regular)
  derivative harguments inside h :=
    points_derivative.2 (inside (h.argument harguments (by simp)))
  derivativeByName harguments inside h :=
    points_derivativeBy (inside (h.argument harguments (by simp))) nofun
      (h.argument harguments (by simp))
  derivativeAtPoint harguments inside insidePoint h := by
    refine points_derivativeBy (inside (h.argument harguments (by simp))) (fun e he => ?_)
      (h.argument harguments (by simp))
    obtain rfl := Option.mem_some_iff.1 he
    exact insidePoint (h.argument harguments (by simp))
  function _ inside h := points_callNamed.2 (inside h)

/-- The issues of what is read from tokens inside a region have regular regions. -/
theorem group_points {B : Nat → Prop} (settings : Settings) (scope : Scope) (tokens : List Token)
    (outer : Span) (h : Within B tokens outer) :
    Points B (group settings scope tokens outer) :=
  (steps_points B settings scope).reads.1 tokens outer h

/-! ## The source -/

/-- The offset is one between two characters of a text, or one of its ends. -/
def IsBoundary (source : String) (n : Nat) : Prop := String.Pos.Raw.IsValid source ⟨n⟩

theorem isBoundary_append (before after : String) :
    IsBoundary (before ++ after) before.utf8ByteSize :=
  String.Pos.Raw.isValid_iff_exists_append.2 ⟨before, after, rfl, rfl⟩

theorem IsBoundary.le {source : String} {n : Nat} (h : IsBoundary source n) :
    n ≤ source.utf8ByteSize := h.le_rawEndPos

/-- The tokens of the rest of a source are inside the rest of its region. -/
theorem within_scanFrom {source : String} (cs : List Char) (before : String)
    (hsource : source = before ++ String.ofList cs) :
    Within (IsBoundary source) (Token.scanFrom before.utf8ByteSize cs)
      ⟨before.utf8ByteSize, source.utf8ByteSize⟩ := by
  generalize hstart : before.utf8ByteSize = start
  fun_induction Token.scanFrom start cs generalizing before with
  | case1 start =>
    have hall : source = before := by rw [hsource, String.ofList_nil, String.append_empty]
    have hboundary := isBoundary_append before ""
    rw [String.append_empty, ← hall] at hboundary
    rw [← hstart, ← hall]
    exact .nil (regular_empty hboundary)
  | case2 start c cs kind more _ lexeme stop ih =>
    have hcut : source = before ++ (lexeme ++ String.ofList (cs.drop more)) := by
      rw [hsource, ← String.ofList_append, List.cons_append, List.take_append_drop]
    have hstop : (before ++ lexeme).utf8ByteSize = stop := by
      rw [String.utf8ByteSize_append, hstart]
    have hparts (front back : String) (hlexeme : lexeme = front ++ back) :
        IsBoundary source (start + front.utf8ByteSize) := by
      rw [← hstart, ← String.utf8ByteSize_append, hcut, hlexeme, String.append_assoc,
        ← String.append_assoc]
      exact isBoundary_append _ _
    have hbegin : IsBoundary source start := hparts "" lexeme (String.empty_append).symm
    have hend : IsBoundary source stop := hparts lexeme "" (String.append_empty).symm
    refine .cons hbegin (Nat.le_refl _) ⟨⟨Nat.le_add_right _ _, hbegin, hend⟩, hparts⟩ ?_
    exact ih (before ++ lexeme) (by rw [hcut, String.append_assoc]) hstop

/-- Reading never looks for a token, a slice or a part of a name that is not there, and it never
counts down from zero. The issues of what is read point at regions of the source that go forwards
and do not cut a character. -/
theorem read_safe (settings : Settings) (scope : Scope) (source : String) :
    readAt settings scope source = .ok (read settings scope source) ∧
      ∀ issue ∈ (read settings scope source).issues,
        issue.span.start ≤ issue.span.stop ∧ issue.span.stop ≤ source.utf8ByteSize ∧
          IsBoundary source issue.span.start ∧ IsBoundary source issue.span.stop := by
  refine ⟨readAt_eq settings scope source, fun issue hissue => ?_⟩
  have hscan : Within (IsBoundary source) (Token.scan source) ⟨0, source.utf8ByteSize⟩ :=
    within_scanFrom source.toList "" (by rw [String.empty_append, String.ofList_toList])
  have hregular := group_points settings scope _ _ (hscan.filter (·.kind != .blank)) issue hissue
  exact ⟨hregular.le, hregular.stop.le, hregular.start, hregular.stop⟩

/-- The first character has two bytes, and the group behind it is never closed. -/
example : ((read {} [] "é(*").issues.map fun issue => (issue.span.start, issue.span.stop)) =
    [(0, 2), (2, 3), (3, 4), (3, 4)] := by
  decide +kernel

end Reading

end Formulary
