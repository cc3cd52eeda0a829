import Formulary.Proofs.Reading.Stacks

/-!
# What a segment is worth

`Spells` relates an expression to the segment that its text leaves on the stacks: reducing all of
the segment gives the expression back, up to rearranged signs, and reducing it before a power gives
the base of that power. The signs that wait right below the text belong to the segment, since the
first operator of the text may take them.

The lemmas follow the expression: an operand, a negative literal, an operation with one operand and
an operation with two. The last one has two cases, since only a power leaves signs waiting.
-/

namespace Formulary.Reading

open Formulary.Expr State

/-! ## Waiting signs -/

/-- The operator is a sign that binds no more tightly than a level. -/
def IsSign (level : Precedence) (p : Pending) : Prop :=
  ∃ op, p.op = .unary op ∧ op ≠ .plus ∧ op.precedence ≤ level

/-- The expression under waiting signs, of which the first one is the innermost. -/
def wrap : List Pending → Expr → Expr
  | [], e => e
  | p :: signs, e =>
    wrap signs (match p.op with
      | .unary op => .unary op e
      | .binary _ => e)

/-- The first of the waiting signs is the innermost one. -/
theorem wrap_cons {p : Pending} {op : UnaryOp} (hp : p.op = .unary op) (signs : List Pending)
    (e : Expr) : wrap (p :: signs) e = wrap signs (.unary op e) := by
  rw [wrap, hp]

theorem rearranged_wrap {a b : Expr} (h : Rearranged a b) (signs : List Pending) :
    Rearranged (wrap signs a) (wrap signs b) := by
  induction signs generalizing a b with
  | nil => exact h
  | cons p signs ih =>
    refine ih ?_
    cases p.op with
    | unary op => exact .unary op h
    | binary op => exact h

/-- Minus signs before a product or a quotient go to its first operand. -/
theorem rearranged_wrap_product {op : BinaryOp} (hop : op = .mul ∨ op = .div) {signs : List Pending}
    (hsigns : ∀ p ∈ signs, p.op = .unary .neg) (a b : Expr) :
    Rearranged (wrap signs (.binary op a b)) (.binary op (wrap signs a) b) := by
  induction signs generalizing a with
  | nil => exact .refl _
  | cons p signs ih =>
    have hp := hsigns p List.mem_cons_self
    rw [wrap_cons hp, wrap_cons hp]
    refine .trans (rearranged_wrap ?_ signs)
      (ih (fun q hq => hsigns q (List.mem_cons_of_mem _ hq)) (.unary .neg a))
    rcases hop with rfl | rfl
    · exact .negProduct a b
    · exact .negQuotient a b

/-- Waiting signs are applied to an operand. -/
theorem settle_signs {signs : List Pending} (hsigns : ∀ p ∈ signs, ∃ op, p.op = .unary op)
    {e t : Expr} (he : Proper e) (ht : settle signs [e] = ([], [t])) :
    Rearranged (wrap signs e) t := by
  induction signs generalizing e with
  | nil =>
    obtain rfl : e = t := by simpa [settle, reduceUntil] using ht
    exact .refl _
  | cons p signs ih =>
    obtain ⟨op, hop⟩ := hsigns p List.mem_cons_self
    obtain ⟨e', happly, he', -, hmoved⟩ := apply_sign hop he
    have hstep : settle (p :: signs) [e] = settle signs [e'] := by
      rw [settle, reduceUntil, happly]
      rfl
    rw [hstep] at ht
    rw [wrap_cons hop]
    exact .trans (rearranged_wrap hmoved signs)
      (ih (fun q hq => hsigns q (List.mem_cons_of_mem _ hq)) he' ht)

theorem binaries_signs {signs : List Pending} (hsigns : ∀ p ∈ signs, ∃ op, p.op = .unary op) :
    binaries signs = 0 := by
  refine List.countP_eq_zero.2 fun p hp => ?_
  obtain ⟨op, hop⟩ := hsigns p hp
  simp [Pending.isUnary, hop]

/-! ## Spelling -/

/-- An operator goes on waiting when a power comes. -/
def waitsForPower (p : Pending) : Bool := decide (p.precedence < .power)

/-- The operand `x` is the base of the exponents that follow: with them it settles to what is read
in front of them. -/
def TakesPowers (signs : List Pending) (read : List Expr → Expr) (kept : List Pending) (x : Expr)
    (others : List Expr) : Prop :=
  ∀ es ys t, List.Forall₂ Rearranged es ys → (∀ y ∈ ys, Proper y) →
    settle kept (powers x ys :: others) = ([], [t]) → Rearranged (wrap signs (read es)) t

/-- The segment that the text of an expression leaves above waiting signs; `read` is the tree that
it is read as, with the exponents that follow. The text binds at least at a level, and `exposed`
says that it ends in a negative literal. -/
structure Spells (signs : List Pending) (level : Precedence) (exposed : Bool) (e : Expr)
    (read : List Expr → Expr) (pending : List Pending) (operands : List Expr) : Prop where
  segment : Segment pending operands e.occurrences
  tight : ∀ p ∈ pending, level ≤ p.precedence ∨ .factor ≤ p.precedence
  whole : ∀ t, settle pending operands = ([], [t]) → Rearranged (wrap signs (read [])) t
  base : .power ≤ level → ∃ kept x others,
    reduceUntil true waitsForPower pending operands = (kept, x :: others) ∧
      TakesPowers signs read kept x others ∧ (exposed = true → kept ≠ []) ∧
      (level = .application → exposed = false → kept = signs)

section

variable {signs : List Pending} {level : Precedence} {e t : Expr}

theorem IsSign.unary {p : Pending} (h : IsSign level p) : ∃ op, p.op = .unary op := by
  obtain ⟨op, hop, -, -⟩ := h
  exact ⟨op, hop⟩

theorem precedence_of_unary {p : Pending} (h : ∃ op, p.op = .unary op) :
    p.precedence = .factor := by
  obtain ⟨op, hop⟩ := h
  simp [Pending.precedence, hop]

theorem reduceUntil_signs {signs : List Pending} (hsigns : ∀ p ∈ signs, ∃ op, p.op = .unary op)
    (operands : List Expr) :
    reduceUntil true waitsForPower signs operands = (signs, operands) := by
  refine reduceUntil_of_keep (fun p hp => ?_) operands
  rw [waitsForPower, precedence_of_unary (hsigns p (List.mem_of_mem_head? hp))]
  rfl

theorem proper_powers {x : Expr} (hx : Proper x) {ys : List Expr} (hys : ∀ y ∈ ys, Proper y) :
    Proper (powers x ys) := by
  induction ys generalizing x with
  | nil => exact hx
  | cons y ys ih =>
    obtain ⟨hy, hys⟩ := List.forall_mem_cons.1 hys
    exact ih ⟨by simp [hx.noIssue, hy.noIssue], by simp⟩ hys

/-- Settling without exponents. -/
theorem TakesPowers.whole {read : List Expr → Expr} {pending kept : List Pending}
    {operands others : List Expr} {x : Expr} (h : TakesPowers signs read kept x others)
    (hreduce : reduceUntil true waitsForPower pending operands = (kept, x :: others))
    (ht : settle pending operands = ([], [t])) : Rearranged (wrap signs (read [])) t := by
  have hsettle := settle_reduceUntil waitsForPower pending operands
  rw [hreduce, ht] at hsettle
  exact h [] [] t .nil (by simp) hsettle

/-- An operand: the signs below it go on waiting. -/
theorem spells_operand (hsigns : ∀ p ∈ signs, IsSign .application p) (ht : Proper t)
    (hnames : t.occurrences = e.occurrences) {u : Expr} (hmoved : Rearranged u t) :
    Spells signs .application false e (powers u) signs [t] := by
  have hunary : ∀ p ∈ signs, ∃ op, p.op = .unary op := fun p hp => (hsigns p hp).unary
  have htakes : TakesPowers signs (powers u) signs t [] := by
    intro es ys t' hes hys ht'
    exact .trans (rearranged_wrap (rearranged_powers hmoved hes) signs)
      (settle_signs hunary (proper_powers ht hys) ht')
  have hreduce := reduceUntil_signs hunary [t]
  refine ⟨⟨by simp [binaries_signs hunary], by simpa using ht, by simpa using hnames⟩, ?_,
    fun t' ht' => htakes.whole hreduce ht',
    fun _ => ⟨signs, t, [], hreduce, htakes, by simp, by simp⟩⟩
  intro p hp
  rw [precedence_of_unary (hunary p hp)]
  exact .inr (Nat.le_refl _)

theorem regrouped_nonneg {k : Int} (hk : k.natAbs < literalBound) (hnonneg : 0 ≤ k) :
    (Expr.ofInt k).regrouped = powers (.ofInt k) := by
  have hbound : k.natAbs < 2 ^ 53 := by unfold literalBound at hk; omega
  funext es
  rw [Expr.ofInt, regrouped, Number.isNegative_ofInt hbound, decide_eq_false (by omega)]
  rfl

theorem regrouped_negative {k : Int} (hk : k.natAbs < literalBound) (hneg : k < 0) {es : List Expr}
    (hes : es ≠ []) :
    (Expr.ofInt k).regrouped es = .unary .neg (powers (.ofInt (-k)) es) := by
  have hbound : k.natAbs < 2 ^ 53 := by unfold literalBound at hk; omega
  rw [Expr.ofInt, regrouped, Number.isNegative_ofInt hbound, neg_ofInt hk]
  simp [hneg, hes, Expr.ofInt]

/-- A negative literal: its minus sign waits above the other signs, and exponents go below it. -/
theorem spells_negative (hsigns : ∀ p ∈ signs, IsSign .application p) {p : Pending}
    (hp : p.op = .unary .neg) {k : Int} (hk : k.natAbs < literalBound) (hneg : k < 0) :
    Spells signs .application true (.ofInt k) (Expr.ofInt k).regrouped (p :: signs)
      [.ofInt (-k)] := by
  have hbelow : ∀ q ∈ signs, ∃ op, q.op = .unary op := fun q hq => (hsigns q hq).unary
  have hunary : ∀ q ∈ p :: signs, ∃ op, q.op = .unary op := by
    intro q hq
    rcases List.mem_cons.1 hq with rfl | hq
    · exact ⟨_, hp⟩
    · exact hbelow q hq
  have hdigits : (-k).natAbs < literalBound := by simpa using hk
  have htakes : TakesPowers signs (Expr.ofInt k).regrouped (p :: signs) (.ofInt (-k)) [] := by
    intro es ys t hes hys ht
    cases hes with
    | nil =>
      -- Without exponents the minus sign becomes part of the literal.
      have happly : p.apply true [.ofInt (-k)] = [.ofInt k] := by
        simp only [Pending.apply, hp, Expr.ofInt]
        rw [neg_ofInt hdigits, neg_neg]
      have hstep : settle (p :: signs) [.ofInt (-k)] = settle signs [.ofInt k] := by
        rw [settle, reduceUntil, happly]
        rfl
      have hself : (Expr.ofInt k).regrouped [] = .ofInt k := by simp [Expr.ofInt, regrouped, powers]
      rw [powers, List.foldl_nil, hstep] at ht
      rw [hself]
      exact settle_signs hbelow (proper_ofInt hk) ht
    | @cons e y es ys he hes =>
      have hall : List.Forall₂ Rearranged (e :: es) (y :: ys) := .cons he hes
      have hsettled := settle_signs hunary (proper_powers (proper_ofInt hdigits) hys) ht
      rw [wrap_cons hp] at hsettled
      rw [regrouped_negative hk hneg (by simp)]
      exact .trans (rearranged_wrap (.unary .neg (rearranged_powers (.refl _) hall)) signs) hsettled
  have hreduce := reduceUntil_signs hunary [.ofInt (-k)]
  refine ⟨⟨by simp [binaries_signs hunary], by simpa using proper_ofInt hdigits, rfl⟩, ?_,
    fun t ht => htakes.whole hreduce ht,
    fun _ => ⟨p :: signs, .ofInt (-k), [], hreduce, htakes, by simp, by simp⟩⟩
  intro q hq
  rw [precedence_of_unary (hunary q hq)]
  exact .inr (Nat.le_refl _)

/-- An operation with one operand: its operator is one more sign below the operand. -/
theorem spells_unary {p : Pending} {op : UnaryOp} (hp : p.op = .unary op) {exposed : Bool}
    {read : List Expr → Expr} {pending : List Pending} {operands : List Expr}
    (hlevel : op.precedence ≤ level)
    (h : Spells (p :: signs) level exposed e read pending operands) :
    Spells signs op.precedence exposed (.unary op e) (fun es => .unary op (read es)) pending
      operands := by
  have hwrap (a : Expr) : wrap (p :: signs) a = wrap signs (.unary op a) := wrap_cons hp signs a
  refine ⟨h.segment, fun q hq => .inr ?_, fun t ht => ?_, fun hpower => ?_⟩
  · have hfactor : Precedence.factor ≤ op.precedence := by cases op <;> decide
    rcases h.tight q hq with htight | htight
    · exact Nat.le_trans hfactor (Nat.le_trans hlevel htight)
    · exact htight
  · rw [← hwrap]
    exact h.whole t ht
  · obtain ⟨kept, x, others, hreduce, htakes, hexposed, -⟩ := h.base (Nat.le_trans hpower hlevel)
    refine ⟨kept, x, others, hreduce, fun es ys t hes hys ht => ?_, hexposed, ?_⟩
    · rw [← hwrap]
      exact htakes es ys t hes hys ht
    · cases op <;> simp [UnaryOp.precedence]

/-- An operator that binds at most as tightly as a product takes all of the segment of its left
operand, and the signs below it. -/
theorem spells_binary {q : Pending} {op : BinaryOp} (hq : q.op = .binary op)
    (hop : op.precedence ≤ .factor) (hsigns : ∀ p ∈ signs, IsSign op.precedence p)
    {l r : Expr} {leftLevel rightLevel : Precedence} {leftExposed rightExposed : Bool}
    {leftRead rightRead : List Expr → Expr}
    {leftPending rightPending : List Pending} {leftOperands rightOperands : List Expr}
    (hl : Spells signs leftLevel leftExposed l leftRead leftPending leftOperands)
    (hr : Spells [] rightLevel rightExposed r rightRead rightPending rightOperands)
    (hright : op.precedence < rightLevel) (ht : settle leftPending leftOperands = ([], [t]))
    (exposed : Bool) :
    Spells signs op.precedence exposed (.binary op l r)
      (powers (.binary op (leftRead []) (rightRead []))) (rightPending ++ [q])
      (rightOperands ++ [t]) := by
  obtain ⟨t', ht', hproper, hnames⟩ := hl.segment.settle
  obtain rfl : t' = t := by simpa [ht'] using ht
  obtain ⟨u, hu, -, -⟩ := hr.segment.settle
  refine ⟨⟨?_, ?_, ?_⟩, fun p hp => ?_, fun t ht => ?_, fun hpower => ?_⟩
  · have henough := hr.segment.enough
    simp only [binaries, List.length_append, List.countP_append] at *
    simp [henough, Pending.isUnary, hq]
  · intro f hf
    rcases List.mem_append.1 hf with hf | hf
    · exact hr.segment.proper f hf
    · rw [List.mem_singleton.1 hf]
      exact hproper
  · rw [List.reverse_append, List.flatMap_append, hr.segment.names]
    simp [occurrences, hnames]
  · rcases List.mem_append.1 hp with hp | hp
    · rcases hr.tight p hp with htight | htight
      · exact .inl (Nat.le_trans (Nat.le_of_lt hright) htight)
      · exact .inr htight
    · rw [List.mem_singleton.1 hp]
      simp [Pending.precedence, hq]
      exact .inl (Nat.le_refl _)
  · rw [hr.segment.settle_append, hu] at ht
    have happly : settle [q] ([u] ++ [t']) = ([], [.binary op t' u]) := by
      simp [settle, reduceUntil, Pending.apply, hq]
    rw [happly] at ht
    obtain rfl : Expr.binary op t' u = t := by simpa using ht
    refine .trans ?_ (.binary op (hl.whole t' ht') (hr.whole u hu))
    cases signs with
    | nil => exact .refl _
    | cons p signs =>
      -- A waiting sign binds as tightly as a product, so the operator is one of a product.
      have hneg : ∀ s ∈ p :: signs, s.op = .unary .neg := by
        intro s hs
        obtain ⟨sop, hsop, hplus, hle⟩ := hsigns s hs
        cases sop with
        | plus => exact absurd rfl hplus
        | neg => exact hsop
        | recip => exact absurd (Nat.le_trans hle hop) (by decide)
      obtain ⟨sop, hsop, -, hle⟩ := hsigns p List.mem_cons_self
      have hproduct : op = .mul ∨ op = .div := by
        rw [hneg p List.mem_cons_self] at hsop
        obtain rfl : UnaryOp.neg = sop := by simpa using hsop
        revert hle hop
        cases op <;> decide
      exact rearranged_wrap_product hproduct hneg (leftRead []) (rightRead [])
  · exact absurd (Nat.le_trans hpower hop) (by decide)

/-- What a power is read as: the exponents after it go below a minus sign at its end. -/
def readPower (exposed : Bool) (left right : List Expr → Expr) (es : List Expr) : Expr :=
  left (if exposed then [right es] else right [] :: es)

/-- The exponent of a power does not end in a minus sign: it is the first one of its base. -/
theorem takesPowers_closed {q : Pending} (hq : q.op = .binary .pow) {left right : List Expr → Expr}
    {kept : List Pending} {others : List Expr} {x y : Expr}
    (hkept : ∀ p ∈ kept.head?, waitsForPower p = true)
    (hl : TakesPowers signs left kept x others) (hy : Proper y)
    (hr : Rearranged (right []) y) :
    reduceUntil true waitsForPower (q :: kept) ([y] ++ x :: others) =
        (kept, .binary .pow x y :: others) ∧
      TakesPowers signs (readPower false left right) kept (.binary .pow x y) others := by
  refine ⟨?_, fun es ys t hes hys ht => ?_⟩
  · have hwaits : waitsForPower q = false := by
      simp only [waitsForPower, Pending.precedence, hq, BinaryOp.precedence]
      rfl
    have hstep : reduceUntil true waitsForPower (q :: kept) ([y] ++ x :: others) =
        reduceUntil true waitsForPower kept (.binary .pow x y :: others) := by
      simp [reduceUntil, Pending.apply, hq, hwaits]
    rw [hstep]
    exact reduceUntil_of_keep hkept _
  · exact hl (right [] :: es) (y :: ys) t (.cons hr hes) (List.forall_mem_cons.2 ⟨hy, hys⟩) ht

/-- The exponent of a power ends in a minus sign, which keeps the exponents that follow. -/
theorem takesPowers_exposed {q : Pending} (hq : q.op = .binary .pow) {left right : List Expr → Expr}
    {kept rightKept : List Pending} {others rightOthers : List Expr} {x y : Expr}
    {names : List String} (hseg : Segment rightKept (y :: rightOthers) names)
    (hl : TakesPowers signs left kept x others)
    (hr : TakesPowers [] right rightKept y rightOthers) :
    TakesPowers signs (readPower true left right) (rightKept ++ q :: kept) y
      (rightOthers ++ x :: others) := by
  intro es ys t hes hys ht
  have hproper : Proper (powers y ys) := proper_powers (hseg.proper y List.mem_cons_self) hys
  have hpowers : Segment rightKept (powers y ys :: rightOthers)
      ((powers y ys :: rightOthers).reverse.flatMap occurrences) := by
    refine ⟨hseg.enough, List.forall_mem_cons.2 ⟨hproper, fun z hz => ?_⟩, rfl⟩
    exact hseg.proper z (List.mem_cons_of_mem _ hz)
  obtain ⟨u, hu, hexponent, -⟩ := hpowers.settle
  have hstep : settle (q :: kept) ([u] ++ x :: others) = settle kept (powers x [u] :: others) := by
    simp [settle, reduceUntil, Pending.apply, hq, powers]
  rw [← List.cons_append, hpowers.settle_append, hu, hstep] at ht
  exact hl [right es] [u] t (.cons (hr es ys u hes hys hu) .nil) (by simpa using hexponent) ht

/-- A power takes the base off the segment of its left operand, and leaves the signs waiting. -/
theorem spells_power {q : Pending} (hq : q.op = .binary .pow)
    {l r : Expr} {leftLevel : Precedence} {leftExposed exposed : Bool}
    {leftRead rightRead : List Expr → Expr}
    {leftPending rightPending : List Pending} {leftOperands rightOperands : List Expr}
    (hl : Spells signs leftLevel leftExposed l leftRead leftPending leftOperands)
    (hr : Spells [] .application exposed r rightRead rightPending rightOperands)
    (hleft : .power ≤ leftLevel) {kept : List Pending} {operands : List Expr}
    (hreduce : reduceUntil true waitsForPower leftPending leftOperands = (kept, operands)) :
    Spells signs .power exposed (.binary .pow l r) (readPower exposed leftRead rightRead)
      (rightPending ++ q :: kept) (rightOperands ++ operands) := by
  have hseg : Segment kept operands l.occurrences := by
    have hreduced := hl.segment.reduceUntil waitsForPower
    rwa [hreduce] at hreduced
  have hsuffix : kept <:+ leftPending := by
    have hreduced := reduceUntil_suffix waitsForPower leftPending leftOperands
    rwa [hreduce] at hreduced
  have hkept : ∀ p ∈ kept.head?, waitsForPower p = true := by
    have hhead : ∀ p ∈ (reduceUntil true waitsForPower leftPending leftOperands).1.head?,
        waitsForPower p = true := keep_of_mem_reduceUntil leftPending leftOperands
    rwa [hreduce] at hhead
  have hcount : binaries (q :: kept) = binaries kept + 1 := by
    simp [binaries, Pending.isUnary, hq]
  obtain ⟨others, x, rfl, htakes⟩ : ∃ others x, operands = x :: others ∧
      TakesPowers signs leftRead kept x others := by
    obtain ⟨kept', x, others, hsplit, htakes, -, -⟩ := hl.base hleft
    obtain ⟨rfl, rfl⟩ : kept = kept' ∧ operands = x :: others := by
      simpa [hreduce] using hsplit
    exact ⟨others, x, rfl, htakes⟩
  obtain ⟨rightKept, y, rightOthers, hright, hrtakes, hexposed, hclosed⟩ := hr.base (by decide)
  have hrseg : Segment rightKept (y :: rightOthers) r.occurrences := by
    have hreduced := hr.segment.reduceUntil waitsForPower
    rwa [hright] at hreduced
  have hbase : ∃ kept' z others', reduceUntil true waitsForPower (rightPending ++ q :: kept)
        (rightOperands ++ x :: others) = (kept', z :: others') ∧
      TakesPowers signs (readPower exposed leftRead rightRead) kept' z others' ∧
      (exposed = true → kept' ≠ []) := by
    rw [hr.segment.reduceUntil_append, hright]
    cases exposed with
    | false =>
      obtain rfl := hclosed rfl rfl
      obtain rfl : rightOthers = [] := by simpa [binaries] using hrseg.enough
      have hy : Rearranged (rightRead []) y := hrtakes [] [] y .nil (by simp) rfl
      obtain ⟨hreduce, htakes⟩ := takesPowers_closed hq hkept htakes
        (hrseg.proper y List.mem_cons_self) hy
      rw [if_pos rfl]
      exact ⟨_, _, _, hreduce, htakes, by simp⟩
    | true =>
      rw [if_neg (hexposed rfl)]
      exact ⟨_, _, _, rfl, takesPowers_exposed hq hrseg htakes hrtakes, by simp⟩
  refine ⟨⟨?_, ?_, ?_⟩, fun p hp => ?_, fun t ht => ?_, fun _ => ?_⟩
  · have hlength : binaries (rightPending ++ q :: kept) =
        binaries rightPending + binaries (q :: kept) := List.countP_append
    rw [List.length_append, hr.segment.enough, hseg.enough, hlength, hcount]
    omega
  · intro f hf
    rcases List.mem_append.1 hf with hf | hf
    · exact hr.segment.proper f hf
    · exact hseg.proper f hf
  · rw [List.reverse_append, List.flatMap_append, hr.segment.names, hseg.names]
    rfl
  · rcases List.mem_append.1 hp with hp | hp
    · rcases hr.tight p hp with htight | htight
      · exact .inl (Nat.le_trans (by decide) htight)
      · exact .inr htight
    · rcases List.mem_cons.1 hp with rfl | hp
      · simp [Pending.precedence, hq]
        exact .inl (Nat.le_refl _)
      · rcases hl.tight p (hsuffix.subset hp) with htight | htight
        · exact .inl (Nat.le_trans hleft htight)
        · exact .inr htight
  · obtain ⟨kept', z, others', hreduced, htakes', -⟩ := hbase
    exact htakes'.whole hreduced ht
  · obtain ⟨kept', z, others', hreduced, htakes', hwaiting⟩ := hbase
    exact ⟨kept', z, others', hreduced, htakes', hwaiting, by simp⟩

end

end Formulary.Reading
