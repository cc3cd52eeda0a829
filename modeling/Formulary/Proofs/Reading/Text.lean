import Formulary.Proofs.Reading.Elements
import Formulary.Proofs.Reading.Groups
import Formulary.Proofs.Reading.Spelling

/-!
# Reading a canonical text

The induction over writable expressions that brings the tokenizer, the groups and the stacks
together. `Reads` says what reading the lexemes of an expression does in the middle of a group: it
leaves a segment that spells the expression. `Regains` says what reading them as a group of their
own gives: an expression without issues that has the same free names, and that differs from the
regrouped expression by rearranged signs only.
-/

namespace Formulary.Reading

open Formulary.Expr State

/-- The expression `t` is read from a text of `e`: it has the same names, and it is `u` up to
rearranged signs. -/
structure Regains (e u t : Expr) : Prop where
  proper : Proper t
  names : t.occurrences = e.occurrences
  rearranged : Rearranged u t

/-- The operator below goes on waiting when an operator of a level comes. -/
def Admits (level : Precedence) (base : List Pending) : Prop :=
  ∀ p ∈ base.head?, p.precedence < level

/-- Reading the lexemes above waiting signs leaves a segment that spells the expression. -/
def Reads (level : Precedence) (exposed : Bool) (e : Expr) (read : List Expr → Expr)
    (ws : List Lexeme) : Prop :=
  ∀ start signs, (∀ p ∈ signs, IsSign level p) → ∃ pending operands,
    Spells signs level exposed e read pending operands ∧
    ∀ outer rest base below, Continues rest → Admits level base →
      elements {} [] outer (place start ws ++ rest) ⟨below, signs ++ base, false, none⟩ =
        elements {} [] outer rest ⟨operands ++ below, pending ++ base, true, none⟩

/-! ## The state between tokens -/

theorem pushOperand_first (below : List Expr) (base : List Pending) (e : Expr) (start : Nat) :
    pushOperand true ⟨below, base, false, none⟩ e start = ⟨e :: below, base, true, none⟩ := rfl

theorem pushOperator_sign {op : UnaryOp} (hop : op ≠ .plus) (below : List Expr)
    (base : List Pending) (span : Span) :
    pushOperator true ⟨below, base, false, none⟩ (signToken op) span =
      ⟨below, ⟨.unary op, span⟩ :: base, false, none⟩ := by
  have hkeep : reduceUntil true (fun _ => true) base below = (base, below) :=
    reduceUntil_of_keep (fun _ _ => rfl) below
  cases op with
  | plus => exact absurd rfl hop
  | neg => simp [pushOperator, signToken, wait, Pending.isUnary, hkeep]
  | recip => simp [pushOperator, signToken, wait, Pending.isUnary, hkeep]

/-- A binary operator reduces what does not bind less tightly, and waits. -/
theorem pushOperator_binary {op : BinaryOp} {pending : List Pending} {operands : List Expr}
    {names : List String} (h : Segment pending operands names) {base : List Pending}
    (hbase : Admits op.precedence base) (below : List Expr) (span : Span)
    {keep : Pending → Bool}
    (hkeep : ∀ p ∈ pending, keep p = decide (p.precedence < op.precedence)) :
    pushOperator true ⟨operands ++ below, pending ++ base, true, none⟩ op span =
      ⟨(reduceUntil true keep pending operands).2 ++ below,
        ⟨.binary op, span⟩ :: ((reduceUntil true keep pending operands).1 ++ base), false,
        none⟩ := by
  have hbelow : ∀ p ∈ base.head?, decide (p.precedence < op.precedence) = true :=
    fun p hp => decide_eq_true (hbase p hp)
  have hwait := h.reduceUntil_kept hbelow below
  have hpush : pushOperator true ⟨operands ++ below, pending ++ base, true, none⟩ op span =
      ⟨(reduceUntil true (fun p => decide (p.precedence < op.precedence)) (pending ++ base)
          (operands ++ below)).2,
        ⟨.binary op, span⟩ :: (reduceUntil true (fun p => decide (p.precedence < op.precedence))
          (pending ++ base) (operands ++ below)).1, false, none⟩ := rfl
  rw [reduceUntil_congr hkeep, hpush, hwait]

/-! ## Operands -/

variable {signs elements : Bool} {e u t : Expr} {read : List Expr → Expr} {ws : List Lexeme}

/-- Lexemes that push a single operand. -/
theorem reads_operand
    (h : ∀ start, ∃ t, Regains e u t ∧ ∃ offset, ∀ outer rest s, Continues rest →
      Reading.elements {} [] outer (place start ws ++ rest) s =
        Reading.elements {} [] outer rest (s.pushOperand true t offset)) :
    Reads .application false e (powers u) ws := by
  intro start signs hsigns
  obtain ⟨t, hregains, offset, hread⟩ := h start
  refine ⟨signs, [t], spells_operand hsigns hregains.proper hregains.names hregains.rearranged, ?_⟩
  intro outer rest base below hrest _
  rw [hread outer rest _ hrest, pushOperand_first]
  rfl

theorem regains_self (hproper : Proper e) : Regains e e e := ⟨hproper, rfl, .refl e⟩

theorem elements_place_number {n : Nat} (hn : n < literalBound) (outer : Span) (start : Nat)
    (rest : List Token) (s : State) :
    Reading.elements {} [] outer (place start [.number n] ++ rest) s =
      Reading.elements {} [] outer rest (s.pushOperand true (.ofInt n) start) := by
  have hchars : ((Lexeme.number n).token start).lexeme.toList = Nat.toDigits 10 n := by
    simp [Lexeme.token, Lexeme.chars]
  have hvalue := Decimal.natOfDigits_toDigits n
  have hnumber : number {} ((Lexeme.number n).token start) = .ofInt n := by
    rw [number_of_isWhole (by rw [hchars]; exact Decimal.isWhole_toDigits n)
      (by rw [hchars, hvalue]; exact hn), hchars, hvalue]
  rw [place, place, List.singleton_append, elements_number rfl, hnumber]
  rfl

/-- A literal; a minus sign in front of it waits as a sign. -/
theorem reads_literal {k : Int} (hk : k.natAbs < literalBound) :
    Reads .application (decide (k < 0)) (.ofInt k) (Expr.ofInt k).regrouped
      (literalLexemes k) := by
  by_cases hneg : k < 0
  · have hnat : (k.natAbs : Int) = -k := by omega
    rw [literalLexemes, if_pos hneg, decide_eq_true hneg]
    intro start signs hsigns
    refine ⟨_, _, spells_negative hsigns
      (p := ⟨.unary .neg, ((Lexeme.operator .sub).token start).span⟩) rfl hk hneg, ?_⟩
    intro outer rest base below hrest _
    rw [place, List.cons_append, elements_operator rfl, elements_place_number hk, hnat]
    rw [show BinaryOp.sub = signToken .neg from rfl, pushOperator_sign (by simp),
      pushOperand_first]
    rfl
  · have hnat : (k.natAbs : Int) = k := by omega
    have hread := regrouped_nonneg hk (by omega)
    rw [literalLexemes, if_neg hneg, decide_eq_false hneg, hread]
    refine reads_operand fun start => ⟨_, regains_self (proper_ofInt hk), start, ?_⟩
    intro outer rest s _
    rw [elements_place_number hk, hnat]

section

variable (name : String) (start : Nat)

theorem lexeme_name : ((Lexeme.name name).token start).lexeme = name := by
  simp [Lexeme.token, Lexeme.chars]

/-- A name is a single part. -/
theorem pushParts_name (s : State) :
    pushParts (Settings.negativeNumbers {}) s ((Lexeme.name name).token start).span.start
      (nameParts [] ((Lexeme.name name).token start).lexeme) = (s, name, start) := by
  rw [lexeme_name, nameParts_nil]
  rfl

theorem derivativeBy_name (body : Expr) (span : Span) :
    derivativeBy body [(Lexeme.name name).token start] span none = .derivative body name ∧
      ∀ point, derivativeBy body [(Lexeme.name name).token start] span (some point) =
        .derivativeAt body name point := by
  have hkind : ((Lexeme.name name).token start).kind = .name := rfl
  simp [derivativeBy, hkind, lexeme_name]

end

theorem reads_var {name : String} :
    Reads .application false (.var name) (Expr.var name).regrouped [.name name] := by
  refine reads_operand (u := .var name) fun start =>
    ⟨.var name, regains_self ⟨by simp, by simp⟩, start, ?_⟩
  intro outer rest s hrest
  have hparts := pushParts_name name start s
  rw [place, place, List.singleton_append]
  cases rest with
  | nil =>
    rw [elements_lastName (t := (Lexeme.name name).token start) rfl hparts, elements_nil]
  | cons u rest =>
    obtain ⟨hparen, hbracket⟩ := hrest u rfl
    rw [elements_name (t := (Lexeme.name name).token start) rfl hparts (by simp [hparen])
      (by simp [hbracket])]

/-! ## Groups -/

/-- Lexemes read as a group of their own. -/
theorem group_regains {level : Precedence} {exposed : Bool} (hw : Bare ws)
    (h : Reads level exposed e read ws) (start : Nat) (outer : Span) :
    Regains e (read []) (group {} [] (place start ws) outer) := by
  obtain ⟨pending, operands, hspells, hread⟩ := h start [] (by simp)
  obtain ⟨t, hsettle, hproper, hnames⟩ := hspells.segment.settle
  have hstate := hread outer [] [] [] (by simp [Continues]) (by simp [Admits])
  simp only [List.append_nil, elements_nil] at hstate
  have hgroup : group {} [] (place start ws) outer = t := by
    obtain ⟨first, others, hcons⟩ := List.exists_cons_of_ne_nil (hw.ongoing.place_ne_nil start)
    rw [group, hw.ongoing.strip]
    rw [hcons] at hstate ⊢
    dsimp only
    rw [hstate]
    have hreduce : reduceUntil true (fun _ => false) pending operands = ([], [t]) := hsettle
    simp [finish, reduceAll, hreduce]
  rw [hgroup]
  exact ⟨hproper, hnames, hspells.whole t hsettle⟩

/-- The search for the end of a group that encloses the lexemes finds it. -/
theorem closing_place {v w : Lexeme} {ws : List Lexeme} (pair : Pair v.kind w.kind) (start : Nat)
    (hbalanced : Balanced true (place start ws)) (rest : List Token) :
    closing v.kind w.kind 0 (place start (ws ++ [w]) ++ rest) =
      some ⟨place start ws, w.token (start + extent ws), rest⟩ := by
  have hclosing := closing_group (c := w.token (start + extent ws)) hbalanced pair rest
  rw [place_append, List.append_assoc]
  exact hclosing

theorem reads_parenthesized {level : Precedence} {exposed : Bool} (hw : Bare ws)
    (h : Reads level exposed e read ws) :
    Reads .application false e (powers (read [])) (.openParen :: (ws ++ [.closeParen])) := by
  refine reads_operand fun start => ?_
  have hclosing := closing_place (v := .openParen) (w := .closeParen) .parens
    (start + Lexeme.openParen.size) (hw.balanced true _)
  refine ⟨_, group_regains hw h (start + Lexeme.openParen.size)
    ⟨start + Lexeme.openParen.size, start + Lexeme.openParen.size + extent ws⟩, start, ?_⟩
  intro outer rest s _
  rw [place, List.cons_append, elements_group rfl (hclosing rest)]
  rfl

theorem reads_enclose {level : Precedence} {exposed : Bool} (hw : Bare ws)
    (h : Reads level exposed e read ws) (grouped : Bool) :
    Reads (if grouped then .application else level) (!grouped && exposed) e
      (enclosed grouped read) (enclose grouped ws) := by
  cases grouped
  · exact h
  · exact reads_parenthesized hw h

/-! ## Calls, elements and derivatives -/

theorem callNamed_withPrimes {function : String} {primes : Nat}
    (noPrimes : Names.primes function = 0) (canonical : Names.canonical function = function)
    (argument : Expr) :
    callNamed (Names.withPrimes function primes) argument = .call function primes argument := by
  rw [callNamed, Names.base_withPrimes noPrimes, Names.primes_withPrimes noPrimes, canonical]

theorem withPrimes_ne_D {function : String} {primes : Nat} (noPrimes : Names.primes function = 0)
    (notD : function = "D" → primes ≠ 0) : Names.withPrimes function primes ≠ "D" := by
  intro h
  have hprimes := Names.primes_withPrimes noPrimes primes
  have hbase := Names.base_withPrimes noPrimes primes
  rw [h] at hprimes hbase
  exact notD (hbase.symm.trans (by decide)) (hprimes.symm.trans (by decide))

/-- A name and its arguments in parentheses are read as a call. -/
theorem reads_applied {name : String} (hbalanced : ∀ start, Balanced true (place start ws))
    (hcall : ∀ start span, Regains e u (call {} [] name (place start ws) span)) :
    Reads .application false e (powers u) (applied name ws) := by
  refine reads_operand fun start => ?_
  let first := start + (Lexeme.name name).size
  let inner := first + Lexeme.openParen.size
  have hclosing := closing_place (v := .openParen) (w := .closeParen) .parens inner
    (hbalanced inner)
  refine ⟨_, hcall inner ⟨inner, inner + extent ws⟩, start, ?_⟩
  intro outer rest s _
  exact elements_call (t := (Lexeme.name name).token start) (u := Lexeme.openParen.token first) rfl
    (pushParts_name name start s) ⟨rfl, rfl, by simp⟩ (hclosing rest)

theorem regains_call (function : String) (primes : Nat) (h : Regains e u t) :
    Regains (.call function primes e) (.call function primes u) (.call function primes t) := by
  exact ⟨⟨by simp [h.proper.noIssue], by simp⟩, h.names, .call function primes h.rearranged⟩

/-- An element can be read again if its index can, which has one dependency at most. -/
theorem regains_element (sequence : String) (brackets : Span)
    (single : e.dependencies.length ≤ 1) (h : Regains e u t) :
    Regains (.element sequence e) (.element sequence u) (Reading.element sequence t brackets) := by
  have hself : Reading.element sequence t brackets = .element sequence t := by
    have hdependencies : t.dependencies = e.dependencies := by
      rw [dependencies, h.names, dependencies]
    simp only [Reading.element]
    split
    · rename_i heq
      rw [hdependencies] at heq
      rw [heq] at single
      simp at single
    · rfl
  rw [hself]
  exact ⟨⟨by simp [h.proper.noIssue], by simp⟩, h.names, .element sequence h.rearranged⟩

theorem regains_derivative (name : String) (h : Regains e u t) :
    Regains (.derivative e name) (.derivative u name) (.derivative t name) := by
  exact ⟨⟨by simp [h.proper.noIssue], by simp⟩, h.names, .derivative name h.rearranged⟩

theorem regains_derivativeAt {e' u' t' : Expr} (name : String) (hl : Regains e u t)
    (hr : Regains e' u' t') :
    Regains (.derivativeAt e name e') (.derivativeAt u name u') (.derivativeAt t name t') := by
  refine ⟨⟨by simp [hl.proper.noIssue, hr.proper.noIssue], by simp⟩, ?_,
    .derivativeAt name hl.rearranged hr.rearranged⟩
  rw [occurrences, occurrences, hl.names, hr.names]

theorem reads_derivative {name : String} {level : Precedence} {exposed : Bool} (hw : Bare ws)
    (h : Reads level exposed e read ws) :
    Reads .application false (.derivative e name) (powers (.derivative (read []) name))
      (applied "D" (ws ++ [.comma, .name name])) := by
  refine reads_applied (fun start => ?_) fun start span => ?_
  · rw [place_append]
    exact .append (hw.balanced true _) (.append (.comma rfl) (.plain rfl))
  · have harguments : arguments 0 (place start (ws ++ [.comma, .name name])) =
        [place start ws,
          [(Lexeme.name name).token (start + extent ws + Lexeme.comma.size)]] := by
      rw [place_append]
      exact (arguments_comma (hw.balanced false _) rfl _).trans
        (congrArg _ (arguments_single (.plain rfl)))
    rw [call_D_two harguments, (derivativeBy_name name _ _ span).1]
    exact regains_derivative name (group_regains hw h _ _)

theorem reads_derivativeAt {name : String} {e' : Expr} {read' : List Expr → Expr}
    {ws' : List Lexeme} {level level' : Precedence} {exposed exposed' : Bool} (hw : Bare ws)
    (h : Reads level exposed e read ws) (hw' : Bare ws') (h' : Reads level' exposed' e' read' ws') :
    Reads .application false (.derivativeAt e name e')
      (powers (.derivativeAt (read []) name (read' [])))
      (applied "D" (ws ++ .comma :: .name name :: .comma :: ws')) := by
  refine reads_applied (fun start => ?_) fun start span => ?_
  · rw [place_append]
    exact .append (hw.balanced true _)
      (.append (.comma rfl) (.cons rfl (.append (.comma rfl) (hw'.balanced true _))))
  · let second := start + extent ws + Lexeme.comma.size
    let third := second + (Lexeme.name name).size + Lexeme.comma.size
    have harguments : arguments 0
          (place start (ws ++ .comma :: .name name :: .comma :: ws')) =
        [place start ws, [(Lexeme.name name).token second], place third ws'] := by
      rw [place_append]
      refine (arguments_comma (hw.balanced false _) rfl _).trans (congrArg _ ?_)
      have hname : Balanced false [(Lexeme.name name).token second] := .plain rfl
      refine (arguments_comma hname rfl _).trans (congrArg _ ?_)
      exact arguments_single (hw'.balanced false _)
    rw [call_D_three harguments, (derivativeBy_name name _ _ span).2]
    exact regains_derivativeAt name (group_regains hw h _ _) (group_regains hw' h' _ _)

theorem reads_call {function : String} {primes : Nat} {level : Precedence} {exposed : Bool}
    (noPrimes : Names.primes function = 0) (canonical : Names.canonical function = function)
    (notD : function = "D" → primes ≠ 0) (hw : Bare ws) (h : Reads level exposed e read ws) :
    Reads .application false (.call function primes e) (powers (.call function primes (read [])))
      (applied (Names.withPrimes function primes) ws) := by
  refine reads_applied (hw.balanced true) fun start span => ?_
  rw [call_other (withPrimes_ne_D noPrimes notD), callNamed_withPrimes noPrimes canonical]
  exact regains_call function primes (group_regains hw h _ _)

/-- The lexemes of an expression without elements hold no brackets. -/
theorem openBracket_not_mem (hw : Writable signs elements e) (hnone : elements = false) :
    Lexeme.openBracket ∉ e.lexemes := by
  induction hw with
  | @number _ k _ _ =>
    change Lexeme.openBracket ∉ literalLexemes k
    unfold literalLexemes
    split <;> simp
  | element => cases hnone
  | @unary _ op u _ _ _ ih =>
    have hu := ih hnone
    cases hg : u.groupedLeft op.precedence <;> simp [lexemes, enclose, hg, hu]
  | @binary _ op l r _ _ ihl ihr =>
    have hl := ihl hnone
    have hr := ihr hnone
    cases hg : l.groupedBase op <;> cases hg' : r.groupedRight op.precedence <;>
      simp [lexemes, enclose, hg, hg', hl, hr]
  | _ => simp_all [lexemes, applied]

/-- An element reads as an element if its index reads. -/
theorem reads_element {sequence : String} {level : Precedence} {exposed : Bool}
    (hw : Writable signs false e) (single : e.dependencies.length ≤ 1)
    (h : Reads level exposed e e.regrouped e.lexemes) :
    Reads .application false (.element sequence e) (Expr.element sequence e).regrouped
      (Expr.lexemes (.element sequence e)) := by
  refine reads_operand (u := .element sequence (e.regrouped [])) fun start => ?_
  let first := start + (Lexeme.name sequence).size
  let inner := first + Lexeme.openBracket.size
  have hclosing := closing_place (v := .openBracket) (w := .closeBracket) .brackets inner
    (hw.bare.balanced true inner)
  have hinner : ∀ t ∈ place inner e.lexemes, t.kind ≠ .openBracket := by
    have hkinds (ws : List Lexeme) (hws : .openBracket ∉ ws) (start : Nat) :
        ∀ t ∈ place start ws, t.kind ≠ .openBracket := by
      induction ws generalizing start with
      | nil => simp [place]
      | cons w ws ih =>
        intro t ht
        rcases List.mem_cons.1 ht with rfl | ht
        · intro hk
          cases w <;> simp_all [Lexeme.token, Lexeme.kind]
        · exact ih (fun hmem => hws (List.mem_cons_of_mem _ hmem)) _ t ht
    exact hkinds _ (openBracket_not_mem hw rfl) _
  refine ⟨_, regains_element sequence ⟨first, inner + extent e.lexemes + Lexeme.closeBracket.size⟩
    single (group_regains hw.bare h inner ⟨inner, inner + extent e.lexemes⟩), start, ?_⟩
  intro outer rest s _
  have hany : (place inner e.lexemes).any (·.kind == .openBracket) = false := by simpa using hinner
  refine (elements_subscript (t := (Lexeme.name sequence).token start)
    (u := Lexeme.openBracket.token first) rfl (pushParts_name sequence start s) ⟨rfl, rfl⟩
    (hclosing rest)).trans ?_
  rw [if_neg (by simp [hany])]
  rfl

/-! ## Operations -/

theorem IsSign.mono {level level' : Precedence} {p : Pending} (h : IsSign level p)
    (hlevel : level ≤ level') : IsSign level' p := by
  obtain ⟨op, hop, hplus, hle⟩ := h
  exact ⟨op, hop, hplus, Nat.le_trans hle hlevel⟩

/-- A sign and what reads as an operand of it read as the unary operation. -/
theorem reads_unary {op : UnaryOp} (hop : op ≠ .plus) {level : Precedence} {exposed : Bool}
    {read : List Expr → Expr} {ws : List Lexeme} (hlevel : op.precedence ≤ level)
    (h : Reads level exposed e read ws) :
    Reads op.precedence exposed (.unary op e) (fun es => .unary op (read es))
      (.operator (signToken op) :: ws) := by
  intro start signs hsigns
  let p : Pending := ⟨.unary op, ((Lexeme.operator (signToken op)).token start).span⟩
  have hbelow : ∀ q ∈ p :: signs, IsSign level q := by
    intro q hq
    rcases List.mem_cons.1 hq with rfl | hq
    · exact ⟨op, rfl, hop, hlevel⟩
    · exact (hsigns q hq).mono hlevel
  obtain ⟨pending, operands, hspells, hread⟩ := h _ (p :: signs) hbelow
  refine ⟨pending, operands, spells_unary (p := p) rfl hlevel hspells, ?_⟩
  intro outer rest base below hrest hbase
  rw [place, List.cons_append, elements_operator rfl, pushOperator_sign hop]
  exact hread outer rest base below hrest fun q hq => Nat.lt_of_lt_of_le (hbase q hq) hlevel

/-- The operand on the right of an operator is read above the waiting operator. -/
theorem reads_right {op : BinaryOp} {l r : Expr} {leftLevel rightLevel : Precedence}
    {leftExposed rightExposed : Bool} {leftRead rightRead : List Expr → Expr}
    {leftLexemes rightLexemes : List Lexeme}
    (hl : Reads leftLevel leftExposed l leftRead leftLexemes)
    (hr : Reads rightLevel rightExposed r rightRead rightLexemes)
    (hleft : op.precedence ≤ leftLevel) (hright : op.precedence < rightLevel) (start : Nat)
    {signs : List Pending}
    (hsigns : ∀ p ∈ signs, IsSign op.precedence p) :
    ∃ leftPending leftOperands rightPending rightOperands q,
      q.op = .binary op ∧
      Spells signs leftLevel leftExposed l leftRead leftPending leftOperands ∧
      Spells [] rightLevel rightExposed r rightRead rightPending rightOperands ∧
      ∀ keep : Pending → Bool,
        (∀ p ∈ leftPending, keep p = decide (p.precedence < op.precedence)) →
        ∀ outer rest base below, Continues rest → Admits op.precedence base →
        Reading.elements {} [] outer
            (place start (leftLexemes ++ .operator op :: rightLexemes) ++ rest)
            ⟨below, signs ++ base, false, none⟩ =
          Reading.elements {} [] outer rest
            ⟨(rightOperands ++ (reduceUntil true keep leftPending leftOperands).2) ++ below,
              (rightPending ++ q :: (reduceUntil true keep leftPending leftOperands).1) ++ base,
              true, none⟩ := by
  obtain ⟨leftPending, leftOperands, hsl, hreadl⟩ :=
    hl start signs fun p hp => (hsigns p hp).mono hleft
  let middle := start + extent leftLexemes
  obtain ⟨rightPending, rightOperands, hsr, hreadr⟩ :=
    hr (middle + (Lexeme.operator op).size) [] (by simp)
  refine ⟨leftPending, leftOperands, rightPending, rightOperands,
    ⟨.binary op, ((Lexeme.operator op).token middle).span⟩, rfl, hsl, hsr, ?_⟩
  intro keep hkeep outer rest base below hrest hbase
  have hoperator : Continues ((Lexeme.operator op).token middle ::
      (place (middle + (Lexeme.operator op).size) rightLexemes ++ rest)) := by
    intro t ht
    obtain rfl : (Lexeme.operator op).token middle = t := by simpa using ht
    simp [Lexeme.token, Lexeme.kind]
  rw [place_append, List.append_assoc, place, List.cons_append,
    hreadl outer _ base below hoperator fun p hp => Nat.lt_of_lt_of_le (hbase p hp) hleft,
    elements_operator rfl, pushOperator_binary hsl.segment hbase below _ hkeep]
  have hadmits : Admits rightLevel
      (⟨.binary op, ((Lexeme.operator op).token middle).span⟩ ::
        ((reduceUntil true keep leftPending leftOperands).1 ++ base)) := by
    intro p hp
    obtain rfl : (⟨.binary op, ((Lexeme.operator op).token middle).span⟩ : Pending) = p := by
      simpa using hp
    exact hright
  have hrest := hreadr outer rest _ ((reduceUntil true keep leftPending leftOperands).2 ++ below)
    hrest hadmits
  rw [List.nil_append] at hrest
  rw [hrest]
  simp

/-- Operands around an operator read as the operation where they bind strongly enough. -/
theorem reads_binary {op : BinaryOp} (hop : op.precedence ≤ .factor) {l r : Expr}
    {leftLevel rightLevel : Precedence} {leftExposed rightExposed : Bool}
    {leftRead rightRead : List Expr → Expr} {leftLexemes rightLexemes : List Lexeme}
    (hl : Reads leftLevel leftExposed l leftRead leftLexemes)
    (hr : Reads rightLevel rightExposed r rightRead rightLexemes)
    (hleft : op.precedence ≤ leftLevel) (hright : op.precedence < rightLevel) (exposed : Bool) :
    Reads op.precedence exposed (.binary op l r) (powers (.binary op (leftRead []) (rightRead [])))
      (leftLexemes ++ .operator op :: rightLexemes) := by
  intro start signs hsigns
  obtain ⟨leftPending, leftOperands, rightPending, rightOperands, q, hq, hsl, hsr, hread⟩ :=
    reads_right hl hr hleft hright start hsigns
  obtain ⟨t, ht, -, -⟩ := hsl.segment.settle
  refine ⟨_, _, spells_binary hq hop hsigns hsl hsr hright ht exposed, ?_⟩
  intro outer rest base below hrest hbase
  -- Everything on the left binds at least as tightly as the operator.
  have hkeep : ∀ p ∈ leftPending, false = decide (p.precedence < op.precedence) := by
    intro p hp
    refine (decide_eq_false fun hlt => ?_).symm
    rcases hsl.tight p hp with htight | htight
    · exact absurd (Nat.lt_of_lt_of_le hlt (Nat.le_trans hleft htight)) (Nat.lt_irrefl _)
    · exact absurd (Nat.lt_of_lt_of_le hlt (Nat.le_trans hop htight)) (Nat.lt_irrefl _)
  have hreduce : reduceUntil true (fun _ => false) leftPending leftOperands = ([], [t]) := ht
  rw [hread (fun _ => false) hkeep outer rest base below hrest hbase, hreduce]

/-- A power takes the powers behind it into its exponent. -/
theorem reads_power {l r : Expr} {leftLevel : Precedence} {leftExposed exposed : Bool}
    {leftRead rightRead : List Expr → Expr} {leftLexemes rightLexemes : List Lexeme}
    (hl : Reads leftLevel leftExposed l leftRead leftLexemes)
    (hr : Reads .application exposed r rightRead rightLexemes) (hleft : .power ≤ leftLevel) :
    Reads .power exposed (.binary .pow l r) (readPower exposed leftRead rightRead)
      (leftLexemes ++ .operator .pow :: rightLexemes) := by
  intro start signs hsigns
  obtain ⟨leftPending, leftOperands, rightPending, rightOperands, q, hq, hsl, hsr, hread⟩ :=
    reads_right hl hr (show BinaryOp.pow.precedence ≤ leftLevel from hleft) (by decide) start hsigns
  refine ⟨_, _, spells_power hq hsl hsr hleft rfl, ?_⟩
  intro outer rest base below hrest hbase
  exact hread waitsForPower (fun _ _ => rfl) outer rest base below hrest hbase

/-! ## The induction -/

/-- The exponent of a power takes the powers behind it, under a sign if it ends with one. -/
theorem regrouped_pow (l r : Expr) :
    (Expr.binary .pow l r).regrouped =
      readPower (!r.groupedRight BinaryOp.pow.precedence && r.endsNegative)
        (enclosed (l.groupedBase .pow) l.regrouped)
        (enclosed (r.groupedRight BinaryOp.pow.precedence) r.regrouped) := by
  funext es
  rw [regrouped, readPower, endsNegative, enclosed_nil]
  cases r.groupedRight BinaryOp.pow.precedence <;> rfl

/-- The lexemes of a writable expression are read as the expression. -/
theorem reads_lexemes (h : Writable signs elements e) :
    Reads e.precedence e.endsNegative e e.regrouped e.lexemes := by
  induction h with
  | @number _ k small _ =>
    have hbound : k.natAbs < 2 ^ 53 := by unfold literalBound at small; omega
    have hnegative : (Expr.ofInt k).endsNegative = decide (k < 0) := Number.isNegative_ofInt hbound
    rw [hnegative]
    exact reads_literal small
  | var _ => exact reads_var
  | element _ writable single ih => exact reads_element writable single ih
  | @unary _ op u _ notPlus writable ih =>
    have hu := reads_enclose writable.bare ih (u.groupedLeft op.precedence)
    refine reads_unary notPlus ?_ hu
    rw [writable.groupedLeft]
    split
    · cases op <;> decide
    · rename_i hnot
      have hloose : ¬ u.precedence < op.precedence := by simpa using hnot
      exact Nat.not_lt.1 hloose
  | @binary _ op l r left right ihl ihr =>
    have hl := reads_enclose left.bare ihl (l.groupedBase op)
    have hr := reads_enclose right.bare ihr (r.groupedRight op.precedence)
    have hleft : op.precedence ≤ if l.groupedBase op then .application else l.precedence := by
      split
      · cases op <;> decide
      · rename_i hnot
        rw [groupedBase, left.groupedLeft, Bool.or_eq_true, not_or] at hnot
        have hloose : ¬ l.precedence < op.precedence := by simpa using hnot.1
        exact Nat.not_lt.1 hloose
    have hright : op.precedence <
        if r.groupedRight op.precedence then .application else r.precedence := by
      rw [right.groupedRight (by cases op <;> decide)]
      split
      · cases op <;> decide
      · rename_i hnot
        have htight : ¬ r.precedence ≤ op.precedence := by simpa using hnot
        exact Nat.not_le.1 htight
    by_cases hop : op = .pow
    · subst hop
      have hlevel : (if r.groupedRight BinaryOp.pow.precedence then .application
          else r.precedence) = Precedence.application := by
        revert hright
        generalize (if r.groupedRight BinaryOp.pow.precedence then Precedence.application
          else r.precedence) = level
        cases level <;> decide
      rw [hlevel] at hr
      rw [regrouped_pow]
      exact reads_power hl hr hleft
    · have hloose : op.precedence ≤ .factor := by
        cases op <;> first | decide | exact absurd rfl hop
      have hbinary := reads_binary hloose hl hr hleft hright (Expr.binary op l r).endsNegative
      rw [enclosed_nil, enclosed_nil] at hbinary
      rw [regrouped_binary hop]
      exact hbinary
  | call _ noPrimes canonical notD writable ih =>
    exact reads_call noPrimes canonical notD writable.bare ih
  | derivative _ writable ih => exact reads_derivative writable.bare ih
  | derivativeAt _ left right ihl ihr => exact reads_derivativeAt left.bare ihl right.bare ihr

/-- No lexeme is a blank. -/
theorem filter_place (ws : List Lexeme) (start : Nat) :
    (place start ws).filter (·.kind != .blank) = place start ws := by
  induction ws generalizing start with
  | nil => rfl
  | cons w ws ih =>
    have hw : (w.kind != .blank) = true := by cases w <;> rfl
    simp [place, Lexeme.token, hw, ih]

/-- The text of a writable expression is read as the regrouped one, up to rearranged signs. -/
theorem regains_text (h : Writable signs elements e) :
    Regains e (e.regrouped []) (.ofText e.text) := by
  rw [Expr.ofText, Reading.read, h.scan_text, filter_place]
  exact group_regains h.bare (reads_lexemes h) _ _

end Formulary.Reading
