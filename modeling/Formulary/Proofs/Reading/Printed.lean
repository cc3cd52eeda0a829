import Formulary.Proofs.Reading.Text

/-!
# Texts with parentheses

`Prints` relates an expression to the lexemes that write it, with parentheses wherever they are
needed and possibly elsewhere. An operand may do without them if it binds tightly enough, and the
base of a power also must not end in a negative literal. Whatever is written like that is read as
the expression, up to rearranged signs.

A canonical text is one such text, of an expression in which fractions are quotients and sums and
products have two operands each.
-/

namespace Formulary.Reading

open Formulary.Expr State Token

/-- The lexemes write the expression. They bind at least at a level, and they end in a negative
literal only if `exposed`. -/
inductive Prints : (level : Precedence) → (exposed : Bool) → Expr → List Lexeme → Prop
  | literal {k : Int} (small : k.natAbs < literalBound) :
      Prints .application (decide (k < 0)) (.ofInt k) (literalLexemes k)
  | var {name : String} (isName : IsName name) :
      Prints .application false (.var name) [.name name]
  | unary {op : UnaryOp} (notPlus : op ≠ .plus) {level : Precedence} {exposed : Bool} {e : Expr}
      {ws : List Lexeme} (grouped : Bool) (operand : Prints level exposed e ws)
      (fits : op.precedence ≤ if grouped then .application else level) :
      Prints op.precedence (!grouped && exposed) (.unary op e)
        (.operator (signToken op) :: enclose grouped ws)
  | binary {op : BinaryOp} (loose : op.precedence ≤ .factor)
      {leftLevel rightLevel : Precedence} {leftExposed rightExposed : Bool} {l r : Expr}
      {vs ws : List Lexeme} (leftGrouped rightGrouped exposed : Bool)
      (left : Prints leftLevel leftExposed l vs) (right : Prints rightLevel rightExposed r ws)
      (leftFits : op.precedence ≤ if leftGrouped then .application else leftLevel)
      (rightFits : op.precedence < if rightGrouped then .application else rightLevel) :
      Prints op.precedence exposed (.binary op l r)
        (enclose leftGrouped vs ++ .operator op :: enclose rightGrouped ws)
  | power {leftLevel rightLevel : Precedence} {leftExposed rightExposed : Bool} {l r : Expr}
      {vs ws : List Lexeme} (leftGrouped rightGrouped : Bool)
      (left : Prints leftLevel leftExposed l vs) (right : Prints rightLevel rightExposed r ws)
      (leftFits : Precedence.power ≤ if leftGrouped then .application else leftLevel)
      (closed : leftGrouped = true ∨ leftExposed = false)
      (rightFits : (if rightGrouped then .application else rightLevel) = Precedence.application) :
      Prints .power (!rightGrouped && rightExposed) (.binary .pow l r)
        (enclose leftGrouped vs ++ .operator .pow :: enclose rightGrouped ws)
  | call {function : String} {primes : Nat} (isName : IsName function)
      (noPrimes : Names.primes function = 0) (canonical : Names.canonical function = function)
      (notD : function = "D" → primes ≠ 0) {level : Precedence} {exposed : Bool} {e : Expr}
      {ws : List Lexeme} (argument : Prints level exposed e ws) :
      Prints .application false (.call function primes e)
        (applied (Names.withPrimes function primes) ws)

section

variable {level : Precedence} {exposed : Bool} {e : Expr} {ws : List Lexeme}

/-! ## Tokens -/

theorem Prints.separated (h : Prints level exposed e ws) : Separated ws := by
  induction h with
  | literal _ => exact separated_literal _
  | var isName => exact separated_singleton isName
  | unary _ _ _ _ ih => exact separated_cons (separated_enclose ih) trivial rfl
  | binary _ _ _ _ _ _ _ _ ihl ihr =>
    exact separated_append_cons (separated_enclose ihl) (separated_enclose ihr) trivial rfl
  | power _ _ _ _ _ _ _ ihl ihr =>
    exact separated_append_cons (separated_enclose ihl) (separated_enclose ihr) trivial rfl
  | call isName _ _ _ _ ih => exact separated_applied (isName.withPrimes _) ih

theorem Prints.bare (h : Prints level exposed e ws) : Bare ws := by
  induction h with
  | literal _ => exact ⟨fun _ start => balanced_literal _ start, ongoing_literal _⟩
  | var _ => exact ⟨fun _ _ => .plain rfl, .inl (by simp)⟩
  | unary _ _ _ _ ih =>
    exact ⟨fun _ _ => .cons rfl (balanced_enclose ih.balanced _), .inl (by simp)⟩
  | binary _ _ _ _ _ _ _ _ ihl ihr | power _ _ _ _ _ _ _ ihl ihr =>
    refine ⟨fun _ _ => ?_, ihl.ongoing_enclose _ _ _⟩
    rw [place_append]
    exact .append (balanced_enclose ihl.balanced _) (.cons rfl (balanced_enclose ihr.balanced _))
  | call _ _ _ _ _ ih =>
    exact ⟨fun _ _ => balanced_applied (ih.balanced true) _, .inl (by simp [applied])⟩

/-! ## Reading -/

/-- The lexemes are read as the expression, also with exponents after them where they may take
exponents. -/
def ReadsBack (level : Precedence) (exposed : Bool) (e : Expr) (ws : List Lexeme) : Prop :=
  ∃ read, Reads level exposed e read ws ∧ Rearranged e (read []) ∧
    (.power ≤ level → exposed = false → ∀ es, Rearranged (powers e es) (read es))

theorem readsBack_operand (h : Reads .application false e (powers e) ws) :
    ReadsBack .application false e ws :=
  ⟨powers e, h, .refl e, fun _ _ es => .refl (powers e es)⟩

theorem readsBack_enclose (hw : Bare ws) (h : ReadsBack level exposed e ws) (grouped : Bool) :
    ReadsBack (if grouped then .application else level) (!grouped && exposed) e
      (enclose grouped ws) := by
  obtain ⟨read, hread, hself, hpowers⟩ := h
  refine ⟨enclosed grouped read, reads_enclose hw hread grouped, ?_, fun hlevel hclosed es => ?_⟩
  · rw [enclosed_nil]
    exact hself
  · refine rearranged_enclosed hself fun hopen => ?_
    subst hopen
    exact hpowers hlevel hclosed es

/-- What the program writes with these lexemes reads back from them. -/
theorem Prints.readsBack (h : Prints level exposed e ws) : ReadsBack level exposed e ws := by
  induction h with
  | @literal k small =>
    refine ⟨_, reads_literal small, ?_, fun _ hclosed es => ?_⟩
    · simp [Expr.ofInt, regrouped, powers, Rearranged.refl]
    · rw [regrouped_nonneg small (by simpa using hclosed)]
      exact .refl _
  | var _ => exact readsBack_operand reads_var
  | @unary op notPlus _ _ e ws grouped operand fits ih =>
    obtain ⟨read, hread, hself, hpowers⟩ := readsBack_enclose operand.bare ih grouped
    refine ⟨_, reads_unary notPlus fits hread, .unary op hself, fun hlevel hclosed es => ?_⟩
    -- Only a reciprocal binds as tightly as a power.
    obtain rfl : op = .recip := by
      cases op <;> first | rfl | exact absurd hlevel (by decide)
    exact .trans (rearranged_powers_recip e es)
      (.unary .recip (hpowers (Nat.le_trans hlevel fits) hclosed es))
  | @binary op loose _ _ _ _ l r vs ws leftGrouped rightGrouped exposed left right leftFits
      rightFits ihl ihr =>
    obtain ⟨leftRead, hleft, hl, -⟩ := readsBack_enclose left.bare ihl leftGrouped
    obtain ⟨rightRead, hright, hr, -⟩ := readsBack_enclose right.bare ihr rightGrouped
    refine ⟨_, reads_binary loose hleft hright leftFits rightFits exposed, ?_, fun hlevel => ?_⟩
    · exact .binary op hl hr
    · exact absurd (Nat.le_trans hlevel loose) (by decide)
  | @power _ _ leftExposed rightExposed l r vs ws leftGrouped rightGrouped left right leftFits
      closed rightFits ihl ihr =>
    obtain ⟨leftRead, hleft, -, hpowers⟩ := readsBack_enclose left.bare ihl leftGrouped
    obtain ⟨rightRead, hright, hr, -⟩ := readsBack_enclose right.bare ihr rightGrouped
    have hclosed : (!leftGrouped && leftExposed) = false := by
      rcases closed with rfl | rfl <;> simp
    rw [rightFits] at hright
    have hall (exponents : List Expr) :
        Rearranged (powers l (r :: exponents)) (leftRead (rightRead [] :: exponents)) := by
      have hexponent : Rearranged (powers l (r :: exponents))
          (powers l (rightRead [] :: exponents)) :=
        rearranged_powers_base (.binary .pow (.refl l) hr) exponents
      exact .trans hexponent (hpowers leftFits hclosed _)
    refine ⟨_, reads_power hleft hright leftFits, ?_, fun _ hopen es => ?_⟩
    · rw [readPower, ite_self]
      exact hall []
    · rw [readPower, hopen]
      exact hall es
  | @call function primes _ noPrimes canonical notD _ _ e ws argument ih =>
    obtain ⟨read, hread, hself, -⟩ := ih
    have hcall := reads_call noPrimes canonical notD argument.bare hread
    refine ⟨_, hcall, .call function primes hself, fun _ _ es => ?_⟩
    exact rearranged_powers_base (.call function primes hself) es

/-- A text that writes an expression is read as that expression, up to rearranged signs. -/
theorem Prints.regains (h : Prints level exposed e ws) {text : String}
    (htext : text.toList = spell ws) : Regains e e (.ofText text) := by
  obtain ⟨read, hread, hself, -⟩ := h.readsBack
  have hgroup : Expr.ofText text = group {} [] (place 0 ws) ⟨0, text.utf8ByteSize⟩ := by
    rw [Expr.ofText, Reading.read, scan, htext, scanFrom_spell h.separated, filter_place]
  rw [hgroup]
  obtain ⟨hproper, hnames, hrearranged⟩ := group_regains h.bare hread 0 ⟨0, text.utf8ByteSize⟩
  exact ⟨hproper, hnames, .trans hself hrearranged⟩

end

end Formulary.Reading
