import Formulary.Proofs.Exact.Functions
import Formulary.Proofs.Number.Exact
import Formulary.Proofs.Reading.Printed

/-!
# Legible expressions

An expression is legible if its canonical text can be read, fractions and operations on several
operands included: its literals are fractions with small parts and its names are names for the
tokenizer. Its text is then read with the value of the expression, as long as the bases of its
powers are closed (`value_ofText_text`). A fraction is read as a quotient, and an operation on
several operands as operations on two.
-/

namespace Formulary.Expr

open Exact Reading Token

/-- The canonical text of the node can be read if the texts of its parts can. -/
def IsLegible : Expr → Prop
  | number (.exact r) => r.num.natAbs < literalBound ∧ r.den < literalBound
  | var name => IsName name
  | unary op _ => op ≠ .plus
  | binary _ _ _ => True
  | nary _ es => 2 ≤ es.length
  | call function primes _ =>
    IsName function ∧ Names.primes function = 0 ∧ Names.canonical function = function ∧
      (function = "D" → primes ≠ 0)
  | _ => False

instance (e : Expr) : Decidable e.IsLegible :=
  match e with
  | number (.exact _) | call _ _ _ => inferInstanceAs (Decidable (_ ∧ _))
  | var name => inferInstanceAs (Decidable (IsName name))
  | unary op _ => inferInstanceAs (Decidable (op ≠ .plus))
  | nary _ es => inferInstanceAs (Decidable (2 ≤ es.length))
  | binary _ _ _ => .isTrue trivial
  | number (.real _) | element _ _ | derivative _ _ | derivativeAt _ _ _ | invalid _
  | invalidPart _ _ => .isFalse id

/-- The canonical text of the expression can be read. -/
def Legible (e : Expr) : Prop := ∀ node ∈ e.nodes, node.IsLegible

/-- The canonical text of the expression can be read, and all exponents in it are read as
exponents. -/
structure Readable (e : Expr) : Prop where
  legible : e.Legible
  closed : e.basesClosed = true

instance (e : Expr) : Decidable e.Legible :=
  inferInstanceAs (Decidable (∀ node ∈ e.nodes, node.IsLegible))

instance (e : Expr) : Decidable e.Readable :=
  decidable_of_iff (e.Legible ∧ e.basesClosed = true) ⟨fun h => ⟨h.1, h.2⟩, fun h => ⟨h.1, h.2⟩⟩

/-- How tightly the canonical text of an expression binds; that of a fraction is a quotient. -/
def textLevel : Expr → Precedence
  | number n => if n.isInteger then .application else .factor
  | e => e.precedence

theorem legible_iff {e : Expr} :
    e.Legible ↔ e.IsLegible ∧ ∀ part ∈ e.children, part.Legible :=
  forall_mem_nodes

/-! ## Parentheses -/

section

variable {e : Expr} {parent : Precedence}

theorem not_of_operation {k : Kind} (hk : k = .unary ∨ k = .binary ∨ k = .nary) {p : Prop}
    [Decidable p] (h : (decide (Kind.unary ≤ k) && decide p) = false) : ¬ p := by
  rcases hk with rfl | rfl | rfl <;> exact decide_eq_false_iff_not.1 h

theorem le_application (p : Precedence) : p ≤ .application := by cases p <;> decide

/-- An operand without parentheses binds tightly enough. A fraction is in parentheses under a
product and under anything tighter. -/
theorem lt_factor_of_fraction {n : Number} (h : (number n).IsLegible)
    (hfraction : n.isInteger = false) (hgrouped : (number n).isFractionUnder parent = false) :
    parent < .factor := by
  have hexact : n.isExact = true := by
    cases n with
    | exact r => rfl
    | real v => cases h
  simp only [isFractionUnder, hfraction, hexact, Bool.not_false, Bool.true_and,
    decide_eq_false_iff_not] at hgrouped
  exact Nat.not_le.1 hgrouped

/-- What stands on the left without parentheses binds at least as tightly as what is around it. -/
theorem fits_left (h : e.IsLegible) (hgrouped : e.groupedLeft parent = false) :
    parent ≤ e.textLevel := by
  rw [groupedLeft, Bool.or_eq_false_iff] at hgrouped
  obtain ⟨hoperation, hfraction⟩ := hgrouped
  cases e with
  | number n =>
    rw [textLevel]
    split
    · exact le_application parent
    · rename_i hn
      exact Nat.le_of_lt (lt_factor_of_fraction h (Bool.not_eq_true _ ▸ hn) hfraction)
  | var | call => exact le_application parent
  | unary | binary | nary =>
    exact Nat.not_lt.1 (not_of_operation (by simp [kind]) hoperation)
  | _ => exact h.elim

/-- What stands on the right without parentheses binds more tightly than what is around it. -/
theorem fits_right (h : e.IsLegible) (hparent : parent < .application)
    (hgrouped : e.groupedRight parent = false) : parent < e.textLevel := by
  rw [groupedRight, Bool.or_eq_false_iff] at hgrouped
  obtain ⟨hoperation, hfraction⟩ := hgrouped
  cases e with
  | number n =>
    rw [textLevel]
    split
    · exact hparent
    · rename_i hn
      exact lt_factor_of_fraction h (Bool.not_eq_true _ ▸ hn) hfraction
  | var | call => exact hparent
  | unary | binary | nary =>
    exact Nat.not_le.1 (not_of_operation (by simp [kind]) hoperation)
  | _ => exact h.elim

end

/-! ## The lexemes of a text -/

/-- The lexemes make the text of `e`, and they write an expression that always has its value. -/
structure Written (e : Expr) (text : List Char) (level : Precedence) (exposed : Bool) (u : Expr)
    (ws : List Lexeme) : Prop where
  same (I : Interpretation) : value I u = value I e
  spells : text = spell ws
  prints : Prints level exposed u ws

/-- The canonical text of the expression is written by lexemes. -/
def TextWritten (e : Expr) : Prop :=
  ∃ u ws, Written e e.text.toList e.textLevel e.endsNegative u ws

/-- A number is written as a literal or a quotient of two, with a sign in front if it has one. -/
theorem written_number {r : ℚ} (h : (number (.exact r)).IsLegible) :
    TextWritten (number (.exact r)) := by
  obtain ⟨hnum, hden⟩ := h
  by_cases hr : r.den = 1
  · have hk : Number.exact r = .ofInt r.num := Number.eq_ofInt_of_isInteger (beq_iff_eq.2 hr)
    have hlevel : (number (.exact r)).textLevel = .application := by
      simp [textLevel, Number.isInteger, hr]
    have hnegative : (number (.exact r)).endsNegative = decide (r.num < 0) := by
      rw [endsNegative, hk]
      exact Number.isNegative_ofInt (by unfold literalBound at hnum; omega)
    refine ⟨.ofInt r.num, literalLexemes r.num, ?_⟩
    rw [hlevel, hnegative]
    refine ⟨fun I => by rw [Expr.ofInt, ← hk], ?_, .literal hnum⟩
    rw [text, Number.write, if_pos hr, toList_toString]
  · have hlevel : (number (.exact r)).textLevel = .factor := by
      simp [textLevel, Number.isInteger, hr]
    refine ⟨.binary .div (.ofInt r.num) (.ofInt r.den),
      literalLexemes r.num ++ .operator .div :: literalLexemes r.den, ?_⟩
    rw [hlevel]
    refine ⟨fun I => ?_, ?_, ?_⟩
    · funext ρ
      have hne : (r.den : ℚ) ≠ 0 := Nat.cast_ne_zero.2 r.den_ne_zero
      simp [value, Exact.binary, quotient, Expr.ofInt, Number.ofInt, literal, hne, Rat.num_div_den]
    · have hdenominator : (toString r.den).toList = spell (literalLexemes r.den) :=
        toList_toString r.den
      rw [text, Number.write, if_neg hr, String.toList_append, String.toList_append,
        toList_toString, hdenominator]
      simp [spell, Lexeme.chars, BinaryOp.symbol]
    · have hsmall : (r.den : Int).natAbs < literalBound := by simpa using hden
      have hfactor : BinaryOp.div.precedence ≤ .factor := by decide
      have htight : BinaryOp.div.precedence < .application := by decide
      exact .binary hfactor false false _ (.literal hnum) (.literal hsmall) (le_application _)
        htight

/-- A sign and the lexemes of the operand, in parentheses if it needs them, write the operation. -/
theorem written_unary {op : UnaryOp} (notPlus : op ≠ .plus) {e : Expr} (h : e.IsLegible)
    (he : TextWritten e) : TextWritten (unary op e) := by
  obtain ⟨u, ws, hsame, hspells, hprints⟩ := he
  refine ⟨.unary op u, _, fun I => ?_, ?_,
    .unary notPlus (e.groupedLeft op.precedence) hprints ?_⟩
  · funext ρ
    rw [value, value, hsame]
  · have hsymbol : op.symbol = (signToken op).symbol := by cases op <;> rfl
    rw [text, String.toList_append, spell_enclose _ _ _ hspells, hsymbol]
    simp [spell, Lexeme.chars]
  · split
    · exact le_application _
    · rename_i hopen
      exact fits_left h (Bool.not_eq_true _ ▸ hopen)

/-- The text of a binary operation, once the texts of its operands are spelled. -/
theorem spell_binary (op : BinaryOp) {l r : Expr} {vs ws : List Lexeme}
    (hl : l.text.toList = spell vs) (hr : r.text.toList = spell ws) :
    (binary op l r).text.toList = spell (enclose (l.groupedBase op) vs ++
      .operator op :: enclose (r.groupedRight op.precedence) ws) := by
  rw [text, String.toList_append, String.toList_append, spell_enclose _ _ _ hl,
    spell_enclose _ _ _ hr]
  simp [spell, Lexeme.chars]

/-- The lexemes of both operands write the operation, if the base is closed. -/
theorem written_binary {op : BinaryOp} {l r : Expr} (hl : l.IsLegible) (hr : r.IsLegible)
    (hclosed : (binary op l r).baseClosed = true) (hleft : TextWritten l) (hright : TextWritten r) :
    TextWritten (binary op l r) := by
  obtain ⟨u, vs, hsameLeft, hspellsLeft, hprintsLeft⟩ := hleft
  obtain ⟨v, ws, hsameRight, hspellsRight, hprintsRight⟩ := hright
  have hparent : op.precedence < .application := by cases op <;> decide
  have hleftFits : op.precedence ≤ if l.groupedBase op then .application else l.textLevel := by
    split
    · exact le_application _
    · rename_i hopen
      rw [groupedBase, Bool.not_eq_true, Bool.or_eq_false_iff] at hopen
      exact fits_left hl hopen.1
  have hrightFits :
      op.precedence < if r.groupedRight op.precedence then .application else r.textLevel := by
    split
    · exact hparent
    · rename_i hopen
      exact fits_right hr hparent (Bool.not_eq_true _ ▸ hopen)
  refine ⟨.binary op u v, _, fun I => ?_, spell_binary op hspellsLeft hspellsRight, ?_⟩
  · funext ρ
    rw [value, value, hsameLeft, hsameRight]
  · by_cases hop : op = .pow
    · subst hop
      refine .power (l.groupedBase .pow) (r.groupedRight BinaryOp.pow.precedence) hprintsLeft
        hprintsRight hleftFits ?_ ?_
      · simpa [baseClosed] using hclosed
      · revert hrightFits
        generalize (if r.groupedRight BinaryOp.pow.precedence then Precedence.application
          else r.textLevel) = level
        cases level <;> decide
    · have hloose : op.precedence ≤ .factor := by
        cases op <;> first | decide | exact absurd rfl hop
      exact .binary hloose _ _ _ hprintsLeft hprintsRight hleftFits hrightFits

/-- The name of a function and the lexemes of the argument write the call. -/
theorem written_call {function : String} {primes : Nat} {e : Expr}
    (h : (call function primes e).IsLegible) (he : TextWritten e) :
    TextWritten (call function primes e) := by
  obtain ⟨isName, noPrimes, canonical, notD⟩ := h
  obtain ⟨u, ws, hsame, hspells, hprints⟩ := he
  refine ⟨.call function primes u, _, fun I => ?_, ?_,
    .call isName noPrimes canonical notD hprints⟩
  · funext ρ
    rw [value, value, hsame]
  · simp [text, applied, spell, Lexeme.chars, hspells]

/-! ## Several operands -/

/-- The operands after the first are joined from the left. -/
theorem written_rest (op : Family) {es : List Expr} (hne : es ≠ [])
    (hlegible : ∀ e ∈ es, e.IsLegible) (hes : ∀ e ∈ es, TextWritten e) {level : Precedence}
    {exposed : Bool} {u : Expr} {ws : List Lexeme} (grouped : Bool)
    (hu : Prints level exposed u ws)
    (hfits : op.precedence ≤ if grouped then .application else level) :
    ∃ v vs, (∀ I ρ, value I v ρ =
        (do return family op ((← value I u ρ) :: (← values I es ρ)))) ∧
      spell (enclose grouped ws) ++ (textRest op es).toList = spell vs ∧
      Prints op.precedence false v vs := by
  have hloose : op.binary.precedence ≤ .factor := by cases op <;> decide
  have hparent : op.precedence < .application := by cases op <;> decide
  induction es generalizing level exposed u ws grouped with
  | nil => exact absurd rfl hne
  | cons e es ih =>
    rw [List.forall_mem_cons] at hlegible hes
    obtain ⟨v, vs, hsame, hspells, hprints⟩ := hes.1
    have hrightFits :
        op.precedence < if e.groupedRight op.precedence then .application else e.textLevel := by
      split
      · exact hparent
      · rename_i hopen
        exact fits_right hlegible.1 hparent (Bool.not_eq_true _ ▸ hopen)
    have hjoined : Prints op.precedence false (.binary op.binary u v)
        (enclose grouped ws ++ .operator op.binary :: enclose (e.groupedRight op.precedence) vs) :=
      .binary hloose _ _ _ hu hprints hfits hrightFits
    have htext : spell (enclose grouped ws) ++ (textRest op (e :: es)).toList =
        spell (enclose grouped ws ++
          .operator op.binary :: enclose (e.groupedRight op.precedence) vs) ++
            (textRest op es).toList := by
      rw [textRest, String.toList_append, String.toList_append, spell_enclose _ _ _ hspells]
      simp [spell, Lexeme.chars, Family.symbol]
    have hvalue (I : Interpretation) (ρ : Assignment) : value I (.binary op.binary u v) ρ =
        (do return family op [(← value I u ρ), (← value I e ρ)]) := by
      simp only [value, hsame, binary_family]
      rfl
    rw [htext]
    cases hrest : es with
    | nil =>
      refine ⟨_, _, fun I ρ => ?_, by simp [textRest], hjoined⟩
      rw [hvalue]
      cases value I u ρ <;> cases hq : value I e ρ <;> simp [values, hq]
    | cons f fs =>
      rw [← hrest]
      obtain ⟨w, us, hwhole, hspells, hprints⟩ := ih (by simp [hrest]) hlegible.2 hes.2 false
        hjoined (Nat.le_refl _)
      refine ⟨w, us, fun I ρ => ?_, hspells, hprints⟩
      rw [hwhole, hvalue]
      cases value I u ρ <;> cases hq : value I e ρ <;> cases hqs : values I es ρ <;>
        simp [values, hq, hqs, ← family_cons_cons]

/-- A sum or product is written like the chain of its operands, which has the same value. -/
theorem written_nary {op : Family} {es : List Expr} (h : (nary op es).IsLegible)
    (hlegible : ∀ e ∈ es, e.IsLegible) (hes : ∀ e ∈ es, TextWritten e) :
    TextWritten (nary op es) := by
  match es, h with
  | first :: second :: rest, _ =>
    rw [List.forall_mem_cons] at hlegible hes
    obtain ⟨u, ws, hsame, hspells, hprints⟩ := hes.1
    have hparent : op.precedence < .application := by cases op <;> decide
    have hfits :
        op.precedence ≤ if first.groupedRight op.precedence then .application
          else first.textLevel := by
      split
      · exact le_application _
      · rename_i hopen
        exact Nat.le_of_lt (fits_right hlegible.1 hparent (Bool.not_eq_true _ ▸ hopen))
    obtain ⟨v, vs, hwhole, hspellsAll, hprintsAll⟩ := written_rest op (by simp) hlegible.2 hes.2
      (first.groupedRight op.precedence) hprints hfits
    refine ⟨v, vs, fun I => ?_, ?_, hprintsAll⟩
    · funext ρ
      have hcons : values I (first :: second :: rest) ρ =
          (do return (← value I first ρ) :: (← values I (second :: rest) ρ)) := by rw [values]
      rw [hwhole, hsame, value, hcons]
      cases value I first ρ <;> cases values I (second :: rest) ρ <;> rfl
    · rw [text, String.toList_append, spell_enclose _ _ _ hspells]
      exact hspellsAll

/-! ## Reading the text again -/

/-- The text of a legible expression with closed bases is written by lexemes. -/
theorem textWritten (e : Expr) (h : e.Legible) (hclosed : e.basesClosed = true) :
    TextWritten e := by
  induction e using Expr.induction with
  | number n =>
    have hroot := (legible_iff.1 h).1
    cases n with
    | exact r => exact written_number hroot
    | real v => cases hroot
  | var name =>
    refine ⟨.var name, _, fun _ => rfl, ?_, .var (legible_iff.1 h).1⟩
    simp [text, spell, Lexeme.chars]
  | unary op u ih =>
    obtain ⟨notPlus, hparts⟩ := legible_iff.1 h
    have hu := hparts u List.mem_cons_self
    rw [basesClosed_eq] at hclosed
    refine written_unary notPlus (legible_iff.1 hu).1 (ih hu ?_)
    simpa [baseClosed, children] using hclosed
  | binary op l r ihl ihr =>
    obtain ⟨-, hparts⟩ := legible_iff.1 h
    obtain ⟨hl, hr⟩ := forall_mem_pair.1 hparts
    rw [basesClosed_eq] at hclosed
    simp only [children, List.all_cons, List.all_nil, Bool.and_eq_true] at hclosed
    obtain ⟨hbase, hlclosed, hrclosed, -⟩ := hclosed
    exact written_binary (legible_iff.1 hl).1 (legible_iff.1 hr).1 hbase (ihl hl hlclosed)
      (ihr hr hrclosed)
  | nary op es ih =>
    obtain ⟨hroot, hparts⟩ := legible_iff.1 h
    rw [basesClosed_eq] at hclosed
    have hall : ∀ e ∈ es, e.basesClosed = true := by simpa [baseClosed, children] using hclosed
    exact written_nary hroot (fun e he => (legible_iff.1 (hparts e he)).1)
      fun e he => ih e he (hparts e he) (hall e he)
  | call function primes u ih =>
    obtain ⟨hroot, hparts⟩ := legible_iff.1 h
    rw [basesClosed_eq] at hclosed
    refine written_call hroot (ih (hparts u List.mem_cons_self) ?_)
    simpa [baseClosed, children] using hclosed
  | _ => exact (legible_iff.1 h).1.elim

/-- The canonical text of a readable expression is read with the value of the expression. -/
theorem value_ofText_text {e : Expr} (h : e.Readable) (I : Interpretation) :
    value I (Expr.ofText e.text) = value I e := by
  obtain ⟨u, ws, hsame, hspells, hprints⟩ := textWritten e h.legible h.closed
  rw [← (hprints.regains hspells).rearranged.value_eq I, hsame]

theorem mem_parenthesized {c : Char} {text : String} (h : c ∈ text.toList) (grouped : Bool) :
    c ∈ (parenthesized grouped text).toList := by
  cases grouped <;> simp [parenthesized, h]

theorem mem_textRest {c : Char} {op : Family} {e : Expr} (h : c ∈ e.text.toList)
    {es : List Expr} (he : e ∈ es) : c ∈ (textRest op es).toList := by
  induction es with
  | nil => cases he
  | cons d es ih =>
    rw [textRest, String.toList_append, String.toList_append, List.mem_append, List.mem_append]
    rcases List.mem_cons.1 he with rfl | he
    · exact .inl (.inr (mem_parenthesized h _))
    · exact .inr (ih he)

/-- The text of a part stands in the text of the expression. -/
theorem mem_text_of_child {c : Char} {e part : Expr} (hpart : part ∈ e.children)
    (h : c ∈ part.text.toList) : c ∈ e.text.toList := by
  cases e with
  | number | var | invalid => cases hpart
  | nary op es =>
    cases es with
    | nil => cases hpart
    | cons first rest =>
      rw [text, String.toList_append, List.mem_append]
      rcases List.mem_cons.1 hpart with rfl | hpart
      · exact .inl (mem_parenthesized h _)
      · exact .inr (mem_textRest h hpart)
  | element | derivative | invalidPart | call =>
    obtain rfl := List.mem_singleton.1 hpart
    simp [text, h]
  | unary op u =>
    obtain rfl := List.mem_singleton.1 hpart
    simp [text, mem_parenthesized h]
  | binary op l r =>
    rcases List.mem_pair.1 hpart with rfl | rfl <;> simp [text, mem_parenthesized h]
  | derivativeAt body name point =>
    rcases List.mem_pair.1 hpart with rfl | rfl <;> simp [text, h]

/-- Without a power no base is left open. -/
theorem basesClosed_of_text (e : Expr) (h : '^' ∉ e.text.toList) : e.basesClosed = true := by
  induction e using induction_children with
  | step e ih =>
    have hbase : e.baseClosed = true := by
      cases e with
      | binary op l r =>
        cases op with
        | pow => exact absurd (by simp [text, BinaryOp.symbol]) h
        | _ => rfl
      | _ => rfl
    have hparts : ∀ part ∈ e.children, part.basesClosed = true :=
      fun part hpart => ih part hpart fun hmem => h (mem_text_of_child hpart hmem)
    rw [basesClosed_eq, hbase, Bool.true_and, List.all_eq_true]
    exact hparts

end Formulary.Expr
