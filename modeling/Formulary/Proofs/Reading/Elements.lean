import Formulary.Reading.Formula

/-!
# Reading one element

What the reader does with the tokens at the front of a group: one lemma for each way to go on.

`Steps` is the induction over the reader. It names these ways once for everything that is shown of a
whole reading: what is said of a group, of the state after some elements and of a call has to follow
from what is said of the groups, elements and calls that are read on the way.
-/

namespace Formulary.Reading

open Formulary.Expr State

variable {settings : Settings} {scope : Scope} {outer : Span} {t : Token} {ts : List Token}
  {s : State}

/-- What comes next is not the argument of a name or a subscript. -/
def Continues (ts : List Token) : Prop :=
  ∀ t ∈ ts.head?, t.kind ≠ .openParen ∧ t.kind ≠ .openBracket

/-- Where no name is bound, every name stands for itself. -/
theorem nameParts_nil (name : String) : nameParts [] name = [name] := by
  have hsplit (fuel : Nat) (cs : List Char) : Scope.splitChars [] fuel cs = none := by
    cases fuel <;> simp [Scope.splitChars]
  simp [nameParts, Scope.split?, hsplit]

theorem elements_nil : elements settings scope outer [] s = s := by rw [elements]

theorem elements_closeParen (ht : t.kind = .closeParen) :
    elements settings scope outer (t :: ts) s =
      elements settings scope outer ts (s.closeImplicit settings.negativeNumbers) := by
  rw [elements, ht]

theorem elements_number (ht : t.kind = .number) :
    elements settings scope outer (t :: ts) s =
      elements settings scope outer ts
        (s.pushOperand settings.negativeNumbers (number settings t) t.span.start) := by
  rw [elements, ht]

theorem elements_operator {op : BinaryOp} (ht : t.kind = .operator op) :
    elements settings scope outer (t :: ts) s =
      elements settings scope outer ts (s.pushOperator settings.negativeNumbers op t.span) := by
  rw [elements, ht]

/-! ## Groups -/

/-- A closed group is read on its own and becomes one operand. -/
theorem elements_group {g : Enclosed} (ht : t.kind = .openParen)
    (hg : closing .openParen .closeParen 0 ts = some g) :
    elements settings scope outer (t :: ts) s =
      elements settings scope outer g.rest (s.pushOperand settings.negativeNumbers
        (group settings scope g.inner ⟨t.span.stop, g.close.span.start⟩) t.span.start) := by
  rw [elements, ht]
  dsimp only
  split
  · rename_i g' hg'
    obtain rfl : g = g' := Option.some.inj (hg.symm.trans hg')
    rfl
  · rename_i hnone
    rw [hg] at hnone
    cases hnone

/-- A group that is not closed takes all the tokens that are left. -/
theorem elements_openGroup (ht : t.kind = .openParen)
    (hg : closing .openParen .closeParen 0 ts = none) :
    elements settings scope outer (t :: ts) s =
      s.pushOperand settings.negativeNumbers
        (unclosed t ')' (group settings scope ts ⟨t.span.stop, outer.stop⟩)) t.span.start := by
  rw [elements, ht]
  dsimp only
  split
  · rename_i g' hg'
    rw [hg] at hg'
    cases hg'
  · rfl

/-- Bars are the function of the absolute value of what they enclose. -/
theorem elements_bars {g : Enclosed} (ht : t.kind = .bar) (hg : closingBar 0 true ts = some g) :
    elements settings scope outer (t :: ts) s =
      elements settings scope outer g.rest (s.pushOperand settings.negativeNumbers
        (.callNamed "abs" (group settings scope g.inner ⟨t.span.stop, g.close.span.start⟩))
        t.span.start) := by
  rw [elements, ht]
  dsimp only
  split
  · rename_i g' hg'
    obtain rfl : g = g' := Option.some.inj (hg.symm.trans hg')
    rfl
  · rename_i hnone
    rw [hg] at hnone
    cases hnone

theorem elements_openBar (ht : t.kind = .bar) (hg : closingBar 0 true ts = none) :
    elements settings scope outer (t :: ts) s =
      s.pushOperand settings.negativeNumbers
        (.callNamed "abs" (unclosed t '|' (group settings scope ts ⟨t.span.stop, outer.stop⟩)))
        t.span.start := by
  rw [elements, ht]
  dsimp only
  split
  · rename_i g' hg'
    rw [hg] at hg'
    cases hg'
  · rfl

/-! ## Names -/

section

variable {s' : State} {name : String} {start : Nat} {u : Token}

theorem elements_lastName (ht : t.kind = .name)
    (hparts : pushParts settings.negativeNumbers s t.span.start (nameParts scope t.lexeme) =
      (s', name, start)) :
    elements settings scope outer [t] s =
      s'.pushOperand settings.negativeNumbers (.var name) start := by
  rw [elements, ht]
  dsimp only
  rw [hparts]

/-- A name is an operand if nothing adjacent makes it a call or an element. -/
theorem elements_name (ht : t.kind = .name)
    (hparts : pushParts settings.negativeNumbers s t.span.start (nameParts scope t.lexeme) =
      (s', name, start))
    (hcall : ¬ (u.span.start = t.span.stop ∧ u.kind = .openParen ∧ name ∉ scope))
    (hbracket : ¬ (u.span.start = t.span.stop ∧ u.kind = .openBracket)) :
    elements settings scope outer (t :: u :: ts) s =
      elements settings scope outer (u :: ts)
        (s'.pushOperand settings.negativeNumbers (.var name) start) := by
  rw [elements, ht]
  dsimp only
  rw [hparts]
  dsimp only
  rw [if_neg hcall, if_neg hbracket]

/-- A name that is not bound, with a closed group next to it, is a call. -/
theorem elements_call {g : Enclosed} (ht : t.kind = .name)
    (hparts : pushParts settings.negativeNumbers s t.span.start (nameParts scope t.lexeme) =
      (s', name, start))
    (hcall : u.span.start = t.span.stop ∧ u.kind = .openParen ∧ name ∉ scope)
    (hg : closing .openParen .closeParen 0 ts = some g) :
    elements settings scope outer (t :: u :: ts) s =
      elements settings scope outer g.rest (s'.pushOperand settings.negativeNumbers
        (call settings scope name g.inner ⟨u.span.stop, g.close.span.start⟩) start) := by
  rw [elements, ht]
  dsimp only
  rw [hparts]
  dsimp only
  rw [if_pos hcall]
  split
  · rename_i g' hg'
    obtain rfl : g = g' := Option.some.inj (hg.symm.trans hg')
    rfl
  · rename_i hnone
    rw [hg] at hnone
    cases hnone

theorem elements_openCall (ht : t.kind = .name)
    (hparts : pushParts settings.negativeNumbers s t.span.start (nameParts scope t.lexeme) =
      (s', name, start))
    (hcall : u.span.start = t.span.stop ∧ u.kind = .openParen ∧ name ∉ scope)
    (hg : closing .openParen .closeParen 0 ts = none) :
    elements settings scope outer (t :: u :: ts) s =
      s'.pushOperand settings.negativeNumbers
        (unclosed u ')' (call settings scope name ts ⟨u.span.stop, outer.stop⟩)) start := by
  rw [elements, ht]
  dsimp only
  rw [hparts]
  dsimp only
  rw [if_pos hcall]
  split
  · rename_i g' hg'
    rw [hg] at hg'
    cases hg'
  · rfl

/-- A name with closed brackets next to it is an element of a sequence. -/
theorem elements_subscript {g : Enclosed} (ht : t.kind = .name)
    (hparts : pushParts settings.negativeNumbers s t.span.start (nameParts scope t.lexeme) =
      (s', name, start))
    (hbracket : u.span.start = t.span.stop ∧ u.kind = .openBracket)
    (hg : closing .openBracket .closeBracket 0 ts = some g) :
    elements settings scope outer (t :: u :: ts) s =
      elements settings scope outer g.rest (s'.pushOperand settings.negativeNumbers
        (if g.inner.any (·.kind == .openBracket) then
          .invalidPart ⟨⟨u.span.start, g.close.span.stop⟩, .nestedSubscript⟩ (.var name)
        else
          element name (group settings scope g.inner ⟨u.span.stop, g.close.span.start⟩)
            ⟨u.span.start, g.close.span.stop⟩) start) := by
  have hcall : ¬ (u.span.start = t.span.stop ∧ u.kind = .openParen ∧ name ∉ scope) := by
    simp [hbracket.2]
  rw [elements, ht]
  dsimp only
  rw [hparts]
  dsimp only
  rw [if_neg hcall, if_pos hbracket]
  split
  · rename_i g' hg'
    obtain rfl : g = g' := Option.some.inj (hg.symm.trans hg')
    rfl
  · rename_i hnone
    rw [hg] at hnone
    cases hnone

theorem elements_openSubscript (ht : t.kind = .name)
    (hparts : pushParts settings.negativeNumbers s t.span.start (nameParts scope t.lexeme) =
      (s', name, start))
    (hbracket : u.span.start = t.span.stop ∧ u.kind = .openBracket)
    (hg : closing .openBracket .closeBracket 0 ts = none) :
    elements settings scope outer (t :: u :: ts) s =
      s'.pushOperand settings.negativeNumbers
        (if ts.any (·.kind == .openBracket) then
          .invalidPart ⟨⟨u.span.start, outer.stop⟩, .nestedSubscript⟩ (.var name)
        else
          unclosed u ']' (.element name (group settings scope ts ⟨u.span.stop, outer.stop⟩)))
        start := by
  have hcall : ¬ (u.span.start = t.span.stop ∧ u.kind = .openParen ∧ name ∉ scope) := by
    simp [hbracket.2]
  rw [elements, ht]
  dsimp only
  rw [hparts]
  dsimp only
  rw [if_neg hcall, if_pos hbracket]
  split
  · rename_i g' hg'
    rw [hg] at hg'
    cases hg'
  · rfl

end

/-! ## Symbols without a meaning -/

theorem elements_unrecognized (ht : t.kind = .blank ∨ t.kind = .comma ∨ t.kind = .openBracket ∨
    t.kind = .closeBracket ∨ t.kind = .symbol) :
    elements settings scope outer (t :: ts) s =
      elements settings scope outer ts (s.note ⟨t.span, .unrecognizedSymbol t.lexeme⟩) := by
  rw [elements]
  rcases ht with ht | ht | ht | ht | ht <;> rw [ht]

/-! ## Calls of the derivative operator -/

/-- There is always a first argument, empty if there are no tokens. -/
theorem arguments_ne_nil (depth : Int) (ts : List Token) : arguments depth ts ≠ [] := by
  cases ts with
  | nil => simp [arguments]
  | cons t ts =>
    unfold arguments
    split
    · simp
    · dsimp only
      split <;> simp

section

variable {tokens body x point : List Token} {span : Span}

theorem call_other {name : String} (hname : name ≠ "D") (tokens : List Token) (span : Span) :
    call settings scope name tokens span = .callNamed name (group settings scope tokens span) := by
  rw [call, if_neg hname]

theorem call_D_one (h : arguments 0 tokens = [body]) :
    call settings scope "D" tokens span =
      .derivative (group settings scope body (spanOf body span)) "x" := by
  rw [call, if_pos rfl]
  split <;> rename_i heq <;> rw [h] at heq <;> cases heq
  rfl

theorem call_D_two (h : arguments 0 tokens = [body, x]) :
    call settings scope "D" tokens span =
      derivativeBy (group settings scope body (spanOf body span)) x span none := by
  rw [call, if_pos rfl]
  split <;> rename_i heq <;> rw [h] at heq <;> cases heq
  rfl

/-- Beyond the point, the arguments of the derivative operator are dropped. -/
theorem call_D_three {others : List (List Token)}
    (h : arguments 0 tokens = body :: x :: point :: others) :
    call settings scope "D" tokens span =
      derivativeBy (group settings scope body (spanOf body span)) x span
        (some (group settings scope point (spanOf point span))) := by
  rw [call, if_pos rfl]
  split <;> rename_i heq <;> rw [h] at heq <;> cases heq
  rfl

end

/-! ## The induction over the reader -/

/-- What is said of a group and the expression that it is read as, of the state before some elements
and the state after them, and of a call and the expression that it is read as, is kept by each step
of the reader. -/
structure Steps (settings : Settings) (scope : Scope) (G : List Token → Span → Expr → Prop)
    (E : Span → List Token → State → State → Prop)
    (C : String → List Token → Span → Expr → Prop) : Prop where
  empty {tokens : List Token} {outer : Span} (h : (strip tokens outer).1 = []) :
    G tokens outer (.invalid ⟨(strip tokens outer).2, .emptyExpression⟩)
  group {tokens : List Token} {outer : Span} {last : State} (h : (strip tokens outer).1 ≠ [])
    (inside : E (strip tokens outer).2 (strip tokens outer).1 {} last) :
    G tokens outer (last.finish settings.negativeNumbers (strip tokens outer).2)
  nil (outer : Span) (s : State) : E outer [] s s
  closeParen {outer : Span} {s last : State} {t : Token} {ts : List Token}
    (ht : t.kind = .closeParen)
    (rest : E outer ts (s.closeImplicit settings.negativeNumbers) last) :
    E outer (t :: ts) s last
  parentheses {outer : Span} {s last : State} {t : Token} {ts : List Token} {g : Enclosed}
    {e : Expr} (ht : t.kind = .openParen) (hg : closing .openParen .closeParen 0 ts = some g)
    (inside : G g.inner ⟨t.span.stop, g.close.span.start⟩ e)
    (rest : E outer g.rest (s.pushOperand settings.negativeNumbers e t.span.start) last) :
    E outer (t :: ts) s last
  openParen {outer : Span} {s : State} {t : Token} {ts : List Token} {e : Expr}
    (ht : t.kind = .openParen) (hg : closing .openParen .closeParen 0 ts = none)
    (inside : G ts ⟨t.span.stop, outer.stop⟩ e) :
    E outer (t :: ts) s (s.pushOperand settings.negativeNumbers (unclosed t ')' e) t.span.start)
  bars {outer : Span} {s last : State} {t : Token} {ts : List Token} {g : Enclosed} {e : Expr}
    (ht : t.kind = .bar) (hg : closingBar 0 true ts = some g)
    (inside : G g.inner ⟨t.span.stop, g.close.span.start⟩ e)
    (rest : E outer g.rest
      (s.pushOperand settings.negativeNumbers (.callNamed "abs" e) t.span.start) last) :
    E outer (t :: ts) s last
  openBar {outer : Span} {s : State} {t : Token} {ts : List Token} {e : Expr}
    (ht : t.kind = .bar) (hg : closingBar 0 true ts = none)
    (inside : G ts ⟨t.span.stop, outer.stop⟩ e) :
    E outer (t :: ts) s
      (s.pushOperand settings.negativeNumbers (.callNamed "abs" (unclosed t '|' e)) t.span.start)
  number {outer : Span} {s last : State} {t : Token} {ts : List Token} (ht : t.kind = .number)
    (rest : E outer ts
      (s.pushOperand settings.negativeNumbers (number settings t) t.span.start) last) :
    E outer (t :: ts) s last
  lastName {outer : Span} {s s' : State} {t : Token} {name : String} {start : Nat}
    (ht : t.kind = .name)
    (hparts : pushParts settings.negativeNumbers s t.span.start (nameParts scope t.lexeme) =
      (s', name, start)) :
    E outer [t] s (s'.pushOperand settings.negativeNumbers (.var name) start)
  name {outer : Span} {s s' last : State} {t u : Token} {ts : List Token} {name : String}
    {start : Nat} (ht : t.kind = .name)
    (hparts : pushParts settings.negativeNumbers s t.span.start (nameParts scope t.lexeme) =
      (s', name, start))
    (hcall : ¬ (u.span.start = t.span.stop ∧ u.kind = .openParen ∧ name ∉ scope))
    (hbracket : ¬ (u.span.start = t.span.stop ∧ u.kind = .openBracket))
    (rest : E outer (u :: ts) (s'.pushOperand settings.negativeNumbers (.var name) start) last) :
    E outer (t :: u :: ts) s last
  call {outer : Span} {s s' last : State} {t u : Token} {ts : List Token} {name : String}
    {start : Nat} {g : Enclosed} {e : Expr} (ht : t.kind = .name)
    (hparts : pushParts settings.negativeNumbers s t.span.start (nameParts scope t.lexeme) =
      (s', name, start))
    (hcall : u.span.start = t.span.stop ∧ u.kind = .openParen ∧ name ∉ scope)
    (hg : closing .openParen .closeParen 0 ts = some g)
    (inside : C name g.inner ⟨u.span.stop, g.close.span.start⟩ e)
    (rest : E outer g.rest (s'.pushOperand settings.negativeNumbers e start) last) :
    E outer (t :: u :: ts) s last
  openCall {outer : Span} {s s' : State} {t u : Token} {ts : List Token} {name : String}
    {start : Nat} {e : Expr} (ht : t.kind = .name)
    (hparts : pushParts settings.negativeNumbers s t.span.start (nameParts scope t.lexeme) =
      (s', name, start))
    (hcall : u.span.start = t.span.stop ∧ u.kind = .openParen ∧ name ∉ scope)
    (hg : closing .openParen .closeParen 0 ts = none)
    (inside : C name ts ⟨u.span.stop, outer.stop⟩ e) :
    E outer (t :: u :: ts) s (s'.pushOperand settings.negativeNumbers (unclosed u ')' e) start)
  subscript {outer : Span} {s s' last : State} {t u : Token} {ts : List Token} {name : String}
    {start : Nat} {g : Enclosed} {e : Expr} (ht : t.kind = .name)
    (hparts : pushParts settings.negativeNumbers s t.span.start (nameParts scope t.lexeme) =
      (s', name, start))
    (hbracket : u.span.start = t.span.stop ∧ u.kind = .openBracket)
    (hg : closing .openBracket .closeBracket 0 ts = some g)
    (hplain : ∀ v ∈ g.inner, v.kind ≠ .openBracket)
    (inside : G g.inner ⟨u.span.stop, g.close.span.start⟩ e)
    (rest : E outer g.rest (s'.pushOperand settings.negativeNumbers
      (element name e ⟨u.span.start, g.close.span.stop⟩) start) last) :
    E outer (t :: u :: ts) s last
  nestedSubscript {outer : Span} {s s' last : State} {t u : Token} {ts : List Token} {name : String}
    {start : Nat} {g : Enclosed} (ht : t.kind = .name)
    (hparts : pushParts settings.negativeNumbers s t.span.start (nameParts scope t.lexeme) =
      (s', name, start))
    (hbracket : u.span.start = t.span.stop ∧ u.kind = .openBracket)
    (hg : closing .openBracket .closeBracket 0 ts = some g)
    (rest : E outer g.rest (s'.pushOperand settings.negativeNumbers
      (.invalidPart ⟨⟨u.span.start, g.close.span.stop⟩, .nestedSubscript⟩ (.var name)) start)
      last) :
    E outer (t :: u :: ts) s last
  openSubscript {outer : Span} {s s' : State} {t u : Token} {ts : List Token} {name : String}
    {start : Nat} {e : Expr} (ht : t.kind = .name)
    (hparts : pushParts settings.negativeNumbers s t.span.start (nameParts scope t.lexeme) =
      (s', name, start))
    (hbracket : u.span.start = t.span.stop ∧ u.kind = .openBracket)
    (hg : closing .openBracket .closeBracket 0 ts = none)
    (hplain : ∀ v ∈ ts, v.kind ≠ .openBracket) (inside : G ts ⟨u.span.stop, outer.stop⟩ e) :
    E outer (t :: u :: ts) s
      (s'.pushOperand settings.negativeNumbers (unclosed u ']' (.element name e)) start)
  openNestedSubscript {outer : Span} {s s' : State} {t u : Token} {ts : List Token} {name : String}
    {start : Nat} (ht : t.kind = .name)
    (hparts : pushParts settings.negativeNumbers s t.span.start (nameParts scope t.lexeme) =
      (s', name, start))
    (hbracket : u.span.start = t.span.stop ∧ u.kind = .openBracket)
    (hg : closing .openBracket .closeBracket 0 ts = none) :
    E outer (t :: u :: ts) s (s'.pushOperand settings.negativeNumbers
      (.invalidPart ⟨⟨u.span.start, outer.stop⟩, .nestedSubscript⟩ (.var name)) start)
  operator {outer : Span} {s last : State} {t : Token} {ts : List Token} {op : BinaryOp}
    (ht : t.kind = .operator op)
    (rest : E outer ts (s.pushOperator settings.negativeNumbers op t.span) last) :
    E outer (t :: ts) s last
  unrecognized {outer : Span} {s last : State} {t : Token} {ts : List Token}
    (ht : t.kind = .blank ∨ t.kind = .comma ∨ t.kind = .openBracket ∨ t.kind = .closeBracket ∨
      t.kind = .symbol)
    (rest : E outer ts (s.note ⟨t.span, .unrecognizedSymbol t.lexeme⟩) last) :
    E outer (t :: ts) s last
  derivative {tokens body : List Token} {span : Span} {e : Expr}
    (harguments : arguments 0 tokens = [body]) (inside : G body (spanOf body span) e) :
    C "D" tokens span (.derivative e "x")
  derivativeByName {tokens body x : List Token} {span : Span} {e : Expr}
    (harguments : arguments 0 tokens = [body, x]) (inside : G body (spanOf body span) e) :
    C "D" tokens span (derivativeBy e x span none)
  derivativeAtPoint {tokens body x point : List Token} {others : List (List Token)} {span : Span}
    {e p : Expr} (harguments : arguments 0 tokens = body :: x :: point :: others)
    (inside : G body (spanOf body span) e) (insidePoint : G point (spanOf point span) p) :
    C "D" tokens span (derivativeBy e x span (some p))
  function {tokens : List Token} {span : Span} {name : String} {e : Expr} (hname : name ≠ "D")
    (inside : G tokens span e) : C name tokens span (.callNamed name e)

/-- What each step of the reader keeps holds of everything that is read. -/
theorem Steps.reads {G : List Token → Span → Expr → Prop}
    {E : Span → List Token → State → State → Prop} {C : String → List Token → Span → Expr → Prop}
    (h : Steps settings scope G E C) :
    (∀ tokens outer, G tokens outer (Reading.group settings scope tokens outer)) ∧
      (∀ outer tokens s, E outer tokens s (elements settings scope outer tokens s)) ∧
      ∀ name tokens span, C name tokens span (Reading.call settings scope name tokens span) := by
  refine Reading.group.mutual_induct settings scope
    (fun tokens outer => G tokens outer (Reading.group settings scope tokens outer))
    (fun outer tokens s => E outer tokens s (elements settings scope outer tokens s))
    (fun name tokens span => C name tokens span (Reading.call settings scope name tokens span))
    ?empty ?group ?nil ?closeParen ?parentheses ?openParen ?bars ?openBar ?number ?lastName ?call
    ?openCall ?subscript ?openSubscript ?name ?operator ?blank ?comma ?openBracket ?closeBracket
    ?symbol ?noArgument ?derivative ?derivativeByName ?derivativeAtPoint ?function
  case empty =>
    intro tokens outer stripped _ hnil
    rw [Reading.group, show strip tokens outer = stripped from rfl, hnil]
    exact h.empty hnil
  case group =>
    intro tokens outer stripped _ head tail hcons inside
    have hne : stripped.1 ≠ [] := by simp [hcons]
    rw [Reading.group, show strip tokens outer = stripped from rfl]
    split
    · exact absurd ‹stripped.1 = []› hne
    · exact h.group hne inside
  case nil =>
    intro outer s
    rw [elements_nil]
    exact h.nil outer s
  case closeParen =>
    intro outer s t ts ht rest
    rw [elements_closeParen ht]
    exact h.closeParen ht rest
  case parentheses =>
    intro outer s t ts ht g hg _ e inside rest
    rw [elements_group ht hg]
    exact h.parentheses ht hg inside rest
  case openParen =>
    intro outer s t ts ht hg inside
    rw [elements_openGroup ht hg]
    exact h.openParen ht hg inside
  case bars =>
    intro outer s t ts ht g hg _ e inside rest
    rw [elements_bars ht hg]
    exact h.bars ht hg inside rest
  case openBar =>
    intro outer s t ts ht hg inside
    rw [elements_openBar ht hg]
    exact h.openBar ht hg inside
  case number =>
    intro outer s t ts ht rest
    rw [elements_number ht]
    exact h.number ht rest
  case lastName =>
    intro outer s t ht s' name start hparts
    rw [elements_lastName ht hparts]
    exact h.lastName ht hparts
  case call =>
    intro outer s t ht s' name start hparts u ts hcall g hg _ e inside rest
    rw [elements_call ht hparts hcall hg]
    exact h.call ht hparts hcall hg inside rest
  case openCall =>
    intro outer s t ht s' name start hparts u ts hcall hg inside
    rw [elements_openCall ht hparts hcall hg]
    exact h.openCall ht hparts hcall hg inside
  case subscript =>
    intro outer s t ht s' name start hparts u ts _ hbracket g hg _ brackets e inside rest
    rw [elements_subscript ht hparts hbracket hg]
    unfold e at rest
    split at rest
    · rename_i hnested
      rw [if_pos hnested]
      exact h.nestedSubscript ht hparts hbracket hg rest
    · rename_i hplain
      rw [if_neg hplain]
      exact h.subscript ht hparts hbracket hg (by simpa using hplain) inside rest
  case openSubscript =>
    intro outer s t ht s' name start hparts u ts _ hbracket hg inside
    rw [elements_openSubscript ht hparts hbracket hg]
    split
    · exact h.openNestedSubscript ht hparts hbracket hg
    · rename_i hplain
      exact h.openSubscript ht hparts hbracket hg (by simpa using hplain) inside
  case name =>
    intro outer s t ht s' name start hparts u ts hcall hbracket rest
    rw [elements_name ht hparts hcall hbracket]
    exact h.name ht hparts hcall hbracket rest
  case operator =>
    intro outer s t ts op ht rest
    rw [elements_operator ht]
    exact h.operator ht rest
  case blank | comma | openBracket | closeBracket | symbol =>
    intro outer s t ts ht rest
    have hkinds : t.kind = .blank ∨ t.kind = .comma ∨ t.kind = .openBracket ∨
        t.kind = .closeBracket ∨ t.kind = .symbol := by simp [ht]
    rw [elements_unrecognized hkinds]
    exact h.unrecognized hkinds rest
  case noArgument =>
    intro tokens span hnone
    exact absurd hnone (arguments_ne_nil 0 tokens)
  case derivative =>
    intro tokens span body harguments _ inside
    rw [call_D_one harguments]
    exact h.derivative harguments inside
  case derivativeByName =>
    intro tokens span body x harguments _ inside
    rw [call_D_two harguments]
    exact h.derivativeByName harguments inside
  case derivativeAtPoint =>
    intro tokens span body x point others harguments _ _ inside insidePoint
    rw [call_D_three harguments]
    exact h.derivativeAtPoint harguments inside insidePoint
  case function =>
    intro name tokens span hname inside
    rw [call_other hname]
    exact h.function hname inside

end Formulary.Reading
