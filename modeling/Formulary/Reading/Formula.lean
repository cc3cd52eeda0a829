import Formulary.Decimal.Reading
import Formulary.Reading.Group
import Formulary.Reading.Stack
import Formulary.Scope

/-!
# Reading a formula

`Reading.read` turns a source text into an expression. Groups, bars, subscripts and arguments are
read inside out; two elements side by side are multiplied. A name in front of an opening
parenthesis is a function, unless it is bound, and a name that is not bound may be the product of
names that are. Every problem becomes an issue in the expression.
-/

namespace Formulary.Reading

/-- Reads a literal. -/
def number (settings : Settings) (t : Token) : Expr :=
  let literal := Expr.number (.ofDouble ((Double.read? t.lexeme).getD Double.nan))
  if settings.noDecimals && t.lexeme.toList.contains '.' then
    .invalidPart ⟨t.span, .wholeNumbersOnly⟩ literal
  else literal

/-- The bound names a name is put together from, or the name alone. -/
def nameParts (scope : Scope) (name : String) : List String :=
  if scope.contains name then [name] else (scope.split? name).getD [name]

/-- Adds the names a name is put together from as operands, all but the last one, which is handed
back with its offset. -/
def pushParts (negativeNumbers : Bool) (s : State) (start : Nat) :
    List String → State × String × Nat
  | [] => (s, "", start)
  | [last] => (s, last, start)
  | part :: parts =>
    pushParts negativeNumbers (s.pushOperand negativeNumbers (.var part) start)
      (start + part.utf8ByteSize) parts

/-- An element of a sequence, or the issue that its index depends on several names. -/
def element (sequence : String) (index : Expr) (brackets : Span) : Expr :=
  let e := Expr.element sequence index
  match index.dependencies with
  | x :: y :: names => .invalidPart ⟨brackets, .multipleIndexVariables (x :: y :: names)⟩ e
  | _ => e

/-- What is left of a group that is never closed. -/
def unclosed (opening : Token) (close : Char) (part : Expr) : Expr :=
  .invalidPart ⟨opening.span, .unbalanced close⟩ part

/-- The derivative of an expression, given the tokens of its variable and the point. -/
def derivativeBy (body : Expr) (variableTokens : List Token) (arguments : Span)
    (point : Option Expr) : Expr :=
  let derivative (name : String) : Expr :=
    match point with
    | none => .derivative body name
    | some point => .derivativeAt body name point
  let issue := Expr.invalidPart ⟨spanOf variableTokens arguments, .derivativeVariable⟩
  match variableTokens with
  | [t] => if t.kind = .name then derivative t.lexeme else issue (derivative "x")
  | _ => issue (derivative "x")

mutual

/-- Reads the tokens of a group that covers a region. -/
def group (settings : Settings) (scope : Scope) (tokens : List Token) (outer : Span) : Expr :=
  let stripped := strip tokens outer
  have := length_strip tokens outer
  match stripped.1 with
  | [] => .invalid ⟨stripped.2, .emptyExpression⟩
  | _ :: _ =>
    (elements settings scope stripped.2 stripped.1 {}).finish settings.negativeNumbers stripped.2
termination_by 3 * tokens.length + 1
decreasing_by omega

/-- Reads the elements of a group that covers a region, one after the other. -/
def elements (settings : Settings) (scope : Scope) (outer : Span) (tokens : List Token)
    (s : State) : State :=
  match tokens with
  | [] => s
  | t :: ts =>
    match t.kind with
    | .closeParen => elements settings scope outer ts (s.closeImplicit settings.negativeNumbers)
    | .openParen =>
      match _h : closing .openParen .closeParen 0 ts with
      | some g =>
        have := length_closing _h
        let e := group settings scope g.inner ⟨t.span.stop, g.close.span.start⟩
        elements settings scope outer g.rest
          (s.pushOperand settings.negativeNumbers e t.span.start)
      | none =>
        let e := group settings scope ts ⟨t.span.stop, outer.stop⟩
        s.pushOperand settings.negativeNumbers (unclosed t ')' e) t.span.start
    | .bar =>
      match _h : closingBar 0 true ts with
      | some g =>
        have := length_closingBar _h
        let e := group settings scope g.inner ⟨t.span.stop, g.close.span.start⟩
        elements settings scope outer g.rest
          (s.pushOperand settings.negativeNumbers (.callNamed "abs" e) t.span.start)
      | none =>
        let e := group settings scope ts ⟨t.span.stop, outer.stop⟩
        s.pushOperand settings.negativeNumbers (.callNamed "abs" (unclosed t '|' e)) t.span.start
    | .number =>
      elements settings scope outer ts
        (s.pushOperand settings.negativeNumbers (number settings t) t.span.start)
    | .name =>
      let (s, name, start) :=
        pushParts settings.negativeNumbers s t.span.start (nameParts scope t.lexeme)
      match ts with
      | [] => s.pushOperand settings.negativeNumbers (.var name) start
      | opening :: rest =>
        if opening.span.start = t.span.stop ∧ opening.kind = .openParen ∧ name ∉ scope then
          match _h : closing .openParen .closeParen 0 rest with
          | some g =>
            have := length_closing _h
            let e := call settings scope name g.inner ⟨opening.span.stop, g.close.span.start⟩
            elements settings scope outer g.rest (s.pushOperand settings.negativeNumbers e start)
          | none =>
            let e := call settings scope name rest ⟨opening.span.stop, outer.stop⟩
            s.pushOperand settings.negativeNumbers (unclosed opening ')' e) start
        else if opening.span.start = t.span.stop ∧ opening.kind = .openBracket then
          match _h : closing .openBracket .closeBracket 0 rest with
          | some g =>
            have := length_closing _h
            let brackets : Span := ⟨opening.span.start, g.close.span.stop⟩
            let e :=
              if g.inner.any (·.kind == .openBracket) then
                .invalidPart ⟨brackets, .nestedSubscript⟩ (.var name)
              else
                element name
                  (group settings scope g.inner ⟨opening.span.stop, g.close.span.start⟩) brackets
            elements settings scope outer g.rest (s.pushOperand settings.negativeNumbers e start)
          | none =>
            let e :=
              if rest.any (·.kind == .openBracket) then
                .invalidPart ⟨⟨opening.span.start, outer.stop⟩, .nestedSubscript⟩ (.var name)
              else
                unclosed opening ']' (.element name
                  (group settings scope rest ⟨opening.span.stop, outer.stop⟩))
            s.pushOperand settings.negativeNumbers e start
        else
          elements settings scope outer (opening :: rest)
            (s.pushOperand settings.negativeNumbers (.var name) start)
    | .operator op =>
      elements settings scope outer ts (s.pushOperator settings.negativeNumbers op t.span)
    | .blank | .comma | .openBracket | .closeBracket | .symbol =>
      elements settings scope outer ts (s.note ⟨t.span, .unrecognizedSymbol t.lexeme⟩)
termination_by 3 * tokens.length
decreasing_by all_goals simp only [List.length_cons] at *; omega

/-- Reads the arguments of a function, or of the derivative operator: an expression, a variable,
which is `x` if it is left out, and a point. -/
def call (settings : Settings) (scope : Scope) (name : String) (tokens : List Token)
    (span : Span) : Expr :=
  if name = "D" then
    match _h : arguments 0 tokens with
    | [] => .invalid ⟨span, .emptyExpression⟩
    | [body] =>
      have := length_arguments (_h ▸ List.mem_cons_self : body ∈ _)
      .derivative (group settings scope body (spanOf body span)) "x"
    | [body, x] =>
      have := length_arguments (_h ▸ List.mem_cons_self : body ∈ _)
      derivativeBy (group settings scope body (spanOf body span)) x span none
    | body :: x :: point :: _ =>
      have := length_arguments (_h ▸ List.mem_cons_self : body ∈ _)
      have := length_arguments
        (_h ▸ List.mem_cons_of_mem _ (List.mem_cons_of_mem _ List.mem_cons_self) : point ∈ _)
      derivativeBy (group settings scope body (spanOf body span)) x span
        (some (group settings scope point (spanOf point span)))
  else .callNamed name (group settings scope tokens span)
termination_by 3 * tokens.length + 2
decreasing_by all_goals omega

end

/-- Reads a formula with the names of a scope bound. -/
def read (settings : Settings) (scope : Scope) (source : String) : Expr :=
  group settings scope ((Token.scan source).filter (·.kind != .blank)) ⟨0, source.utf8ByteSize⟩

end Formulary.Reading

namespace Formulary.Expr

/-- Reads a formula in which no name is bound, with the default settings. -/
def ofText (source : String) : Expr := Reading.read {} [] source

end Formulary.Expr
