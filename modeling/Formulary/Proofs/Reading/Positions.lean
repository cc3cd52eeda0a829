import Formulary.Proofs.Reading.Extents

/-!
# Reading by positions

The reader takes elements off the front of a list and goes on with what is left. Read by positions
instead, the tokens of a group stay where they are. An element starts at a position, a group ends at
the position of the token that closes it, and what is inside is the slice between the two. Here all
of this is checked: there is a token at every position that is looked at, a slice does not reach
beyond the tokens, a name is cut between two of its characters, and nothing is counted down from
zero.

No check ever fails, and the expression is the same (`readAt_eq`). What has been read and what is
still to be read are two lists that together are the tokens, and the position is the length of the
first. So every position that comes up is that of a token between two such lists.
-/

namespace Formulary.Reading

open Formulary.Expr State

/-! ## Checked access -/

/-- What can be wrong with a position. -/
inductive Fault where
  /-- There is no token at the position, or not all of the slice is there. -/
  | outOfRange
  /-- More is taken away from a number than the number. -/
  | underflow
  /-- The position of a byte is inside a character. -/
  | insideCharacter
  /-- More steps are taken, or groups opened, than there are tokens. -/
  | exhausted
deriving DecidableEq, Repr

/-- A result, or what is wrong with a position. -/
abbrev Checked := Except Fault

/-- The token at a position. -/
def tokenAt (tokens : List Token) (i : Nat) : Checked Token :=
  match tokens[i]? with
  | some t => .ok t
  | none => .error .outOfRange

/-- The tokens from one position up to another. -/
def slice (tokens : List Token) (start stop : Nat) : Checked (List Token) :=
  if start ≤ stop ∧ stop ≤ tokens.length then .ok ((tokens.drop start).take (stop - start))
  else .error .outOfRange

/-- The difference of two numbers. -/
def minus (n k : Nat) : Checked Nat := if k ≤ n then .ok (n - k) else .error .underflow

/-! ## Where groups end -/

/-- The position of the token that closes a group, from a position on; `depth` counts the groups
that are open. -/
def closeFrom (opens closes : TokenKind) :
    (depth i : Nat) → List Token → Checked (Option Nat)
  | _, _, [] => .ok none
  | depth, i, t :: ts =>
    if t.kind = opens then closeFrom opens closes (depth + 1) (i + 1) ts
    else if t.kind = closes then do
      let depth ← minus depth 1
      if depth = 0 then .ok (some i) else closeFrom opens closes depth (i + 1) ts
    else closeFrom opens closes depth (i + 1) ts

/-- The position of the token that closes the group opened at a position. -/
def findClose (opens closes : TokenKind) (tokens : List Token) (start : Nat) :
    Checked (Option Nat) :=
  closeFrom opens closes 0 start (tokens.drop start)

/-- The position of the bar that closes an absolute value, from a position on. -/
def closeBarFrom : (depth : Nat) → (afterOpening : Bool) → (i : Nat) → List Token →
    Checked (Option Nat)
  | _, _, _, [] => .ok none
  | depth, afterOpening, i, t :: ts =>
    if t.kind = .bar then
      if afterOpening then closeBarFrom (depth + 1) afterOpening (i + 1) ts
      else do
        let depth ← minus depth 1
        if depth = 0 then .ok (some i) else closeBarFrom depth afterOpening (i + 1) ts
    else closeBarFrom depth (opensBar t.kind) (i + 1) ts

/-- The position of the bar that closes the absolute value opened at a position. -/
def findCloseBar (tokens : List Token) (start : Nat) : Checked (Option Nat) :=
  closeBarFrom 1 true (start + 1) (tokens.drop (start + 1))

/-- The slices between the commas outside of parentheses and brackets, from a position on. -/
def cutFrom (tokens : List Token) :
    (depth : Int) → (start i : Nat) → List Token → Checked (List (List Token))
  | _, start, _, [] => do
    let part ← slice tokens start tokens.length
    return [part]
  | depth, start, i, t :: ts =>
    if t.kind = .comma ∧ depth = 0 then do
      let part ← slice tokens start i
      let parts ← cutFrom tokens depth (i + 1) (i + 1) ts
      return part :: parts
    else cutFrom tokens (depthAfter depth t.kind) start (i + 1) ts

/-- Takes off the parentheses around all tokens. -/
def stripAt : (rounds : Nat) → List Token → Span → Checked (List Token × Span)
  | 0, _, _ => .error .exhausted
  | rounds + 1, tokens, outer =>
    if tokens.length < 2 then .ok (tokens, outer)
    else do
      let first ← tokenAt tokens 0
      if first.kind = .openParen then
        let close ← findClose .openParen .closeParen tokens 0
        let last ← minus tokens.length 1
        if close = some last then
          let close ← tokenAt tokens last
          let inner ← slice tokens 1 last
          stripAt rounds inner ⟨first.span.stop, close.span.start⟩
        else .ok (tokens, outer)
      else .ok (tokens, outer)

/-- The region of the token that closes a group, or the end of the region around the group. -/
def closingRegion (tokens : List Token) (close : Option Nat) (outer : Span) : Checked Span :=
  match close with
  | some close => do
    let t ← tokenAt tokens close
    return t.span
  | none => .ok ⟨outer.stop, outer.stop⟩

/-! ## Names -/

/-- Cuts a text at the position of a byte. -/
def cutAt : (size : Nat) → List Char → Checked (List Char × List Char)
  | 0, cs => .ok ([], cs)
  | _ + 1, [] => .error .outOfRange
  | size + 1, c :: cs =>
    if c.utf8Size ≤ size + 1 then do
      let (front, back) ← cutAt (size + 1 - c.utf8Size) cs
      return (c :: front, back)
    else .error .insideCharacter

/-- The numbers of bytes of the bound names at the front of a text, the longest name first. -/
def beginnings (scope : Scope) (cs : List Char) : List Nat :=
  ((List.range' 1 (cs.length - 1)).reverse.filter fun n =>
    scope.contains (String.ofList (cs.take n))).map fun n =>
      (String.ofList (cs.take n)).utf8ByteSize

/-- Cuts a text at the first of several positions behind which it can be cut into names. -/
def firstCut (behind : List Char → Checked (Option (List String))) (cs : List Char) :
    (sizes : List Nat) → Checked (Option (List String))
  | [] => .ok none
  | size :: sizes => do
    let (front, back) ← cutAt size cs
    match ← behind back with
    | some parts => return some (String.ofList front :: parts)
    | none => firstCut behind cs sizes

/-- Cuts a text into bound names. -/
def cutName (scope : Scope) : (rounds : Nat) → List Char → Checked (Option (List String))
  | 0, _ => .error .exhausted
  | rounds + 1, cs =>
    if scope.contains (String.ofList cs) then .ok (some [String.ofList cs])
    else firstCut (cutName scope rounds) cs (beginnings scope cs)

/-- The bound names a name is put together from, or the name alone. -/
def partsAt (scope : Scope) (name : String) : Checked (List String) :=
  if scope.contains name then .ok [name]
  else do
    let parts ← cutName scope (name.length + 1) name.toList
    return parts.getD [name]

/-! ## Elements -/

section

variable (settings : Settings) (scope : Scope) (inside : List Token → Span → Checked Expr)

/-- Reads the group opened at a position, which ends at another position or never. The second result
is the position of the last token that was used. -/
def enclosedAt (tokens : List Token) (start : Nat) (close : Option Nat) (symbol : Char)
    (outer : Span) : Checked (Expr × Nat) := do
  let opening ← tokenAt tokens start
  match close with
  | some stop =>
    let close ← tokenAt tokens stop
    let inner ← slice tokens (start + 1) stop
    let e ← inside inner ⟨opening.span.stop, close.span.start⟩
    return (e, stop)
  | none =>
    let inner ← slice tokens (start + 1) tokens.length
    let e ← inside inner ⟨opening.span.stop, outer.stop⟩
    let last ← minus tokens.length 1
    return (unclosed opening symbol e, last)

/-- Reads one of the arguments of the derivative operator, if it is there. -/
def argumentAt (parts : List (List Token)) (i : Nat) (span : Span) : Checked (Option Expr) :=
  match parts[i]? with
  | some part => do
    let e ← inside part (spanOf part span)
    return some e
  | none => .ok none

/-- Reads the arguments of the derivative operator. -/
def operatorAt (tokens : List Token) (span : Span) : Checked Expr := do
  let parts ← cutFrom tokens 0 0 0 tokens
  let body ← argumentAt inside parts 0 span
  let point ← argumentAt inside parts 2 span
  let body := body.getD (.invalid ⟨span, .emptyExpression⟩)
  match parts[1]?, point with
  | none, none => return .derivative body "x"
  | none, some point => return .derivativeAt body "x" point
  | some part, point => return derivativeBy body part span point

/-- Reads the arguments of a function. -/
def callAt (name : String) (tokens : List Token) (span : Span) : Checked Expr := do
  if name = "D" then operatorAt inside tokens span
  else
    let e ← inside tokens span
    return .callNamed name e

/-- Reads the arguments of a function in the parentheses opened at a position. The second result is
the position of the last token that was used. -/
def applicationAt (name : String) (tokens : List Token) (start : Nat) (outer : Span) :
    Checked (Expr × Nat) := do
  let close ← findClose .openParen .closeParen tokens start
  let stop := close.getD tokens.length
  let inner ← slice tokens (start + 1) stop
  let opening ← tokenAt tokens start
  let closing ← closingRegion tokens close outer
  let e ← callAt inside name inner ⟨opening.span.stop, closing.start⟩
  let last ← minus tokens.length 1
  return (if close.isNone then unclosed opening ')' e else e, min stop last)

/-- Reads the subscript opened at a position. -/
def subscriptAt (name : String) (tokens : List Token) (start : Nat) (outer : Span) :
    Checked (Expr × Nat) := do
  let close ← findClose .openBracket .closeBracket tokens start
  let stop := close.getD tokens.length
  let inner ← slice tokens (start + 1) stop
  let opening ← tokenAt tokens start
  let closing ← closingRegion tokens close outer
  let last ← minus tokens.length 1
  let brackets : Span := ⟨opening.span.start, closing.stop⟩
  if inner.any (·.kind == .openBracket) then
    return (.invalidPart ⟨brackets, .nestedSubscript⟩ (.var name), min stop last)
  else
    let index ← inside inner ⟨opening.span.stop, closing.start⟩
    let e := if close.isNone then unclosed opening ']' (.element name index)
      else element name index brackets
    return (e, min stop last)

/-- Reads the name at a position, with its arguments or its subscript. -/
def nameAt (tokens : List Token) (start : Nat) (s : State) (outer : Span) :
    Checked (State × Nat) := do
  let t ← tokenAt tokens start
  let parts ← partsAt scope t.lexeme
  let (s, name, offset) := pushParts settings.negativeNumbers s t.span.start parts
  match tokens[start + 1]?.filter (·.span.start == t.span.stop) with
  | none => return (s.pushOperand settings.negativeNumbers (.var name) offset, start)
  | some next =>
    if next.kind = .openParen ∧ name ∉ scope then
      let (e, last) ← applicationAt inside name tokens (start + 1) outer
      return (s.pushOperand settings.negativeNumbers e offset, last)
    else if next.kind = .openBracket then
      let (e, last) ← subscriptAt inside name tokens (start + 1) outer
      return (s.pushOperand settings.negativeNumbers e offset, last)
    else return (s.pushOperand settings.negativeNumbers (.var name) offset, start)

/-- Reads the element at a position. The second result is the position of its last token. -/
def elementAt (tokens : List Token) (i : Nat) (s : State) (outer : Span) :
    Checked (State × Nat) := do
  let t ← tokenAt tokens i
  match t.kind with
  | .closeParen => return (s.closeImplicit settings.negativeNumbers, i)
  | .openParen =>
    let close ← findClose .openParen .closeParen tokens i
    let (e, last) ← enclosedAt inside tokens i close ')' outer
    return (s.pushOperand settings.negativeNumbers e t.span.start, last)
  | .bar =>
    let close ← findCloseBar tokens i
    let (e, last) ← enclosedAt inside tokens i close '|' outer
    return (s.pushOperand settings.negativeNumbers (.callNamed "abs" e) t.span.start, last)
  | .number => return (s.pushOperand settings.negativeNumbers (number settings t) t.span.start, i)
  | .name => nameAt settings scope inside tokens i s outer
  | .operator op => return (s.pushOperator settings.negativeNumbers op t.span, i)
  | .blank | .comma | .openBracket | .closeBracket | .symbol =>
    return (s.note ⟨t.span, .unrecognizedSymbol t.lexeme⟩, i)

/-- Reads the elements from a position on. -/
def elementsAt (outer : Span) (tokens : List Token) :
    (visits i : Nat) → State → Checked State
  | 0, _, _ => .error .exhausted
  | visits + 1, i, s =>
    if i < tokens.length then do
      let (s, last) ← elementAt settings scope inside tokens i s outer
      elementsAt outer tokens visits (last + 1) s
    else .ok s

/-- Reads a group; groups inside it are opened up to a depth. -/
def groupAt : (depth : Nat) → List Token → Span → Checked Expr
  | 0, _, _ => .error .exhausted
  | depth + 1, tokens, outer => do
    let (tokens, outer) ← stripAt (tokens.length + 1) tokens outer
    if tokens.isEmpty then return .invalid ⟨outer, .emptyExpression⟩
    else
      let s ← elementsAt settings scope (groupAt depth) outer tokens (tokens.length + 1) 0 {}
      return s.finish settings.negativeNumbers outer

/-- Reads a formula by the positions of its tokens. -/
def readAt (source : String) : Checked Expr :=
  let tokens := (Token.scan source).filter (·.kind != .blank)
  groupAt settings scope (tokens.length + 1) tokens ⟨0, source.utf8ByteSize⟩

end

/-! ## No access fails -/

section

variable {tokens before part ts rest : List Token} {t u : Token} {opens closes : TokenKind}
  {g : Enclosed}

theorem ok_bind {α β : Type} (a : α) (f : α → Checked β) : (Except.ok a >>= f) = f a := rfl

theorem tokenAt_eq {i : Nat} (h : tokens = before ++ t :: ts) (hi : i = before.length) :
    tokenAt tokens i = .ok t := by
  rw [h, hi, tokenAt, List.getElem?_append_right (Nat.le_refl _), Nat.sub_self,
    List.getElem?_cons_zero]

theorem slice_eq {start stop : Nat} (h : tokens = before ++ (part ++ rest))
    (hstart : start = before.length) (hstop : stop = before.length + part.length) :
    slice tokens start stop = .ok part := by
  have hrange : start ≤ stop ∧ stop ≤ tokens.length := by
    simp only [h, List.length_append]
    omega
  rw [slice, if_pos hrange, h, hstart, List.drop_left, hstop, Nat.add_sub_cancel_left,
    List.take_left]

theorem minus_eq {n k : Nat} (h : k ≤ n) : minus n k = .ok (n - k) := if_pos h

/-- One more token in front of a group puts its end one position further back. -/
theorem position_cons (found : Option Enclosed) (t : Token) (i : Nat) :
    (found.map (Enclosed.cons t)).map (fun g => i + g.inner.length) =
      found.map fun g => i + 1 + g.inner.length := by
  rw [Option.map_map]
  congr 1
  funext g
  simp only [Function.comp_apply, Enclosed.cons, List.length_cons]
  omega

/-- A group is closed at the position of its closing token, if it is closed at all. One more group
is open than the reader counts, which does not count the one it is in. -/
theorem closeFrom_eq (depth i : Nat) (ts : List Token) :
    closeFrom opens closes (depth + 1) i ts =
      .ok ((closing opens closes depth ts).map fun g => i + g.inner.length) := by
  induction ts generalizing depth i with
  | nil => rfl
  | cons t ts ih =>
    rw [closeFrom]
    simp only [closing]
    split
    · rw [ih, position_cons]
    · split
      · cases depth with
        | zero => rfl
        | succ depth =>
          change closeFrom opens closes (depth + 1) (i + 1) ts = _
          rw [ih, position_cons]
      · rw [ih, position_cons]

theorem findClose_eq {i : Nat} (h : tokens = before ++ t :: ts) (hi : i = before.length)
    (ht : t.kind = opens) :
    findClose opens closes tokens i =
      .ok ((closing opens closes 0 ts).map fun g => i + 1 + g.inner.length) := by
  rw [findClose, h, hi, List.drop_left, closeFrom, if_pos ht, closeFrom_eq]

theorem closeBarFrom_eq (depth : Nat) (afterOpening : Bool) (i : Nat) (ts : List Token) :
    closeBarFrom (depth + 1) afterOpening i ts =
      .ok ((closingBar depth afterOpening ts).map fun g => i + g.inner.length) := by
  induction ts generalizing depth afterOpening i with
  | nil => rfl
  | cons t ts ih =>
    rw [closeBarFrom]
    simp only [closingBar]
    split
    · cases afterOpening with
      | true =>
        rw [if_pos rfl, if_pos rfl, ih, position_cons]
      | false =>
        rw [if_neg Bool.false_ne_true, if_neg Bool.false_ne_true]
        cases depth with
        | zero => rfl
        | succ depth =>
          change closeBarFrom (depth + 1) false (i + 1) ts = _
          rw [ih, position_cons]
    · rw [ih, position_cons]

theorem findCloseBar_eq {i : Nat} (h : tokens = before ++ t :: ts) (hi : i = before.length) :
    findCloseBar tokens i =
      .ok ((closingBar 0 true ts).map fun g => i + 1 + g.inner.length) := by
  have hdrop : tokens.drop (i + 1) = ts := by
    rw [h, hi, ← List.drop_drop, List.drop_left, List.drop_one, List.tail_cons]
  rw [findCloseBar, hdrop, closeBarFrom_eq]

/-- The tokens are cut into the arguments. The tokens since the last cut belong to the first of
them. -/
theorem cutFrom_eq (depth : Int) (before part ts : List Token) :
    cutFrom (before ++ (part ++ ts)) depth before.length (before.length + part.length) ts =
      .ok (prependArgument part (arguments depth ts)) := by
  induction ts generalizing depth before part with
  | nil =>
    rw [cutFrom, slice_eq rfl rfl (by simp), ok_bind, arguments, prependArgument, List.append_nil]
    rfl
  | cons t ts ih =>
    rw [cutFrom]
    split
    · rename_i hcomma
      have htail := ih depth (before ++ part ++ [t]) []
      simp only [List.nil_append, List.length_nil, Nat.add_zero, List.append_assoc,
        List.cons_append, List.length_append, List.length_cons, ← Nat.add_assoc] at htail
      rw [prependArgument_nil (arguments_ne_nil depth ts)] at htail
      rw [arguments_separator hcomma, slice_eq rfl rfl rfl, ok_bind, htail, ok_bind,
        prependArgument, List.append_nil]
      rfl
    · rename_i hcomma
      have htail := ih (depthAfter depth t.kind) before (part ++ [t])
      simp only [List.append_assoc, List.cons_append, List.nil_append, List.length_append,
        List.length_cons, List.length_nil, ← Nat.add_assoc] at htail
      rw [arguments_cons hcomma, htail, prependArgument_append _ _ (arguments_ne_nil _ _)]

/-- The parentheses around all tokens are taken off, in fewer rounds than there are tokens. -/
theorem stripAt_eq (rounds : Nat) (tokens : List Token) (outer : Span)
    (h : tokens.length < rounds) : stripAt rounds tokens outer = .ok (strip tokens outer) := by
  obtain ⟨rounds, rfl⟩ := Nat.exists_eq_succ_of_ne_zero (Nat.ne_zero_of_lt h)
  have hfind {t : Token} {ts : List Token} (ht : t.kind = .openParen) :
      findClose .openParen .closeParen (t :: ts) 0 =
        .ok ((closing .openParen .closeParen 0 ts).map fun g => 1 + g.inner.length) :=
    findClose_eq (show t :: ts = [] ++ t :: ts from rfl) rfl ht
  fun_induction strip tokens outer generalizing rounds with
  | case1 outer => rfl
  | case2 outer t ts ht inner close hclosing ih =>
    have hts : ts = inner ++ [close] := (closing_eq_some hclosing).1
    have hlength : (t :: ts).length = inner.length + 2 := by simp [hts]
    have hclose : tokenAt (t :: ts) (inner.length + 1) = .ok close :=
      tokenAt_eq (show t :: ts = (t :: inner) ++ [close] from congrArg (t :: ·) hts) rfl
    have hinner : slice (t :: ts) 1 (inner.length + 1) = .ok inner :=
      slice_eq (show t :: ts = [t] ++ (inner ++ [close]) from congrArg (t :: ·) hts) rfl
        (Nat.add_comm _ _)
    have hlast : minus (t :: ts).length 1 = .ok (inner.length + 1) := by
      rw [hlength]
      rfl
    obtain ⟨rounds, rfl⟩ : ∃ n, rounds = n + 1 := ⟨rounds - 1, by omega⟩
    rw [stripAt, if_neg (by omega), show tokenAt (t :: ts) 0 = .ok t from rfl, ok_bind, if_pos ht,
      hfind ht, ok_bind, hlast, ok_bind, hclosing, Option.map_some, Nat.add_comm 1, if_pos rfl,
      hclose, ok_bind, hinner, ok_bind]
    exact ih rounds (by omega)
  | case3 outer t ts ht hclosing =>
    rw [stripAt]
    split
    · rfl
    · rw [show tokenAt (t :: ts) 0 = .ok t from rfl, ok_bind, if_pos ht, hfind ht, ok_bind,
        minus_eq (by simp), ok_bind, if_neg]
      -- a group that ends at the last token has nothing after it
      intro hlast
      obtain ⟨⟨inner, close, rest⟩, hg, hposition⟩ := Option.map_eq_some_iff.1 hlast
      have hlength := length_closing hg
      have hrest : rest = [] := by
        apply List.length_eq_zero_iff.1
        simp only [List.length_cons] at hposition hlength
        omega
      exact hclosing inner close (hrest ▸ hg)
  | case4 outer t ts ht =>
    rw [stripAt]
    split
    · rfl
    · rw [show tokenAt (t :: ts) 0 = .ok t from rfl, ok_bind, if_neg ht]

end

/-! ### Names -/

theorem size_cons (c : Char) (cs : List Char) :
    (String.ofList (c :: cs)).utf8ByteSize = c.utf8Size + (String.ofList cs).utf8ByteSize := by
  rw [String.ofList_cons, String.utf8ByteSize_append, String.utf8ByteSize_singleton]

/-- A text can be cut where one of its parts ends. -/
theorem cutAt_eq (front back : List Char) :
    cutAt (String.ofList front).utf8ByteSize (front ++ back) = .ok (front, back) := by
  induction front with
  | nil => rw [String.ofList_nil, String.utf8ByteSize_empty, cutAt, List.nil_append]
  | cons c front ih =>
    have hsize := size_cons c front
    have hpos := c.utf8Size_pos
    obtain ⟨size, hsucc⟩ : ∃ n, (String.ofList (c :: front)).utf8ByteSize = n + 1 :=
      ⟨_, (Nat.succ_pred_eq_of_pos (by omega)).symm⟩
    have hrest : size + 1 - c.utf8Size = (String.ofList front).utf8ByteSize := by omega
    rw [hsucc, List.cons_append, cutAt, if_pos (by omega), hrest, ih]
    rfl

section

variable {scope : Scope} {behind : List Char → Checked (Option (List String))} {cs : List Char}

/-- The positions are tried in the order of the numbers of characters in front of them. -/
theorem firstCut_eq {found : List Char → Option (List String)} {ns : List Nat}
    (hbehind : ∀ n ∈ ns, behind (cs.drop n) = .ok (found (cs.drop n))) :
    firstCut behind cs ((ns.filter fun n => scope.contains (String.ofList (cs.take n))).map
        fun n => (String.ofList (cs.take n)).utf8ByteSize) =
      .ok (ns.findSome? fun n =>
        if scope.contains (String.ofList (cs.take n)) then
          (found (cs.drop n)).map (String.ofList (cs.take n) :: ·)
        else none) := by
  induction ns with
  | nil => rfl
  | cons n ns ih =>
    obtain ⟨hn, hns⟩ := List.forall_mem_cons.1 hbehind
    rw [List.findSome?_cons]
    by_cases hbound : scope.contains (String.ofList (cs.take n)) = true
    · have hcut := cutAt_eq (cs.take n) (cs.drop n)
      rw [List.take_append_drop] at hcut
      rw [List.filter_cons, if_pos hbound, List.map_cons, firstCut, hcut, ok_bind]
      dsimp only
      rw [hn, ok_bind, if_pos hbound]
      cases found (cs.drop n) with
      | none => exact ih hns
      | some parts => rfl
    · rw [List.filter_cons, if_neg hbound, if_neg hbound]
      exact ih hns

/-- A text is cut in fewer rounds than it has characters, since no part is empty. -/
theorem cutName_eq (rounds : Nat) (cs : List Char) (h : cs.length < rounds) :
    cutName scope rounds cs = .ok (scope.splitChars rounds cs) := by
  induction rounds generalizing cs with
  | zero => cases h
  | succ rounds ih =>
    rw [cutName, Scope.splitChars]
    split
    · rfl
    · apply firstCut_eq
      intro n hn
      apply ih
      obtain ⟨hpos, hlt⟩ := List.mem_range'_1.1 (List.mem_reverse.1 hn)
      rw [List.length_drop]
      omega

theorem partsAt_eq (scope : Scope) (name : String) :
    partsAt scope name = .ok (nameParts scope name) := by
  unfold partsAt nameParts
  split
  · rfl
  · rw [cutName_eq _ _ (by rw [String.length_toList]; exact Nat.lt_succ_self _)]
    rfl

end

/-! ## The same is read -/

/-- All groups with fewer tokens than a bound are read. -/
def ReadsGroups (settings : Settings) (scope : Scope) (inside : List Token → Span → Checked Expr)
    (bound : Nat) : Prop :=
  ∀ tokens outer, tokens.length < bound →
    inside tokens outer = .ok (group settings scope tokens outer)

/-- Going on behind the last token of an element is reading the element and what is left. -/
def Advances (settings : Settings) (scope : Scope) (outer : Span) (t : Token) (ts : List Token)
    (s : State) (i : Nat) (result : Checked (State × Nat)) : Prop :=
  ∃ s' k, k ≤ ts.length ∧ result = .ok (s', i + k) ∧
    elements settings scope outer (t :: ts) s = elements settings scope outer (ts.drop k) s'

section

variable {settings : Settings} {scope : Scope} {inside : List Token → Span → Checked Expr}
  {tokens before ts : List Token} {t u : Token} {g : Enclosed} {outer span : Span} {s s' : State}
  {name : String} {i start bound : Nat} {symbol : Char} {result : Checked (State × Nat)}

/-- The element is a single token. -/
theorem advances_single (hresult : result = .ok (s', i))
    (h : elements settings scope outer (t :: ts) s = elements settings scope outer ts s') :
    Advances settings scope outer t ts s i result :=
  ⟨s', 0, Nat.zero_le _, hresult, h⟩

/-- The element goes up to the last token. -/
theorem advances_all {last : Nat} (hresult : result = .ok (s', last)) (hlast : last = i + ts.length)
    (h : elements settings scope outer (t :: ts) s = s') :
    Advances settings scope outer t ts s i result := by
  refine ⟨s', ts.length, Nat.le_refl _, hlast ▸ hresult, ?_⟩
  rw [List.drop_length, elements_nil, h]

/-- The element goes up to the token that closes a group. -/
theorem advances_closed (opening : List Token) {last : Nat}
    (hts : ts = opening ++ (g.inner ++ g.close :: g.rest)) (hresult : result = .ok (s', last))
    (hlast : last = i + (opening.length + g.inner.length + 1))
    (h : elements settings scope outer (t :: ts) s = elements settings scope outer g.rest s') :
    Advances settings scope outer t ts s i result := by
  have hdrop : ts.drop (opening.length + g.inner.length + 1) = g.rest := by
    rw [hts, Nat.add_assoc, ← List.drop_drop, List.drop_left, ← List.drop_drop, List.drop_left,
      List.drop_one, List.tail_cons]
  have hlength : opening.length + g.inner.length + 1 ≤ ts.length := by
    simp only [hts, List.length_append, List.length_cons]
    omega
  refine ⟨s', _, hlength, hlast ▸ hresult, ?_⟩
  rw [h, hdrop]

/-! ### Groups -/

/-- The token that closes a group, and the slice in front of it. -/
theorem closed_access (htokens : tokens = before ++ t :: ts)
    (hts : ts = g.inner ++ g.close :: g.rest) :
    tokenAt tokens (before.length + 1 + g.inner.length) = .ok g.close ∧
      slice tokens (before.length + 1) (before.length + 1 + g.inner.length) = .ok g.inner ∧
      before.length + 1 + g.inner.length < tokens.length := by
  have hclose : tokens = (before ++ t :: g.inner) ++ g.close :: g.rest := by simp [htokens, hts]
  have hinner : tokens = (before ++ [t]) ++ (g.inner ++ g.close :: g.rest) := by
    simp [htokens, hts]
  refine ⟨?_, ?_, ?_⟩
  · apply tokenAt_eq hclose
    simp only [List.length_append, List.length_cons]
    omega
  · apply slice_eq hinner
    · simp
    · simp
  · simp only [htokens, hts, List.length_append, List.length_cons]
    omega

/-- The slice up to the last token. -/
theorem open_access (htokens : tokens = before ++ t :: ts) :
    slice tokens (before.length + 1) tokens.length = .ok ts ∧
      tokens.length = before.length + ts.length + 1 := by
  have hlength : tokens.length = before.length + ts.length + 1 := by
    simp only [htokens, List.length_append, List.length_cons]
    omega
  have hrest : tokens = (before ++ [t]) ++ (ts ++ []) := by simp [htokens]
  refine ⟨?_, hlength⟩
  apply slice_eq hrest
  · simp
  · simp only [hlength, List.length_append, List.length_singleton]
    omega

theorem enclosedAt_closed (hinside : ReadsGroups settings scope inside tokens.length)
    (htokens : tokens = before ++ t :: ts) (hts : ts = g.inner ++ g.close :: g.rest) :
    enclosedAt inside tokens before.length (some (before.length + 1 + g.inner.length)) symbol
        outer =
      .ok (group settings scope g.inner ⟨t.span.stop, g.close.span.start⟩,
        before.length + 1 + g.inner.length) := by
  obtain ⟨hclose, hslice, hlength⟩ := closed_access htokens hts
  rw [enclosedAt, tokenAt_eq htokens rfl, ok_bind]
  dsimp only
  rw [hclose, ok_bind, hslice, ok_bind, hinside _ _ (by omega)]
  rfl

theorem enclosedAt_open (hinside : ReadsGroups settings scope inside tokens.length)
    (htokens : tokens = before ++ t :: ts) :
    enclosedAt inside tokens before.length none symbol outer =
      .ok (unclosed t symbol (group settings scope ts ⟨t.span.stop, outer.stop⟩),
        before.length + ts.length) := by
  obtain ⟨hslice, hlength⟩ := open_access htokens
  rw [enclosedAt, tokenAt_eq htokens rfl, ok_bind]
  dsimp only
  rw [hslice, ok_bind, hinside _ _ (by omega), ok_bind, minus_eq (by omega), ok_bind, hlength]
  rfl

/-! ### Arguments -/

theorem cutFrom_arguments (tokens : List Token) :
    cutFrom tokens 0 0 0 tokens = .ok (arguments 0 tokens) := by
  have h := cutFrom_eq 0 [] [] tokens
  rwa [prependArgument_nil (arguments_ne_nil 0 tokens)] at h

theorem callAt_eq (hinside : ReadsGroups settings scope inside bound)
    (h : tokens.length < bound) :
    callAt inside name tokens span = .ok (call settings scope name tokens span) := by
  unfold callAt
  by_cases hname : name = "D"
  · subst hname
    have hpart (part : List Token) (hpart : part ∈ arguments 0 tokens) :
        inside part (spanOf part span) = .ok (group settings scope part (spanOf part span)) :=
      hinside _ _ (Nat.lt_of_le_of_lt (length_arguments hpart) h)
    rw [if_pos rfl, operatorAt, cutFrom_arguments, ok_bind]
    match harguments : arguments 0 tokens with
    | [] => exact absurd harguments (arguments_ne_nil 0 tokens)
    | [body] =>
      have hbody := hpart body (harguments ▸ List.mem_cons_self)
      rw [call_D_one harguments]
      simp [argumentAt, hbody, ok_bind, pure, Except.pure]
    | [body, x] =>
      have hbody := hpart body (harguments ▸ List.mem_cons_self)
      rw [call_D_two harguments]
      simp [argumentAt, hbody, ok_bind, pure, Except.pure]
    | body :: x :: point :: others =>
      have hbody := hpart body (by simp [harguments])
      have hpoint := hpart point (by simp [harguments])
      rw [call_D_three harguments]
      simp [argumentAt, hbody, hpoint, ok_bind, pure, Except.pure]
  · rw [if_neg hname, call_other hname, hinside _ _ h]
    rfl

theorem applicationAt_closed (hinside : ReadsGroups settings scope inside tokens.length)
    (htokens : tokens = before ++ u :: ts) (hu : u.kind = .openParen)
    (hg : closing .openParen .closeParen 0 ts = some g) :
    applicationAt inside name tokens before.length outer =
      .ok (call settings scope name g.inner ⟨u.span.stop, g.close.span.start⟩,
        before.length + 1 + g.inner.length) := by
  obtain ⟨hclose, hslice, hlength⟩ := closed_access htokens (closing_eq_some hg).1
  have hlast : min (before.length + 1 + g.inner.length) (tokens.length - 1) =
      before.length + 1 + g.inner.length := by omega
  rw [applicationAt, findClose_eq htokens rfl hu, ok_bind, hg, Option.map_some, Option.getD_some]
  dsimp only
  rw [hslice, ok_bind, tokenAt_eq htokens rfl, ok_bind, closingRegion, hclose, ok_bind, pure_bind,
    callAt_eq hinside (by omega), ok_bind, minus_eq (by omega), ok_bind, hlast]
  rfl

theorem applicationAt_open (hinside : ReadsGroups settings scope inside tokens.length)
    (htokens : tokens = before ++ u :: ts) (hu : u.kind = .openParen)
    (hg : closing .openParen .closeParen 0 ts = none) :
    applicationAt inside name tokens before.length outer =
      .ok (unclosed u ')' (call settings scope name ts ⟨u.span.stop, outer.stop⟩),
        before.length + ts.length) := by
  obtain ⟨hslice, hlength⟩ := open_access htokens
  have hlast : min tokens.length (tokens.length - 1) = before.length + ts.length := by omega
  rw [applicationAt, findClose_eq htokens rfl hu, ok_bind, hg, Option.map_none, Option.getD_none]
  dsimp only
  rw [hslice, ok_bind, tokenAt_eq htokens rfl, ok_bind, closingRegion, ok_bind,
    callAt_eq hinside (by omega), ok_bind, minus_eq (by omega), ok_bind, hlast]
  rfl

/-! ### Subscripts -/

theorem subscriptAt_closed (hinside : ReadsGroups settings scope inside tokens.length)
    (htokens : tokens = before ++ u :: ts) (hu : u.kind = .openBracket)
    (hg : closing .openBracket .closeBracket 0 ts = some g) :
    subscriptAt inside name tokens before.length outer =
      .ok (if g.inner.any (·.kind == .openBracket) then
          .invalidPart ⟨⟨u.span.start, g.close.span.stop⟩, .nestedSubscript⟩ (.var name)
        else
          element name (group settings scope g.inner ⟨u.span.stop, g.close.span.start⟩)
            ⟨u.span.start, g.close.span.stop⟩,
        before.length + 1 + g.inner.length) := by
  obtain ⟨hclose, hslice, hlength⟩ := closed_access htokens (closing_eq_some hg).1
  have hlast : min (before.length + 1 + g.inner.length) (tokens.length - 1) =
      before.length + 1 + g.inner.length := by omega
  rw [subscriptAt, findClose_eq htokens rfl hu, ok_bind, hg, Option.map_some, Option.getD_some]
  dsimp only
  rw [hslice, ok_bind, tokenAt_eq htokens rfl, ok_bind, closingRegion, hclose, ok_bind, pure_bind,
    minus_eq (by omega), ok_bind, hlast]
  split
  · rfl
  · rw [hinside _ _ (by omega)]
    rfl

theorem subscriptAt_open (hinside : ReadsGroups settings scope inside tokens.length)
    (htokens : tokens = before ++ u :: ts) (hu : u.kind = .openBracket)
    (hg : closing .openBracket .closeBracket 0 ts = none) :
    subscriptAt inside name tokens before.length outer =
      .ok (if ts.any (·.kind == .openBracket) then
          .invalidPart ⟨⟨u.span.start, outer.stop⟩, .nestedSubscript⟩ (.var name)
        else
          unclosed u ']' (.element name (group settings scope ts ⟨u.span.stop, outer.stop⟩)),
        before.length + ts.length) := by
  obtain ⟨hslice, hlength⟩ := open_access htokens
  have hlast : min tokens.length (tokens.length - 1) = before.length + ts.length := by omega
  rw [subscriptAt, findClose_eq htokens rfl hu, ok_bind, hg, Option.map_none, Option.getD_none]
  dsimp only
  rw [hslice, ok_bind, tokenAt_eq htokens rfl, ok_bind, closingRegion, ok_bind,
    minus_eq (by omega), ok_bind, hlast]
  split
  · rfl
  · rw [hinside _ _ (by omega)]
    rfl

/-! ### Elements -/

/-- A name may be followed by arguments or a subscript, if they stand right behind it. -/
theorem nameAt_advances (hinside : ReadsGroups settings scope inside tokens.length)
    (htokens : tokens = before ++ t :: ts) (hkind : t.kind = .name) :
    Advances settings scope outer t ts s before.length
      (nameAt settings scope inside tokens before.length s outer) := by
  rw [nameAt, tokenAt_eq htokens rfl, ok_bind, partsAt_eq, ok_bind]
  generalize hparts : pushParts settings.negativeNumbers s t.span.start
    (nameParts scope t.lexeme) = parts
  obtain ⟨s', name, offset⟩ := parts
  dsimp only
  have hnext : tokens[before.length + 1]? = ts.head? := by
    rw [htokens, List.getElem?_append_right (Nat.le_succ _), Nat.succ_sub (Nat.le_refl _),
      Nat.sub_self, List.getElem?_cons_succ, List.head?_eq_getElem?]
  rw [hnext]
  cases ts with
  | nil => exact advances_single rfl ((elements_lastName hkind hparts).trans elements_nil.symm)
  | cons u ts =>
    have hopening : tokens = (before ++ [t]) ++ u :: ts := by simp [htokens]
    have hposition : before.length + 1 = (before ++ [t]).length := by simp
    by_cases hadjacent : u.span.start = t.span.stop
    · have hfilter : ((u :: ts).head?.filter fun next => next.span.start == t.span.stop) =
          some u := by simp [hadjacent]
      rw [hfilter]
      dsimp only
      by_cases hcall : u.kind = .openParen ∧ name ∉ scope
      · rw [if_pos hcall, hposition]
        have hcalled : u.span.start = t.span.stop ∧ u.kind = .openParen ∧ name ∉ scope :=
          ⟨hadjacent, hcall⟩
        cases hg : closing .openParen .closeParen 0 ts with
        | some g =>
          rw [applicationAt_closed hinside hopening hcall.1 hg]
          exact advances_closed [u] (congrArg (u :: ·) (closing_eq_some hg).1) rfl
            (by rw [← hposition, List.length_singleton]; omega)
            (elements_call hkind hparts hcalled hg)
        | none =>
          rw [applicationAt_open hinside hopening hcall.1 hg]
          exact advances_all rfl (by rw [← hposition, List.length_cons]; omega)
            (elements_openCall hkind hparts hcalled hg)
      · rw [if_neg hcall]
        by_cases hbracket : u.kind = .openBracket
        · rw [if_pos hbracket, hposition]
          cases hg : closing .openBracket .closeBracket 0 ts with
          | some g =>
            rw [subscriptAt_closed hinside hopening hbracket hg]
            exact advances_closed [u] (congrArg (u :: ·) (closing_eq_some hg).1) rfl
              (by rw [← hposition, List.length_singleton]; omega)
              (elements_subscript hkind hparts ⟨hadjacent, hbracket⟩ hg)
          | none =>
            rw [subscriptAt_open hinside hopening hbracket hg]
            exact advances_all rfl (by rw [← hposition, List.length_cons]; omega)
              (elements_openSubscript hkind hparts ⟨hadjacent, hbracket⟩ hg)
        · rw [if_neg hbracket]
          refine advances_single rfl (elements_name hkind hparts ?_ ?_)
          · exact fun h => hcall h.2
          · exact fun h => hbracket h.2
    · have hfilter : ((u :: ts).head?.filter fun next => next.span.start == t.span.stop) =
          none := by simp [hadjacent]
      rw [hfilter]
      refine advances_single rfl (elements_name hkind hparts ?_ ?_)
      · exact fun h => hadjacent h.1
      · exact fun h => hadjacent h.1

theorem elementAt_advances (outer : Span) (s : State)
    (hinside : ReadsGroups settings scope inside tokens.length)
    (htokens : tokens = before ++ t :: ts) :
    Advances settings scope outer t ts s before.length
      (elementAt settings scope inside tokens before.length s outer) := by
  rw [elementAt, tokenAt_eq htokens rfl, ok_bind]
  split
  · rename_i hkind
    exact advances_single rfl (elements_closeParen hkind)
  · rename_i hkind
    rw [findClose_eq htokens rfl hkind, ok_bind]
    cases hg : closing .openParen .closeParen 0 ts with
    | some g =>
      have hts := (closing_eq_some hg).1
      rw [Option.map_some, enclosedAt_closed hinside htokens hts]
      exact advances_closed [] hts rfl (by rw [List.length_nil]; omega)
        (elements_group hkind hg)
    | none =>
      rw [Option.map_none, enclosedAt_open hinside htokens]
      exact advances_all rfl rfl (elements_openGroup hkind hg)
  · rename_i hkind
    rw [findCloseBar_eq htokens rfl, ok_bind]
    cases hg : closingBar 0 true ts with
    | some g =>
      have hts := (closingBar_eq_some hg).1
      rw [Option.map_some, enclosedAt_closed hinside htokens hts]
      exact advances_closed [] hts rfl (by rw [List.length_nil]; omega)
        (elements_bars hkind hg)
    | none =>
      rw [Option.map_none, enclosedAt_open hinside htokens]
      exact advances_all rfl rfl (elements_openBar hkind hg)
  · rename_i hkind
    exact advances_single rfl (elements_number hkind)
  · rename_i hkind
    exact nameAt_advances hinside htokens hkind
  · rename_i op hkind
    exact advances_single rfl (elements_operator hkind)
  all_goals
    rename_i hkind
    exact advances_single rfl (elements_unrecognized (by simp [hkind]))

/-- All elements are read, in as many steps as there are tokens left. -/
theorem elementsAt_eq (outer : Span)
    (hinside : ReadsGroups settings scope inside tokens.length) (visits : Nat)
    (before ts : List Token) (htokens : tokens = before ++ ts) (h : ts.length < visits)
    (s : State) : elementsAt settings scope inside outer tokens visits before.length s =
      .ok (elements settings scope outer ts s) := by
  induction visits generalizing before ts s with
  | zero => cases h
  | succ visits ih =>
    rw [elementsAt]
    cases ts with
    | nil =>
      rw [if_neg (by simp [htokens]), elements_nil]
    | cons t ts =>
      obtain ⟨s', k, hk, hresult, helements⟩ :=
        elementAt_advances outer s hinside htokens
      have hsplit : tokens = (before ++ t :: ts.take k) ++ ts.drop k := by simp [htokens]
      have hposition : before.length + k + 1 = (before ++ t :: ts.take k).length := by
        simp only [List.length_append, List.length_cons, List.length_take]
        omega
      have hrest : (ts.drop k).length < visits := by
        simp only [List.length_drop, List.length_cons] at h ⊢
        omega
      rw [if_pos (by simp [htokens]), hresult, ok_bind, helements]
      change elementsAt _ _ _ _ _ _ (before.length + k + 1) _ = _
      rw [hposition, ih _ _ hsplit hrest]

/-- The induction is on how deep groups may be opened. -/
theorem groupAt_eq (depth : Nat) :
    ReadsGroups settings scope (groupAt settings scope depth) depth := by
  induction depth with
  | zero =>
    intro tokens outer h
    cases h
  | succ depth ih =>
    intro tokens outer h
    have hlength := length_strip tokens outer
    have hinside : ReadsGroups settings scope (groupAt settings scope depth)
        (strip tokens outer).1.length :=
      fun part region hpart => ih part region (by omega)
    have helements := elementsAt_eq (strip tokens outer).2 hinside
      ((strip tokens outer).1.length + 1) [] _ rfl (Nat.lt_succ_self _) {}
    rw [groupAt, stripAt_eq _ _ _ (Nat.lt_succ_self _), ok_bind, group]
    generalize strip tokens outer = stripped at helements
    obtain ⟨inner, region⟩ := stripped
    cases inner with
    | nil => rfl
    | cons t ts =>
      change (elementsAt _ _ _ _ _ _ _ _ >>= _) = _
      rw [List.length_nil] at helements
      rw [helements, ok_bind]
      rfl

end

/-- Reading by positions never goes out of range, never counts down from zero and comes to an end,
and it reads the same expression. -/
theorem readAt_eq (settings : Settings) (scope : Scope) (source : String) :
    readAt settings scope source = .ok (read settings scope source) :=
  groupAt_eq _ _ _ (Nat.lt_succ_self _)

end Formulary.Reading
