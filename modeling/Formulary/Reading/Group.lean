import Formulary.Token

/-!
# Groups of tokens

Where a group ends, how the parentheses around a whole text are taken off, and how arguments are
separated. Every search gives back sublists of the tokens it was given, and the length lemmas say
that they are shorter, which is what lets a reader go on inside a group.
-/

namespace Formulary.Reading

/-- What is inside a group, the token that closes it, and what comes after it. -/
structure Enclosed where
  inner : List Token
  close : Token
  rest : List Token

/-- The group with one more token at its front. -/
def Enclosed.cons (t : Token) (g : Enclosed) : Enclosed := { g with inner := t :: g.inner }

/-- The group whose opening token came just before; `depth` more groups of its kind are open
inside it. Only tokens of the two given kinds count. -/
def closing (opens closes : TokenKind) : (depth : Nat) → List Token → Option Enclosed
  | _, [] => none
  | depth, t :: ts =>
    if t.kind = opens then (closing opens closes (depth + 1) ts).map (.cons t)
    else if t.kind = closes then
      match depth with
      | 0 => some ⟨[], t, ts⟩
      | depth + 1 => (closing opens closes depth ts).map (.cons t)
    else (closing opens closes depth ts).map (.cons t)

/-- A bar after this token opens an absolute value. -/
def opensBar : TokenKind → Bool
  | .operator .add | .operator .sub | .operator .mul | .operator .div => true
  | .openParen | .openBracket => true
  | _ => false

/--
The absolute value whose opening bar came just before; `depth` more are open inside it. A bar opens
a nested one right after an arithmetic operator, an opening parenthesis or bracket, or an opening
bar, and closes the innermost one anywhere else.
-/
def closingBar : (depth : Nat) → (afterOpening : Bool) → List Token → Option Enclosed
  | _, _, [] => none
  | depth, afterOpening, t :: ts =>
    if t.kind = .bar then
      if afterOpening then (closingBar (depth + 1) true ts).map (.cons t)
      else
        match depth with
        | 0 => some ⟨[], t, ts⟩
        | depth + 1 => (closingBar depth false ts).map (.cons t)
    else (closingBar depth (opensBar t.kind) ts).map (.cons t)

/-- The tokens cut at every comma outside of parentheses and brackets; `depth` is the number of
open groups less the number of groups closed. -/
def arguments : (depth : Int) → List Token → List (List Token)
  | _, [] => [[]]
  | depth, t :: ts =>
    if t.kind = .comma ∧ depth = 0 then [] :: arguments depth ts
    else
      let depth :=
        match t.kind with
        | .openParen | .openBracket => depth + 1
        | .closeParen | .closeBracket => depth - 1
        | _ => depth
      match arguments depth ts with
      | [] => [[t]]
      | part :: parts => (t :: part) :: parts

/-- The region the tokens cover, or a region to fall back on if there are none. -/
def spanOf (tokens : List Token) (fallback : Span) : Span :=
  match tokens.head?, tokens.getLast? with
  | some first, some last => ⟨first.span.start, last.span.stop⟩
  | _, _ => fallback

/-! ## Lengths -/

theorem length_cons (t : Token) (g : Enclosed) :
    (g.cons t).inner.length + (g.cons t).rest.length = g.inner.length + g.rest.length + 1 := by
  simp only [Enclosed.cons, List.length_cons]
  omega

theorem length_closing {opens closes : TokenKind} {depth : Nat} {ts : List Token} {g : Enclosed}
    (h : closing opens closes depth ts = some g) :
    g.inner.length + g.rest.length + 1 = ts.length := by
  induction ts generalizing depth g with
  | nil => simp [closing] at h
  | cons t ts ih =>
    have step {d : Nat} (h : (closing opens closes d ts).map (Enclosed.cons t) = some g) :
        g.inner.length + g.rest.length + 1 = (t :: ts).length := by
      obtain ⟨g', hg', rfl⟩ := Option.map_eq_some_iff.1 h
      have := ih hg'
      have := length_cons t g'
      simp only [List.length_cons]
      omega
    simp only [closing] at h
    split at h
    · exact step h
    · split at h
      · split at h
        · cases h
          simp
        · exact step h
      · exact step h

theorem length_closingBar {depth : Nat} {afterOpening : Bool} {ts : List Token} {g : Enclosed}
    (h : closingBar depth afterOpening ts = some g) :
    g.inner.length + g.rest.length + 1 = ts.length := by
  induction ts generalizing depth afterOpening g with
  | nil => simp [closingBar] at h
  | cons t ts ih =>
    have step {d : Nat} {b : Bool} (h : (closingBar d b ts).map (Enclosed.cons t) = some g) :
        g.inner.length + g.rest.length + 1 = (t :: ts).length := by
      obtain ⟨g', hg', rfl⟩ := Option.map_eq_some_iff.1 h
      have := ih hg'
      have := length_cons t g'
      simp only [List.length_cons]
      omega
    simp only [closingBar] at h
    split at h
    · split at h
      · exact step h
      · split at h
        · cases h
          simp
        · exact step h
    · exact step h

theorem length_arguments {depth : Int} {ts part : List Token} (h : part ∈ arguments depth ts) :
    part.length ≤ ts.length := by
  induction ts generalizing depth part with
  | nil => simp_all [arguments]
  | cons t ts ih =>
    unfold arguments at h
    split at h
    · rcases List.mem_cons.1 h with rfl | h
      · simp
      · exact Nat.le_succ_of_le (ih h)
    · dsimp only at h
      split at h
      · simp_all
      · rename_i heq
        rcases List.mem_cons.1 h with rfl | h
        · simpa using ih (heq ▸ List.mem_cons_self)
        · exact Nat.le_succ_of_le (ih (heq ▸ List.mem_cons_of_mem _ h))

/-! ## Redundant parentheses -/

/-- The tokens without the parentheses around all of them, and the region that is left. -/
def strip (tokens : List Token) (outer : Span) : List Token × Span :=
  match tokens with
  | [] => ([], outer)
  | t :: ts =>
    if t.kind = .openParen then
      match _h : closing .openParen .closeParen 0 ts with
      | some ⟨inner, close, []⟩ => strip inner ⟨t.span.stop, close.span.start⟩
      | _ => (t :: ts, outer)
    else (t :: ts, outer)
termination_by tokens.length
decreasing_by
  have := length_closing _h
  simp only [List.length_cons, List.length_nil] at *
  omega

theorem length_strip (tokens : List Token) (outer : Span) :
    (strip tokens outer).1.length ≤ tokens.length := by
  fun_induction strip tokens outer with
  | case1 => simp
  | case2 outer t ts _ inner close h ih =>
    have := length_closing h
    simp only [List.length_cons, List.length_nil] at *
    omega
  | case3 => simp
  | case4 => simp

end Formulary.Reading
