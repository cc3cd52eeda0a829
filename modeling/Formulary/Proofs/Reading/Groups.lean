import Formulary.Proofs.Reading.Elements
import Formulary.Proofs.Reading.Writable

/-!
# Groups in a canonical text

The tokens of a canonical text are balanced: its parentheses and brackets match, and its commas
stand inside of parentheses. The searches for the end of a group and for the commas between
arguments go past balanced tokens, so they find the token that was written for them.
-/

namespace Formulary.Reading

/-- The token neither groups nor separates. -/
def isPlain : TokenKind → Bool
  | .comma | .openParen | .closeParen | .openBracket | .closeBracket => false
  | _ => true

/-- The two kinds of tokens open and close a kind of group. -/
inductive Pair : (opens closes : TokenKind) → Prop
  | parens : Pair .openParen .closeParen
  | brackets : Pair .openBracket .closeBracket

/-- The parentheses and brackets match, and commas stand inside of them, or anywhere if `commas`. -/
inductive Balanced : (commas : Bool) → List Token → Prop
  | nil {commas : Bool} : Balanced commas []
  | plain {commas : Bool} {t : Token} (kind : isPlain t.kind = true) : Balanced commas [t]
  | comma {t : Token} (kind : t.kind = .comma) : Balanced true [t]
  | append {commas : Bool} {ts us : List Token} (left : Balanced commas ts)
      (right : Balanced commas us) : Balanced commas (ts ++ us)
  | group {commas : Bool} {o c : Token} {ts : List Token} (pair : Pair o.kind c.kind)
      (inner : Balanced true ts) : Balanced commas (o :: (ts ++ [c]))

/-- The group with more tokens at its front. -/
def Enclosed.prepend (ts : List Token) (g : Enclosed) : Enclosed :=
  { g with inner := ts ++ g.inner }

/-- The arguments with more tokens at the front of the first one. -/
def prependArgument (ts : List Token) : List (List Token) → List (List Token)
  | [] => [ts]
  | part :: parts => (ts ++ part) :: parts

section

variable {commas : Bool} {opens closes : TokenKind} {ts us : List Token}

/-! ## The end of a group -/

theorem closing_other {t : Token} (hopen : t.kind ≠ opens) (hclose : t.kind ≠ closes) (depth : Nat)
    (ts : List Token) :
    closing opens closes depth (t :: ts) = (closing opens closes depth ts).map (.cons t) := by
  simp only [closing, if_neg hopen, if_neg hclose]

theorem closing_open {t : Token} (hopen : t.kind = opens) (depth : Nat) (ts : List Token) :
    closing opens closes depth (t :: ts) = (closing opens closes (depth + 1) ts).map (.cons t) := by
  simp only [closing, if_pos hopen]

theorem closing_close {t : Token} (hopen : t.kind ≠ opens) (hclose : t.kind = closes) (depth : Nat)
    (ts : List Token) :
    closing opens closes (depth + 1) (t :: ts) = (closing opens closes depth ts).map (.cons t) := by
  simp only [closing, if_neg hopen, if_pos hclose]

theorem closing_end {t : Token} (hopen : t.kind ≠ opens) (hclose : t.kind = closes)
    (ts : List Token) : closing opens closes 0 (t :: ts) = some ⟨[], t, ts⟩ := by
  simp only [closing, if_neg hopen, if_pos hclose]

theorem Pair.ne (pair : Pair opens closes) : opens ≠ closes := by cases pair <;> simp

theorem Pair.not_plain (pair : Pair opens closes) {k : TokenKind} (hk : isPlain k = true) :
    k ≠ opens ∧ k ≠ closes := by
  constructor <;> rintro rfl <;> cases pair <;> cases hk

theorem Pair.not_comma (pair : Pair opens closes) : .comma ≠ opens ∧ .comma ≠ closes := by
  cases pair <;> simp

/-- The search for the end of a group goes past balanced tokens. -/
theorem closing_append (h : Balanced commas ts) (pair : Pair opens closes) (depth : Nat)
    (us : List Token) :
    closing opens closes depth (ts ++ us) =
      (closing opens closes depth us).map (.prepend ts) := by
  induction h generalizing depth us with
  | nil =>
    rw [List.nil_append]
    cases closing opens closes depth us <;> rfl
  | plain kind =>
    obtain ⟨hopen, hclose⟩ := pair.not_plain kind
    rw [List.singleton_append, closing_other hopen hclose]
    rfl
  | comma kind =>
    obtain ⟨hopen, hclose⟩ := pair.not_comma
    rw [← kind] at hopen hclose
    rw [List.singleton_append, closing_other hopen hclose]
    rfl
  | append _ _ ihl ihr =>
    rw [List.append_assoc, ihl, ihr, Option.map_map]
    congr 1
    funext g
    simp [Enclosed.prepend]
  | @group _ o c ts inner _ ih =>
    have hgoal : o :: (ts ++ [c]) ++ us = o :: (ts ++ c :: us) := by simp
    rw [hgoal]
    have hback : (closing opens closes depth us).map (Enclosed.prepend (o :: (ts ++ [c]))) =
        (((closing opens closes depth us).map (Enclosed.cons c)).map (Enclosed.prepend ts)).map
          (Enclosed.cons o) := by
      cases closing opens closes depth us with
      | none => rfl
      | some g => simp [Enclosed.prepend, Enclosed.cons]
    rw [hback]
    by_cases hsame : o.kind = opens
    · have hclose : c.kind = closes := by
        generalize o.kind = p at inner hsame
        generalize c.kind = q at inner
        cases inner <;> cases pair <;> simp_all
      have hnot : c.kind ≠ opens := hclose ▸ pair.ne.symm
      rw [closing_open hsame, ih, closing_close hnot hclose]
    · have hother : o.kind ≠ closes ∧ c.kind ≠ opens ∧ c.kind ≠ closes := by
        generalize o.kind = p at inner hsame
        generalize c.kind = q at inner
        cases inner <;> cases pair <;> simp_all
      rw [closing_other hsame hother.1, ih, closing_other hother.2.1 hother.2.2]

/-- The search for the end of a group finds the token that closes it. -/
theorem closing_group {c : Token} (h : Balanced commas ts) (pair : Pair opens c.kind)
    (us : List Token) : closing opens c.kind 0 (ts ++ c :: us) = some ⟨ts, c, us⟩ := by
  rw [closing_append h pair, closing_end pair.ne.symm rfl]
  simp [Enclosed.prepend]

/-! ## Arguments -/

/-- The number of open groups after a token. -/
def depthAfter (depth : Int) : TokenKind → Int
  | .openParen | .openBracket => depth + 1
  | .closeParen | .closeBracket => depth - 1
  | _ => depth

theorem arguments_cons {t : Token} {depth : Int} (hcut : ¬ (t.kind = .comma ∧ depth = 0))
    (ts : List Token) :
    arguments depth (t :: ts) = prependArgument [t] (arguments (depthAfter depth t.kind) ts) := by
  rw [arguments, if_neg hcut]
  rfl

theorem prependArgument_append (ts us : List Token) {parts : List (List Token)}
    (hparts : parts ≠ []) :
    prependArgument ts (prependArgument us parts) = prependArgument (ts ++ us) parts := by
  cases parts with
  | nil => exact absurd rfl hparts
  | cons part parts => simp [prependArgument]

/-- The search for commas goes past balanced tokens, which hold commas only inside of groups. -/
theorem arguments_append (h : Balanced commas ts) {depth : Int} (hdepth : 0 ≤ depth)
    (hcommas : commas = true → 0 < depth) (us : List Token) :
    arguments depth (ts ++ us) = prependArgument ts (arguments depth us) := by
  induction h generalizing depth us with
  | nil =>
    cases hus : arguments depth us with
    | nil => exact absurd hus (arguments_ne_nil _ _)
    | cons part parts => simp [prependArgument, hus]
  | @plain _ t kind =>
    have hcut : ¬ (t.kind = .comma ∧ depth = 0) := by
      rintro ⟨hk, -⟩
      rw [hk] at kind
      cases kind
    have hstay : depthAfter depth t.kind = depth := by
      generalize t.kind = k at kind
      cases k <;> first | rfl | cases kind
    rw [List.singleton_append, arguments_cons hcut, hstay]
  | @comma t kind =>
    have hpos := hcommas rfl
    rw [List.singleton_append, arguments_cons (by omega), kind]
    rfl
  | append _ _ ihl ihr =>
    rw [List.append_assoc, ihl hdepth hcommas, ihr hdepth hcommas,
      prependArgument_append _ _ (arguments_ne_nil _ _)]
  | @group _ o c ts pair _ ih =>
    have hgoal : o :: (ts ++ [c]) ++ us = o :: (ts ++ c :: us) := by simp
    have hkinds : ¬ (o.kind = .comma ∧ depth = 0) ∧ depthAfter depth o.kind = depth + 1 ∧
        depthAfter (depth + 1) c.kind = depth := by
      generalize o.kind = p at pair
      generalize c.kind = q at pair
      cases pair <;> simp [depthAfter]
    obtain ⟨hopen, hup, hdown⟩ := hkinds
    rw [hgoal, arguments_cons hopen, hup, ih (by omega) (by omega), arguments_cons (by omega),
      hdown, prependArgument_append _ _ (arguments_ne_nil _ _),
      prependArgument_append _ _ (by simp [arguments_ne_nil])]
    simp

/-- The first argument ends at the first comma outside of groups. -/
theorem arguments_comma {t : Token} (h : Balanced false ts) (ht : t.kind = .comma)
    (us : List Token) : arguments 0 (ts ++ t :: us) = ts :: arguments 0 us := by
  rw [arguments_append h le_rfl (by simp), arguments, if_pos ⟨ht, rfl⟩]
  simp [prependArgument]

theorem arguments_single (h : Balanced false ts) : arguments 0 ts = [ts] := by
  have hend := arguments_append h le_rfl (by simp) []
  rw [List.append_nil] at hend
  rw [hend]
  simp [arguments, prependArgument]

/-! ## Redundant parentheses -/

theorem strip_other (outer : Span) (h : ∀ t ∈ ts.head?, t.kind ≠ .openParen) :
    strip ts outer = (ts, outer) := by
  cases ts with
  | nil => rw [strip]
  | cons t ts => rw [strip, if_neg (h t rfl)]

/-- Parentheses that close before the end are kept. -/
theorem strip_closed {o c t : Token} (ho : o.kind = .openParen) (hc : c.kind = .closeParen)
    (h : Balanced commas ts) (us : List Token) (outer : Span) :
    strip (o :: (ts ++ c :: t :: us)) outer = (o :: (ts ++ c :: t :: us), outer) := by
  have hclosing := closing_group (c := c) h (hc ▸ Pair.parens) (t :: us)
  rw [hc] at hclosing
  rw [strip, if_pos ho]
  split
  · rename_i heq
    rw [hclosing] at heq
    cases heq
  · rfl

/-! ## The tokens of writable expressions -/

theorem Balanced.cons {t : Token} (ht : isPlain t.kind = true) (h : Balanced commas ts) :
    Balanced commas (t :: ts) := .append (.plain ht) h

theorem balanced_group {v w : Lexeme} {ws : List Lexeme} (pair : Pair v.kind w.kind)
    (h : ∀ start, Balanced true (place start ws)) (start : Nat) :
    Balanced commas (place start (v :: (ws ++ [w]))) := by
  rw [place, place_append]
  exact .group (c := w.token _) pair (h _)

theorem balanced_enclose {grouped : Bool} {ws : List Lexeme}
    (h : ∀ commas start, Balanced commas (place start ws)) (start : Nat) :
    Balanced commas (place start (Expr.enclose grouped ws)) := by
  cases grouped
  · exact h _ _
  · exact balanced_group (v := .openParen) (w := .closeParen) .parens (h true) start

theorem balanced_literal (k : Int) (start : Nat) :
    Balanced commas (place start (Expr.literalLexemes k)) := by
  unfold Expr.literalLexemes
  split
  · exact .cons rfl (.plain rfl)
  · exact .plain rfl

theorem balanced_applied {name : String} {ws : List Lexeme}
    (h : ∀ start, Balanced true (place start ws)) (start : Nat) :
    Balanced commas (place start (Expr.applied name ws)) :=
  .cons rfl (balanced_group (v := .openParen) (w := .closeParen) .parens h _)

/-- The lexemes do not start with a parenthesis that is closed at their end. -/
def Ongoing (ws : List Lexeme) : Prop :=
  (∀ w ∈ ws.head?, w ≠ .openParen) ∧ ws ≠ [] ∨
    ∃ vs w us, ws = .openParen :: (vs ++ .closeParen :: w :: us) ∧
      ∀ start, Balanced true (place start vs)

/-- The lexemes are balanced, and no parentheses are taken off them. -/
structure Bare (ws : List Lexeme) : Prop where
  balanced (commas : Bool) (start : Nat) : Balanced commas (place start ws)
  ongoing : Ongoing ws

section

variable {ws : List Lexeme}

theorem Ongoing.append (h : Ongoing ws) (more : List Lexeme) : Ongoing (ws ++ more) := by
  rcases h with ⟨hhead, hne⟩ | ⟨vs, w, us, rfl, hbalanced⟩
  · refine .inl ⟨?_, by simp [hne]⟩
    rw [List.head?_append_of_ne_nil _ hne]
    exact hhead
  · exact .inr ⟨vs, w, us ++ more, by simp, hbalanced⟩

theorem Bare.ongoing_enclose (h : Bare ws) (grouped : Bool) (w : Lexeme) (more : List Lexeme) :
    Ongoing (Expr.enclose grouped ws ++ w :: more) := by
  cases grouped
  · exact h.ongoing.append _
  · exact .inr ⟨ws, w, more, by simp [Expr.enclose], h.balanced true⟩

theorem Ongoing.place_ne_nil (h : Ongoing ws) (start : Nat) : place start ws ≠ [] := by
  rcases h with ⟨-, hne⟩ | ⟨vs, w, us, rfl, -⟩
  · obtain ⟨w, us, rfl⟩ := List.exists_cons_of_ne_nil hne
    simp [place]
  · simp [place]

/-- No parentheses are taken off. -/
theorem Ongoing.strip (h : Ongoing ws) (start : Nat) (outer : Span) :
    strip (place start ws) outer = (place start ws, outer) := by
  rcases h with ⟨hhead, hne⟩ | ⟨vs, w, us, rfl, hbalanced⟩
  · refine strip_other outer fun t ht => ?_
    obtain ⟨w, us, rfl⟩ := List.exists_cons_of_ne_nil hne
    obtain rfl : w.token start = t := by simpa [place] using ht
    have hw := hhead w rfl
    cases w <;> simp_all [Lexeme.token, Lexeme.kind]
  · rw [place, place_append]
    exact strip_closed rfl rfl (hbalanced _) _ _

theorem ongoing_literal (k : Int) : Ongoing (Expr.literalLexemes k) := by
  unfold Expr.literalLexemes
  split <;> exact .inl (by simp)

end

end

end Formulary.Reading

namespace Formulary.Expr

open Reading

variable {signs elements : Bool} {e : Expr}

/-- The tokens of a canonical text are balanced. -/
theorem Writable.balanced (h : Writable signs elements e) (commas : Bool) (start : Nat) :
    Balanced commas (place start e.lexemes) := by
  induction h generalizing commas start with
  | @number _ k _ _ =>
    exact balanced_literal k start
  | var _ => exact .plain rfl
  | element _ _ _ ih =>
    exact .cons rfl (balanced_group (v := .openBracket) (w := .closeBracket) .brackets (ih true) _)
  | unary _ _ _ ih => exact .cons rfl (balanced_enclose ih _)
  | binary op _ _ ihl ihr =>
    rw [lexemes, place_append]
    exact .append (balanced_enclose ihl _) (.cons rfl (balanced_enclose ihr _))
  | call _ _ _ _ _ ih => exact balanced_applied (ih true) _
  | derivative _ _ ih =>
    refine balanced_applied (fun start => ?_) _
    rw [place_append]
    exact .append (ih true _) (.append (.comma rfl) (.plain rfl))
  | derivativeAt _ _ _ ihl ihr =>
    refine balanced_applied (fun start => ?_) _
    rw [place_append]
    exact .append (ihl true _)
      (.append (.comma rfl) (.cons rfl (.append (.comma rfl) (ihr true _))))

theorem Writable.bare (h : Writable signs elements e) : Bare e.lexemes := by
  refine ⟨h.balanced, ?_⟩
  induction h with
  | @number _ k _ _ => exact ongoing_literal k
  | @binary _ op lhs rhs left right ihl ihr =>
    exact Bare.ongoing_enclose ⟨left.balanced, ihl⟩ (lhs.groupedBase op) _ _
  | _ => exact .inl (by simp [lexemes, applied])

end Formulary.Expr
