import Formulary.Proofs.Reading.Leaves
import Formulary.Proofs.Reading.Positions

/-!
# Which bar closes an absolute value

Both bars of an absolute value are the same token, and the search for the closing one tells them
apart by the token before: right after an arithmetic operator or an opening bar a bar opens, and
anywhere else it closes. In an expression of names, numbers, operators and absolute values the
search therefore finds the right bar exactly if no bar between the two opens after another operator
or after an operand (`findCloseBar_absolute`). A power, an equation or a connective in front of a bar
is enough for a bar that comes too early (`findCloseBar_of_power`).

The search goes on with how many absolute values are open and whether a bar would open another one.
Over the tokens of an expression it comes back to as many, or a bar is taken for a closing one and it
falls behind (`Falls`), after which it never catches up.
-/

namespace Formulary.Reading

/-! ## Expressions with bars -/

/-- An expression of names, numbers and absolute values, with operators between the operands or
nothing. -/
inductive Barred where
  | operand (t : Token) (kind : t.kind = .name ∨ t.kind = .number)
  | operation (lhs : Barred) (t : Token) (kind : t.isOperator = true) (rhs : Barred)
  | product (lhs rhs : Barred)
  | absolute (opening : Token) (inner : Barred) (close : Token)
    (kinds : opening.kind = .bar ∧ close.kind = .bar)

namespace Barred

/-- The tokens of an expression as it is written. -/
def tokens : Barred → List Token
  | operand t _ => [t]
  | operation lhs t _ rhs => lhs.tokens ++ t :: rhs.tokens
  | product lhs rhs => lhs.tokens ++ rhs.tokens
  | absolute opening inner close _ => opening :: (inner.tokens ++ [close])

/-- The first token is a bar. -/
def startsWithBar : Barred → Bool
  | operand _ _ => false
  | operation lhs _ _ _ => lhs.startsWithBar
  | product lhs _ => lhs.startsWithBar
  | absolute _ _ _ _ => true

/-- Every bar that opens an absolute value is the first token, or comes right after an opening bar
or an operator of one of the kinds. -/
def BarsFollow (kinds : TokenKind → Bool) : Barred → Prop
  | operand _ _ => True
  | operation lhs t _ rhs =>
    lhs.BarsFollow kinds ∧ rhs.BarsFollow kinds ∧ (rhs.startsWithBar = true → kinds t.kind = true)
  | product lhs rhs => lhs.BarsFollow kinds ∧ rhs.BarsFollow kinds ∧ rhs.startsWithBar = false
  | absolute _ inner _ _ => inner.BarsFollow kinds

/-- The absolute values in an expression that starts at a position: where each of them opens, and
what is between its bars. -/
def absolutes (start : Nat) : Barred → List (Nat × Barred)
  | operand _ _ => []
  | operation lhs _ _ rhs =>
    lhs.absolutes start ++ rhs.absolutes (start + lhs.tokens.length + 1)
  | product lhs rhs => lhs.absolutes start ++ rhs.absolutes (start + lhs.tokens.length)
  | absolute _ inner _ _ => (start, inner) :: inner.absolutes (start + 1)

/-- The position of the bar that closes an absolute value. -/
def closePosition (entry : Nat × Barred) : Nat := entry.1 + 1 + entry.2.tokens.length

variable {e : Barred} {entry : Nat × Barred}

/-- Each absolute value stands between two bars of the text. -/
theorem exists_split_of_mem_absolutes {start : Nat} (h : entry ∈ e.absolutes start) :
    ∃ before opening close after, e.tokens = before ++ opening :: (entry.2.tokens ++ close :: after) ∧
      entry.1 = start + before.length ∧ opening.kind = .bar ∧ close.kind = .bar := by
  induction e generalizing start with
  | operand t kind => cases h
  | operation lhs t kind rhs ihl ihr =>
    rcases List.mem_append.1 h with h | h
    · obtain ⟨before, opening, close, after, htokens, hstart, hkinds⟩ := ihl h
      exact ⟨before, opening, close, after ++ t :: rhs.tokens, by simp [tokens, htokens], hstart,
        hkinds⟩
    · obtain ⟨before, opening, close, after, htokens, hstart, hkinds⟩ := ihr h
      refine ⟨lhs.tokens ++ t :: before, opening, close, after, by simp [tokens, htokens], ?_, hkinds⟩
      rw [hstart, List.length_append, List.length_cons]
      omega
  | product lhs rhs ihl ihr =>
    rcases List.mem_append.1 h with h | h
    · obtain ⟨before, opening, close, after, htokens, hstart, hkinds⟩ := ihl h
      exact ⟨before, opening, close, after ++ rhs.tokens, by simp [tokens, htokens], hstart, hkinds⟩
    · obtain ⟨before, opening, close, after, htokens, hstart, hkinds⟩ := ihr h
      refine ⟨lhs.tokens ++ before, opening, close, after, by simp [tokens, htokens], ?_, hkinds⟩
      rw [hstart, List.length_append]
      omega
  | absolute opening inner close kinds ih =>
    rcases List.mem_cons.1 h with rfl | h
    · exact ⟨[], opening, close, [], rfl, rfl, kinds⟩
    · obtain ⟨before, opening', close', after, htokens, hstart, hkinds⟩ := ih h
      refine ⟨opening :: before, opening', close', after ++ [close], by simp [tokens, htokens], ?_,
        hkinds⟩
      rw [hstart, List.length_cons]
      omega

end Barred

/-! ## The search over some tokens -/

section

variable {depth depth' : Nat} {opens opens' opens'' : Bool} {ts us : List Token} {t : Token}

/-- The search goes over the tokens from one state to another. -/
def Passes (depth : Nat) (opens : Bool) (ts : List Token) (depth' : Nat) (opens' : Bool) : Prop :=
  ∀ rest, closingBar depth opens (ts ++ rest) =
    (closingBar depth' opens' rest).map (Enclosed.prepend ts)

/-- The search ends among the tokens. -/
def EndsWithin (depth : Nat) (opens : Bool) (ts : List Token) : Prop :=
  ∃ front close back, ts = front ++ close :: back ∧
    ∀ rest, closingBar depth opens (ts ++ rest) = some ⟨front, close, back ++ rest⟩

/-- The search ends among the tokens, or fewer absolute values are open behind them. -/
def Falls (depth : Nat) (opens : Bool) (ts : List Token) (opens' : Bool) : Prop :=
  EndsWithin depth opens ts ∨ ∃ depth' < depth, Passes depth opens ts depth' opens'

theorem Passes.append (h : Passes depth opens ts depth' opens') {depth'' : Nat}
    (h' : Passes depth' opens' us depth'' opens'') :
    Passes depth opens (ts ++ us) depth'' opens'' := by
  intro rest
  rw [List.append_assoc, h, h', Option.map_map]
  congr 1
  funext g
  simp [Enclosed.prepend]

theorem EndsWithin.append (h : EndsWithin depth opens ts) (us : List Token) :
    EndsWithin depth opens (ts ++ us) := by
  obtain ⟨front, close, back, rfl, hends⟩ := h
  refine ⟨front, close, back ++ us, by simp, fun rest => ?_⟩
  rw [List.append_assoc, hends, List.append_assoc]

theorem Passes.endsWithin (h : Passes depth opens ts depth' opens')
    (h' : EndsWithin depth' opens' us) : EndsWithin depth opens (ts ++ us) := by
  obtain ⟨front, close, back, rfl, hends⟩ := h'
  refine ⟨ts ++ front, close, back, by simp, fun rest => ?_⟩
  rw [List.append_assoc, h, hends]
  rfl

theorem Passes.falls (h : Passes depth opens ts depth opens') (h' : Falls depth opens' us opens'') :
    Falls depth opens (ts ++ us) opens'' := by
  rcases h' with hends | ⟨depth', hless, hpasses⟩
  · exact .inl (h.endsWithin hends)
  · exact .inr ⟨depth', hless, h.append hpasses⟩

/-- A search that has fallen behind stays behind. -/
theorem Falls.append (h : Falls depth opens ts opens')
    (h' : ∀ depth', Passes depth' opens' us depth' opens'' ∨ Falls depth' opens' us opens'') :
    Falls depth opens (ts ++ us) opens'' := by
  rcases h with hends | ⟨depth', hless, hpasses⟩
  · exact .inl (hends.append us)
  · rcases h' depth' with hback | hends | ⟨depth'', hless', hfurther⟩
    · exact .inr ⟨depth', hless, hpasses.append hback⟩
    · exact .inl (hpasses.endsWithin hends)
    · exact .inr ⟨depth'', hless'.trans hless, hpasses.append hfurther⟩

/-! ## Single tokens -/

theorem passes_other (depth : Nat) (opens : Bool) (ht : t.kind ≠ .bar) :
    Passes depth opens [t] depth (opensBar t.kind) := by
  intro rest
  simp only [List.singleton_append, closingBar, if_neg ht]
  rfl

theorem passes_opening (depth : Nat) (ht : t.kind = .bar) :
    Passes depth true [t] (depth + 1) true := by
  intro rest
  simp only [List.singleton_append, closingBar, if_pos ht, if_true]
  rfl

theorem passes_closing (depth : Nat) (ht : t.kind = .bar) :
    Passes (depth + 1) false [t] depth false := by
  intro rest
  simp only [List.singleton_append, closingBar, if_pos ht, if_neg Bool.false_ne_true]
  rfl

/-- A bar that does not open closes the innermost absolute value, which may be the one looked for. -/
theorem falls_closing (depth : Nat) (ht : t.kind = .bar) : Falls depth false [t] false := by
  cases depth with
  | zero =>
    refine .inl ⟨[], t, [], rfl, fun rest => ?_⟩
    simp only [List.singleton_append, closingBar, if_pos ht, if_neg Bool.false_ne_true,
      List.nil_append]
  | succ depth => exact .inr ⟨depth, Nat.lt_succ_self depth, passes_closing depth ht⟩

end

/-! ## The search over an expression -/

namespace Barred

variable {e : Barred} {entry : Nat × Barred}

/-- The search takes every bar of an expression for what it is, if a bar at its front opens an
absolute value or not. -/
def IsFollowed (e : Barred) (opens : Bool) : Prop :=
  e.BarsFollow opensBar ∧ (e.startsWithBar = true → opens = true)

theorem isFollowed_operation {lhs rhs : Barred} {t : Token} {kind : t.isOperator = true}
    {opens : Bool} : (operation lhs t kind rhs).IsFollowed opens ↔
      lhs.IsFollowed opens ∧ rhs.IsFollowed (opensBar t.kind) := by
  simp only [IsFollowed, BarsFollow, startsWithBar]
  tauto

theorem isFollowed_product {lhs rhs : Barred} {opens : Bool} :
    (product lhs rhs).IsFollowed opens ↔ lhs.IsFollowed opens ∧ rhs.IsFollowed false := by
  simp only [IsFollowed, BarsFollow, startsWithBar, Bool.false_eq_true, imp_false,
    Bool.not_eq_true]
  tauto

theorem isFollowed_absolute {opening close : Token} {inner : Barred}
    {kinds : opening.kind = .bar ∧ close.kind = .bar} {opens : Bool} :
    (absolute opening inner close kinds).IsFollowed opens ↔
      inner.IsFollowed true ∧ opens = true := by
  simp [IsFollowed, BarsFollow, startsWithBar]

/-- The search comes back to the same depth over an expression whose bars are taken for what they
are, and falls behind over any other one. -/
theorem search_tokens (e : Barred) (depth : Nat) (opens : Bool) :
    (e.IsFollowed opens → Passes depth opens e.tokens depth false) ∧
      (¬ e.IsFollowed opens → Falls depth opens e.tokens false) := by
  induction e generalizing depth opens with
  | operand t kind =>
    have hother : Passes depth opens [t] depth (opensBar t.kind) :=
      passes_other depth opens (by rcases kind with h | h <;> simp [h])
    have hcloses : opensBar t.kind = false := by rcases kind with h | h <;> rw [h] <;> rfl
    rw [hcloses] at hother
    exact ⟨fun _ => hother, fun h => absurd ⟨trivial, nofun⟩ h⟩
  | operation lhs t kind rhs ihl ihr =>
    have hbar : t.kind ≠ .bar := by
      intro h
      simp [Token.isOperator, h] at kind
    have hop (depth : Nat) := passes_other depth false hbar
    rw [isFollowed_operation, tokens]
    refine ⟨fun ⟨hl, hr⟩ => ?_, fun h => ?_⟩
    · exact ((ihl depth opens).1 hl).append ((hop depth).append ((ihr depth _).1 hr))
    · by_cases hl : lhs.IsFollowed opens
      · have hr : ¬ rhs.IsFollowed (opensBar t.kind) := fun hr => h ⟨hl, hr⟩
        exact ((ihl depth opens).1 hl).falls ((hop depth).falls ((ihr depth _).2 hr))
      · refine ((ihl depth opens).2 hl).append fun depth' => ?_
        by_cases hr : rhs.IsFollowed (opensBar t.kind)
        · exact .inl ((hop depth').append ((ihr depth' _).1 hr))
        · exact .inr ((hop depth').falls ((ihr depth' _).2 hr))
  | product lhs rhs ihl ihr =>
    rw [isFollowed_product, tokens]
    refine ⟨fun ⟨hl, hr⟩ => ((ihl depth opens).1 hl).append ((ihr depth _).1 hr), fun h => ?_⟩
    by_cases hl : lhs.IsFollowed opens
    · exact ((ihl depth opens).1 hl).falls ((ihr depth _).2 fun hr => h ⟨hl, hr⟩)
    · refine ((ihl depth opens).2 hl).append fun depth' => ?_
      by_cases hr : rhs.IsFollowed false
      · exact .inl ((ihr depth' _).1 hr)
      · exact .inr ((ihr depth' _).2 hr)
  | absolute opening inner close kinds ih =>
    obtain ⟨hopening, hclose⟩ := kinds
    rw [isFollowed_absolute, tokens, ← List.singleton_append]
    cases opens with
    | true =>
      have hopen := passes_opening depth hopening
      refine ⟨fun ⟨hinner, _⟩ => ?_, fun h => ?_⟩
      · exact hopen.append (((ih (depth + 1) true).1 hinner).append (passes_closing depth hclose))
      · have hinner := (ih (depth + 1) true).2 fun hinner => h ⟨hinner, rfl⟩
        -- the opening bar was counted, so what is open after the closing one is still less
        rcases hinner with hends | ⟨depth', hless, hpasses⟩
        · exact .inl (hopen.endsWithin (hends.append _))
        · cases depth' with
          | zero =>
            rcases falls_closing 0 hclose with hends | ⟨_, hnone, -⟩
            · exact .inl (hopen.endsWithin (hpasses.endsWithin hends))
            · cases hnone
          | succ depth' =>
            exact .inr ⟨depth', by omega,
              hopen.append (hpasses.append (passes_closing depth' hclose))⟩
    | false =>
      refine ⟨nofun, fun _ => (falls_closing depth hopening).append fun depth' => .inr ?_⟩
      by_cases hinner : inner.IsFollowed false
      · exact ((ih depth' false).1 hinner).falls (falls_closing depth' hclose)
      · exact ((ih depth' false).2 hinner).append fun depth'' => .inr (falls_closing depth'' hclose)

/-- The search for the bar that closes an absolute value always ends at a bar. It is the right one
exactly if every bar that opens in between comes right after an arithmetic operator or an opening
bar, and one that comes too early otherwise. -/
theorem findCloseBar_absolute (e : Barred) (h : entry ∈ e.absolutes 0) :
    ∃ i, findCloseBar e.tokens entry.1 = .ok (some i) ∧ i ≤ closePosition entry ∧
      (i = closePosition entry ↔ entry.2.BarsFollow opensBar) := by
  obtain ⟨start, inner⟩ := entry
  obtain ⟨before, opening, close, after, htokens, hstart, -, hclose⟩ :=
    exists_split_of_mem_absolutes h
  change start = 0 + before.length at hstart
  change ∃ i, findCloseBar e.tokens start = _ ∧ i ≤ start + 1 + inner.tokens.length ∧
    (i = start + 1 + inner.tokens.length ↔ inner.BarsFollow opensBar)
  rw [Nat.zero_add] at hstart
  rw [findCloseBar_eq htokens hstart]
  obtain ⟨hpasses, hfalls⟩ := inner.search_tokens 0 true
  have hfollow : inner.IsFollowed true ↔ inner.BarsFollow opensBar := and_iff_left fun _ => rfl
  by_cases hinner : inner.BarsFollow opensBar
  · refine ⟨start + 1 + inner.tokens.length, ?_, Nat.le_refl _, iff_of_true rfl hinner⟩
    rw [hpasses (hfollow.2 hinner)]
    simp [closingBar, hclose, Enclosed.prepend]
  · rcases hfalls fun h => hinner (hfollow.1 h) with ⟨front, last, back, hsplit, hends⟩ | ⟨_, hnone, -⟩
    · have hlength : inner.tokens.length = front.length + (back.length + 1) := by
        rw [hsplit, List.length_append, List.length_cons]
      refine ⟨start + 1 + front.length, by rw [hends]; rfl, by omega, iff_of_false ?_ hinner⟩
      omega
    · cases hnone

/-- In `|2*|x-3|-5|` the bar behind the product sign opens, and the outer bars are found. -/
theorem findCloseBar_of_product :
    ∃ (e : Barred) (entry : Nat × Barred), e.tokens = tokensOf "|2*|x-3|-5|" ∧
      entry ∈ e.absolutes 0 ∧ entry.2.BarsFollow opensBar ∧ closePosition entry = 10 ∧
      findCloseBar e.tokens 0 = .ok (some 10) := by
  let bar (i : Nat) : Token := ⟨.bar, ⟨i, i + 1⟩, "|"⟩
  let factor : Barred := .operand ⟨.number, ⟨1, 2⟩, "2"⟩ (.inr rfl)
  let difference : Barred := .operation (.operand ⟨.name, ⟨4, 5⟩, "x"⟩ (.inl rfl))
    ⟨.operator .sub, ⟨5, 6⟩, "-"⟩ rfl (.operand ⟨.number, ⟨6, 7⟩, "3"⟩ (.inr rfl))
  let inner : Barred := .operation
    (.operation factor ⟨.operator .mul, ⟨2, 3⟩, "*"⟩ rfl
      (.absolute (bar 3) difference (bar 7) ⟨rfl, rfl⟩))
    ⟨.operator .sub, ⟨8, 9⟩, "-"⟩ rfl (.operand ⟨.number, ⟨9, 10⟩, "5"⟩ (.inr rfl))
  have hmem : (0, inner) ∈ (absolute (bar 0) inner (bar 10) ⟨rfl, rfl⟩).absolutes 0 :=
    List.mem_cons_self
  have hfollow : inner.BarsFollow opensBar := by
    simp [inner, factor, difference, BarsFollow, startsWithBar, opensBar]
  obtain ⟨i, hi, -, hiff⟩ := findCloseBar_absolute _ hmem
  obtain rfl : i = 10 := hiff.2 hfollow
  exact ⟨_, _, by decide +kernel, hmem, hfollow, rfl, hi⟩

/-- In `|2^|x||` the bar behind the power sign is taken for a closing one, although it comes right
after an operator. The outer absolute value is closed by the last bar. -/
theorem findCloseBar_of_power :
    ∃ (e : Barred) (entry : Nat × Barred), e.tokens = tokensOf "|2^|x||" ∧
      e.BarsFollow (fun _ => true) ∧ entry ∈ e.absolutes 0 ∧ entry.1 = 0 ∧
      closePosition entry = 6 ∧ findCloseBar e.tokens 0 = .ok (some 3) := by
  let bar (i : Nat) : Token := ⟨.bar, ⟨i, i + 1⟩, "|"⟩
  let power : Barred := .operation (.operand ⟨.number, ⟨1, 2⟩, "2"⟩ (.inr rfl))
    ⟨.operator .pow, ⟨2, 3⟩, "^"⟩ rfl
    (.absolute (bar 3) (.operand ⟨.name, ⟨4, 5⟩, "x"⟩ (.inl rfl)) (bar 5) ⟨rfl, rfl⟩)
  refine ⟨.absolute (bar 0) power (bar 6) ⟨rfl, rfl⟩, (0, power), by decide +kernel, ?_,
    List.mem_cons_self, rfl, rfl, by decide +kernel⟩
  simp [power, BarsFollow]

end Barred

end Formulary.Reading
