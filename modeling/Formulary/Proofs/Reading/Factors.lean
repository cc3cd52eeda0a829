import Formulary.Proofs.Reading.Extents

/-!
# Factors side by side

Where one operand ends and the next one begins, a product sign may be left out. `Filled` relates
tokens to the same tokens with all these signs written, wherever the tokens stand. As long as no
sign is put between a name and the parenthesis or bracket right behind it, the searches of the
reader find the same groups, bars and arguments in both (`Filled.closing_rel`,
`Filled.closingBar_rel`, `Filled.arguments_rel`, `Filled.stripped`).

A parenthesis that is closed without having been opened ends no operand if it comes first.
`openAfter` counts the open parentheses and gives none in this case.
-/

namespace Formulary.Reading

variable {ts us : List Token} {t u : Token} {g : Enclosed}

/-! ## Product signs -/

/-- An operand ends with a token of the kind. -/
def endsOperand : TokenKind → Bool
  | .number | .name | .closeParen | .closeBracket => true
  | _ => false

/-- An operand begins with a token of the kind. -/
def beginsOperand : TokenKind → Bool
  | .number | .name | .openParen => true
  | _ => false

/-- An operand ends with the one token and the next one begins with the other. A name right in front
of a parenthesis is no operand of its own. -/
def Meet (t u : Token) : Prop :=
  endsOperand t.kind = true ∧ beginsOperand u.kind = true ∧
    ¬ (t.kind = .name ∧ u.kind = .openParen ∧ u.span.start = t.span.stop)

instance (t u : Token) : Decidable (Meet t u) := inferInstanceAs (Decidable (_ ∧ _ ∧ ¬ _))

theorem not_meet_of_ends (ht : endsOperand t.kind = false) : ¬ Meet t u := by
  rintro ⟨hends, -⟩
  rw [ht] at hends
  cases hends

theorem not_meet_of_begins (hu : beginsOperand u.kind = false) : ¬ Meet t u := by
  rintro ⟨-, hbegins, -⟩
  rw [hu] at hbegins
  cases hbegins

/-- The tokens differ in their places only. -/
structure Alike (t t' : Token) : Prop where
  kind : t'.kind = t.kind
  lexeme : t'.lexeme = t.lexeme

/-- The second tokens are the first ones with a product sign wherever two operands meet, also behind
the token that comes before. What comes right behind a name still does. -/
inductive Filled : (before : Option (Token × Token)) → List Token → List Token → Prop
  | nil {before : Option (Token × Token)} : Filled before [] []
  | keep {before : Option (Token × Token)} {t t' : Token} {ts ts' : List Token}
    (apart : ∀ q ∈ before, ¬ Meet q.1 t)
    (near : ∀ q ∈ before, q.1.kind = .name →
      (t'.span.start = q.2.span.stop ↔ t.span.start = q.1.span.stop))
    (alike : Alike t t') (rest : Filled (some (t, t')) ts ts') : Filled before (t :: ts) (t' :: ts')
  | product {q q' t t' sign : Token} {ts ts' : List Token} (meet : Meet q t)
    (times : sign.kind = .operator .mul) (alike : Alike t t')
    (rest : Filled (some (t, t')) ts ts') : Filled (some (q, q')) (t :: ts) (sign :: t' :: ts')

variable {before : Option (Token × Token)} {ts' : List Token} {t' : Token}

/-- Behind a token that ends no operand, it does not matter what comes before. -/
theorem Filled.fresh (h : Filled (some (t, t')) ts ts') (ht : endsOperand t.kind = false) :
    Filled none ts ts' := by
  cases h with
  | nil => exact .nil
  | keep _ _ alike rest => exact .keep (by simp) (by simp) alike rest
  | product meet _ _ _ => exact absurd meet (not_meet_of_ends ht)

theorem Filled.ne_nil (h : Filled before ts ts') (hts : ts ≠ []) : ts' ≠ [] := by
  cases h with
  | nil => exact absurd rfl hts
  | keep _ _ _ _ => exact List.cons_ne_nil _ _
  | product _ _ _ _ => exact List.cons_ne_nil _ _

/-- No sign is put in front of a token that begins no operand. -/
theorem Filled.keeps (h : Filled before (t :: ts) us) (ht : beginsOperand t.kind = false) :
    ∃ t' ts', us = t' :: ts' ∧ Alike t t' ∧ Filled (some (t, t')) ts ts' := by
  cases h with
  | keep _ _ alike rest => exact ⟨_, _, rfl, alike, rest⟩
  | product meet _ _ _ => exact absurd meet (not_meet_of_begins ht)

theorem Filled.any_openBracket (h : Filled before ts ts') :
    ts'.any (·.kind == .openBracket) = ts.any (·.kind == .openBracket) := by
  induction h with
  | nil => rfl
  | keep _ _ alike _ ih => rw [List.any_cons, List.any_cons, alike.kind, ih]
  | product _ times alike _ ih =>
    rw [List.any_cons, List.any_cons, List.any_cons, alike.kind, times, ih]
    rfl

/-! ## Groups -/

/-- The groups are related, and so is what comes behind them. -/
structure SameGroup (before : Option (Token × Token)) (g g' : Enclosed) : Prop where
  inner : Filled before g.inner g'.inner
  close : Alike g.close g'.close
  rest : Filled (some (g.close, g'.close)) g.rest g'.rest

theorem rel_map {α β γ δ : Type} {r : α → β → Prop} {r' : γ → δ → Prop} {f : α → γ} {f' : β → δ}
    {a : Option α} {b : Option β} (h : Option.Rel r a b) (hf : ∀ x y, r x y → r' (f x) (f' y)) :
    Option.Rel r' (a.map f) (b.map f') := by
  cases h with
  | some hxy => exact .some (hf _ _ hxy)
  | none => exact .none

theorem SameGroup.keep {g g' : Enclosed} (apart : ∀ q ∈ before, ¬ Meet q.1 t)
    (near : ∀ q ∈ before, q.1.kind = .name →
      (t'.span.start = q.2.span.stop ↔ t.span.start = q.1.span.stop))
    (alike : Alike t t') (h : SameGroup (some (t, t')) g g') :
    SameGroup before (g.cons t) (g'.cons t') :=
  ⟨.keep apart near alike h.inner, h.close, h.rest⟩

theorem SameGroup.product {g g' : Enclosed} {q q' sign : Token} (meet : Meet q t)
    (times : sign.kind = .operator .mul) (alike : Alike t t')
    (h : SameGroup (some (t, t')) g g') :
    SameGroup (some (q, q')) (g.cons t) ((g'.cons t').cons sign) :=
  ⟨.product meet times alike h.inner, h.close, h.rest⟩

/-- The same groups end in both. -/
theorem Filled.closing_rel {opens closes : TokenKind} (h : Filled before ts ts')
    (pair : Pair opens closes) (depth : Nat) :
    Option.Rel (SameGroup before) (closing opens closes depth ts)
      (closing opens closes depth ts') := by
  have hends : beginsOperand closes = false := by cases pair <;> rfl
  induction h generalizing depth with
  | nil => exact .none
  | keep apart near alike rest ih =>
    have step (d : Nat) := rel_map (ih d) fun _ _ => SameGroup.keep apart near alike
    simp only [closing, alike.kind]
    split
    · exact step _
    · split
      · cases depth with
        | zero => exact .some ⟨.nil, alike, rest⟩
        | succ depth => exact step _
      · exact step _
  | @product q q' t t' sign ts ts' meet times alike rest ih =>
    have hsign : closing opens closes depth (sign :: t' :: ts') =
        (closing opens closes depth (t' :: ts')).map (Enclosed.cons sign) := by
      cases pair <;> exact closing_other (by simp [times]) (by simp [times]) _ _
    have hcloses : t.kind ≠ closes := fun hkind => not_meet_of_begins (by rw [hkind, hends]) meet
    rw [hsign]
    simp only [closing, alike.kind, if_neg hcloses]
    split
    · rw [Option.map_map]
      exact rel_map (ih _) fun _ _ => SameGroup.product meet times alike
    · rw [Option.map_map]
      exact rel_map (ih _) fun _ _ => SameGroup.product meet times alike

/-- The same bars belong together in both. -/
theorem Filled.closingBar_rel (h : Filled before ts ts') (depth : Nat) (opens : Bool) :
    Option.Rel (SameGroup before) (closingBar depth opens ts) (closingBar depth opens ts') := by
  induction h generalizing depth opens with
  | nil => exact .none
  | keep apart near alike rest ih =>
    have step (d : Nat) (o : Bool) := rel_map (ih d o) fun _ _ => SameGroup.keep apart near alike
    simp only [closingBar, alike.kind]
    split
    · split
      · exact step _ _
      · cases depth with
        | zero => exact .some ⟨.nil, alike, rest⟩
        | succ depth => exact step _ _
    · exact step _ _
  | @product q q' t t' sign ts ts' meet times alike rest ih =>
    have hsign : sign.kind ≠ .bar := by simp [times]
    have hbar : t.kind ≠ .bar := fun hkind => not_meet_of_begins (by rw [hkind]; rfl) meet
    simp only [closingBar, alike.kind, if_neg hsign, if_neg hbar]
    rw [Option.map_map]
    exact rel_map (ih depth _) fun _ _ => SameGroup.product meet times alike

theorem of_rel_some {α β : Type} {r : α → β → Prop} {a : α} {b : Option β}
    (h : Option.Rel r (some a) b) : ∃ b', b = some b' ∧ r a b' := by
  cases h with
  | some hab => exact ⟨_, rfl, hab⟩

theorem Filled.closing_some {opens closes : TokenKind} (h : Filled before ts ts')
    (pair : Pair opens closes) {depth : Nat} (hg : closing opens closes depth ts = some g) :
    ∃ g', closing opens closes depth ts' = some g' ∧ SameGroup before g g' :=
  of_rel_some (hg ▸ h.closing_rel pair depth)

theorem Filled.closingBar_some (h : Filled before ts ts') {depth : Nat} {opens : Bool}
    (hg : closingBar depth opens ts = some g) :
    ∃ g', closingBar depth opens ts' = some g' ∧ SameGroup before g g' :=
  of_rel_some (hg ▸ h.closingBar_rel depth opens)

/-! ## Arguments -/

/-- The arguments are related one by one, and the first ones also by what comes before them. -/
def SameArguments (before : Option (Token × Token)) (parts parts' : List (List Token)) : Prop :=
  ∃ first others first' others', parts = first :: others ∧ parts' = first' :: others' ∧
    Filled before first first' ∧ List.Forall₂ (Filled none) others others'

/-- The same commas separate arguments in both. -/
theorem Filled.arguments_rel (h : Filled before ts ts') (depth : Int) :
    SameArguments before (arguments depth ts) (arguments depth ts') := by
  induction h generalizing depth with
  | nil => exact ⟨[], [], [], [], rfl, rfl, .nil, .nil⟩
  | @keep before t t' ts ts' apart near alike rest ih =>
    by_cases hcomma : t.kind = .comma ∧ depth = 0
    · obtain ⟨first, others, first', others', hts, hts', hfirst, hothers⟩ := ih depth
      have hfresh : Filled none first first' := hfirst.fresh (by rw [hcomma.1]; rfl)
      rw [arguments_separator hcomma, arguments_separator (by rwa [alike.kind]), hts, hts']
      exact ⟨[], _, [], _, rfl, rfl, .nil, .cons hfresh hothers⟩
    · obtain ⟨first, others, first', others', hts, hts', hfirst, hothers⟩ :=
        ih (depthAfter depth t.kind)
      rw [arguments_cons hcomma, arguments_cons (by rwa [alike.kind]), alike.kind, hts, hts']
      exact ⟨_, _, _, _, rfl, rfl, .keep apart near alike hfirst, hothers⟩
  | @product q q' t t' sign ts ts' meet times alike rest ih =>
    have hcomma : ¬ (t.kind = .comma ∧ depth = 0) :=
      fun ⟨hkind, _⟩ => not_meet_of_begins (by rw [hkind]; rfl) meet
    have hsign : ¬ (sign.kind = .comma ∧ depth = 0) := by simp [times]
    have hdepth : depthAfter depth sign.kind = depth := by rw [times]; rfl
    obtain ⟨first, others, first', others', hts, hts', hfirst, hothers⟩ :=
      ih (depthAfter depth t.kind)
    rw [arguments_cons hcomma, arguments_cons hsign, hdepth, arguments_cons (by rwa [alike.kind]),
      alike.kind, hts, hts']
    exact ⟨_, _, _, _, rfl, rfl, .product meet times alike hfirst, hothers⟩

theorem Filled.arguments_forall₂ (h : Filled none ts ts') :
    List.Forall₂ (Filled none) (arguments 0 ts) (arguments 0 ts') := by
  obtain ⟨first, others, first', others', hts, hts', hfirst, hothers⟩ := h.arguments_rel 0
  rw [hts, hts']
  exact .cons hfirst hothers

/-! ## Redundant parentheses -/

theorem strip_enclosed {inner : List Token} {close : Token} (ht : t.kind = .openParen)
    (hts : closing .openParen .closeParen 0 ts = some ⟨inner, close, []⟩) (outer : Span) :
    strip (t :: ts) outer = strip inner ⟨t.span.stop, close.span.start⟩ := by
  rw [strip, if_pos ht]
  split
  · rename_i heq
    rw [hts] at heq
    cases heq
    rfl
  · rename_i hnone
    exact absurd hts (hnone inner close)

theorem strip_kept
    (hts : ∀ inner close, closing .openParen .closeParen 0 ts ≠ some ⟨inner, close, []⟩)
    (outer : Span) : strip (t :: ts) outer = (t :: ts, outer) := by
  rw [strip]
  split
  · split
    · rename_i heq
      exact absurd heq (hts _ _)
    · rfl
  · rfl

/-- The same parentheses are taken off both. -/
theorem Filled.stripped (h : Filled none ts ts') (outer outer' : Span) :
    Filled none (strip ts outer).1 (strip ts' outer').1 := by
  fun_induction strip ts outer generalizing ts' outer' with
  | case1 =>
    cases h
    rw [strip]
    exact .nil
  | case2 outer t ts ht inner close hts ih =>
    cases h with
    | keep _ _ alike rest =>
      obtain ⟨⟨inner', close', rest'⟩, hts', hinner, -, hrest⟩ := rest.closing_some .parens hts
      cases hrest
      rw [strip_enclosed (alike.kind.trans ht) hts']
      exact ih (hinner.fresh (by rw [ht]; rfl)) _
  | case3 outer t ts ht hts =>
    have hwhole := h
    cases h with
    | keep _ _ alike rest =>
      have hrel := rest.closing_rel .parens 0
      rw [strip_kept]
      · exact hwhole
      · intro inner' close' hts'
        rw [hts'] at hrel
        generalize hfound : closing .openParen .closeParen 0 ts = found at hrel
        cases hrel with
        | @some g _ hgroup =>
          obtain ⟨inner, close, rest⟩ := g
          obtain ⟨-, -, hrest⟩ := hgroup
          cases hrest
          exact hts inner close hfound
  | case4 outer t ts ht =>
    have hwhole := h
    cases h with
    | keep _ _ alike rest =>
      rw [strip_other]
      · exact hwhole
      · rintro _ ⟨⟩
        rwa [alike.kind]

/-! ## Open parentheses -/

/-- The number of open parentheses behind a token; none if it closes one that is not open. -/
def afterToken (depth : Nat) (t : Token) : Option Nat :=
  match t.kind with
  | .openParen => some (depth + 1)
  | .closeParen => if depth = 0 then none else some (depth - 1)
  | _ => some depth

/-- The number of open parentheses behind some tokens; none if one is closed that is not open. -/
def openAfter (depth : Nat) (ts : List Token) : Option Nat := ts.foldlM afterToken depth

theorem openAfter_cons (depth : Nat) (t : Token) (ts : List Token) :
    openAfter depth (t :: ts) = (afterToken depth t).bind fun d => openAfter d ts :=
  List.foldlM_cons

theorem openAfter_append (depth : Nat) (ts us : List Token) :
    openAfter depth (ts ++ us) = (openAfter depth ts).bind fun d => openAfter d us :=
  List.foldlM_append

theorem openAfter_open (ht : t.kind = .openParen) (depth : Nat) (ts : List Token) :
    openAfter depth (t :: ts) = openAfter (depth + 1) ts := by
  rw [openAfter_cons, afterToken, ht]
  rfl

theorem openAfter_close (ht : t.kind = .closeParen) (depth : Nat) (ts : List Token) :
    openAfter (depth + 1) (t :: ts) = openAfter depth ts := by
  rw [openAfter_cons, afterToken, ht]
  rfl

theorem openAfter_unopened (ht : t.kind = .closeParen) (ts : List Token) :
    openAfter 0 (t :: ts) = none := by
  rw [openAfter_cons, afterToken, ht]
  rfl

theorem openAfter_other (hopen : t.kind ≠ .openParen) (hclose : t.kind ≠ .closeParen) (depth : Nat)
    (ts : List Token) : openAfter depth (t :: ts) = openAfter depth ts := by
  rw [openAfter_cons, afterToken]
  split
  · exact absurd ‹_› hopen
  · exact absurd ‹_› hclose
  · rfl

theorem isSome_openAfter_of_append {depth : Nat} (h : (openAfter depth (ts ++ us)).isSome) :
    (openAfter depth ts).isSome := by
  rw [openAfter_append] at h
  exact Option.isSome_of_isSome_bind h

/-- What is between two tokens other than parentheses counts, and what is behind them. -/
theorem openAfter_enclosed (hts : ts = g.inner ++ g.close :: g.rest)
    (hopen : g.close.kind ≠ .openParen) (hclose : g.close.kind ≠ .closeParen) (depth : Nat) :
    openAfter depth ts = (openAfter depth g.inner).bind fun d => openAfter d g.rest := by
  rw [hts, openAfter_append]
  exact congrArg _ (funext fun d => openAfter_other hopen hclose d g.rest)

/-- Parentheses that are open all the time make no difference. -/
theorem openAfter_succ {depth d : Nat} (h : openAfter depth ts = some d) :
    openAfter (depth + 1) ts = some (d + 1) := by
  induction ts generalizing depth with
  | nil => exact congrArg _ (congrArg _ (Option.some.inj h))
  | cons t ts ih =>
    rw [openAfter_cons] at h ⊢
    obtain ⟨e, he, h⟩ := Option.bind_eq_some_iff.1 h
    have hstep : afterToken (depth + 1) t = some (e + 1) := by
      unfold afterToken at he ⊢
      split at he
      · cases he
        rfl
      · rw [Option.ite_none_left_eq_some] at he
        obtain ⟨hdepth, he⟩ := he
        cases he
        rw [if_neg (by omega)]
        congr 1
        omega
      · cases he
        rfl
    rw [hstep]
    exact ih h

/-- Where a group ends, the parentheses opened inside it are closed. -/
theorem openAfter_closing {depth : Nat} (h : closing .openParen .closeParen depth ts = some g) :
    openAfter depth g.inner = some 0 := by
  induction ts generalizing depth g with
  | nil => cases h
  | cons t ts ih =>
    by_cases hopen : t.kind = .openParen
    · rw [closing_open hopen] at h
      obtain ⟨g', hg', rfl⟩ := Option.map_eq_some_iff.1 h
      exact (openAfter_open hopen _ _).trans (ih hg')
    · by_cases hclose : t.kind = .closeParen
      · cases depth with
        | zero =>
          rw [closing_end hopen hclose] at h
          cases h
          rfl
        | succ depth =>
          rw [closing_close hopen hclose] at h
          obtain ⟨g', hg', rfl⟩ := Option.map_eq_some_iff.1 h
          exact (openAfter_close hclose _ _).trans (ih hg')
      · rw [closing_other hopen hclose] at h
        obtain ⟨g', hg', rfl⟩ := Option.map_eq_some_iff.1 h
        exact (openAfter_other hopen hclose _ _).trans (ih hg')

/-- A group in parentheses leaves none of them open. -/
theorem openAfter_group (ht : t.kind = .openParen)
    (hg : closing .openParen .closeParen 0 ts = some g) :
    openAfter 0 (t :: ts) = openAfter 0 g.rest := by
  obtain ⟨hts, hclose⟩ := closing_eq_some hg
  rw [openAfter_open ht, hts, openAfter_append, openAfter_succ (openAfter_closing hg),
    Option.bind_some, openAfter_close hclose]

/-- Taking parentheses off on both sides leaves the count as it is. -/
theorem openAfter_strip (ts : List Token) (outer : Span) :
    openAfter 0 (strip ts outer).1 = openAfter 0 ts := by
  fun_induction strip ts outer with
  | case1 => rfl
  | case2 outer t ts ht inner close hts ih =>
    rw [ih, openAfter_closing hts, openAfter_group ht hts]
    rfl
  | case3 => rfl
  | case4 => rfl

/-- The next argument starts behind the comma that ends the one before it. -/
theorem openAfter_arguments {d : Int} {part next : List Token} {others : List (List Token)}
    (h : arguments d ts = part :: next :: others) :
    ∃ us, arguments 0 us = next :: others ∧
      ∀ depth, openAfter depth ts = (openAfter depth part).bind fun d => openAfter d us := by
  induction ts generalizing d part with
  | nil => cases h
  | cons t ts ih =>
    by_cases hcomma : t.kind = .comma ∧ d = 0
    · rw [arguments_separator hcomma] at h
      obtain ⟨rfl, hothers⟩ := List.cons.inj h
      refine ⟨ts, hcomma.2 ▸ hothers, fun depth => ?_⟩
      exact openAfter_other (by simp [hcomma.1]) (by simp [hcomma.1]) _ _
    · rw [arguments_cons hcomma] at h
      obtain ⟨first, parts, hparts⟩ := List.exists_cons_of_ne_nil
        (arguments_ne_nil (depthAfter d t.kind) ts)
      rw [hparts] at h
      obtain ⟨rfl, rfl⟩ := List.cons.inj h
      obtain ⟨us, hus, hopen⟩ := ih hparts
      refine ⟨us, hus, fun depth => ?_⟩
      rw [List.singleton_append, openAfter_cons, openAfter_cons, Option.bind_assoc]
      exact congrArg _ (funext hopen)

end Formulary.Reading
