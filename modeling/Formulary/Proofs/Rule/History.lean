import Formulary.Rule.Catalog
import Mathlib.Data.List.Basic

/-!
# The history of a catalog

The rules of an equation are added in rounds, one for each direction. A round reads the sides anew
and looks for its pattern among the rules that the rounds before it have left. The second round
finds no issue that the first one has not found, so a call that fails leaves no half of a two-way
rule behind (`addInRounds_eq`).

What one call keeps is said by `orderly_perform` and `grows_perform`: the rules stay numbered and
different, and a rule that is there stays as it is, but for being switched off. Both hold of every
history of calls (`orderly_after`, `grows_after`).
-/

namespace Formulary

namespace Rule

/-- The patterns of two rules match each other, so they are the same up to the names of the
wildcards. -/
def Alike (r s : Rule) : Prop :=
  (r.pattern.matches? s.pattern).isSome = true ∧ (s.pattern.matches? r.pattern).isSome = true

/-- A rule and the same rule later on. It may have been switched off, but never on. -/
structure Later (r s : Rule) : Prop where
  same : { s with active := r.active } = r
  active : s.active = true → r.active = true

theorem Later.refl (r : Rule) : r.Later r := ⟨rfl, fun h => h⟩

theorem Later.pattern_eq {r s : Rule} (h : r.Later s) : s.pattern = r.pattern :=
  (congrArg Rule.pattern h.same :)

theorem Later.replacement_eq {r s : Rule} (h : r.Later s) : s.replacement = r.replacement :=
  (congrArg Rule.replacement h.same :)

theorem Later.id_eq {r s : Rule} (h : r.Later s) : s.id = r.id :=
  (congrArg Rule.id h.same :)

theorem Later.trans {r s t : Rule} (hrs : r.Later s) (hst : s.Later t) : r.Later t := by
  refine ⟨?_, hrs.active ∘ hst.active⟩
  rw [← hrs.same, ← hst.same]

end Rule

namespace Catalog

variable {c c' c'' : Catalog} {o : Options} {equation description : String} {valid : Bool}

/-! ## Rounds -/

/-- One round: adds the rule that puts one text in the place of another. -/
def addRound (o : Options) (description : String) (valid : Bool) (pattern replacement : String)
    (c : Catalog) : Except Failure Unit × Catalog :=
  let pattern := readSide o pattern
  let replacement := readSide o replacement
  match pattern.firstIssue? <|> replacement.firstIssue? with
  | some issue => (.error issue.toFailure, c)
  | none => (.ok (), c.insert pattern replacement description valid)

/-- Some rounds, up to the first that fails. What was added before it stays. -/
def addRounds (o : Options) (description : String) (valid : Bool) :
    List (String × String) → Catalog → Except Failure Unit × Catalog
  | [], c => (.ok (), c)
  | (pattern, replacement) :: rounds, c =>
    match addRound o description valid pattern replacement c with
    | (.error f, c) => (.error f, c)
    | (.ok (), c) => addRounds o description valid rounds c

/-- The directions in which an equation is a rule. -/
def directions (left right : String) (oneWay : Bool) : List (String × String) :=
  if oneWay then [(left, right)] else [(left, right), (right, left)]

/-- Adds the rules of an equation in rounds. -/
def addInRounds (c : Catalog) (o : Options) (equation description : String)
    (valid oneWay : Bool) : Except Failure Unit × Catalog :=
  match sides equation with
  | [left, right] => addRounds o description valid (directions left right oneWay) c
  | sides => (.error (malformed equation sides.length), c)

/-- An answer with the catalog after it, which is the one before if the answer is a failure. -/
def orUnchanged {α : Type} (c : Catalog) :
    Except Failure (α × Catalog) → Except Failure α × Catalog
  | .ok (answer, c') => (.ok answer, c')
  | .error f => (.error f, c)

/-- A round fails if one of the sides has an issue, whichever of them is the pattern. -/
theorem addRound_eq_error (c : Catalog) {pattern replacement : String} {issue : Issue}
    (h : ((readSide o pattern).firstIssue? <|> (readSide o replacement).firstIssue?) = some issue) :
    addRound o description valid pattern replacement c = (.error issue.toFailure, c) := by
  rw [addRound]
  simp only [h]

theorem addRound_eq_ok (c : Catalog) {pattern replacement : String}
    (hpattern : (readSide o pattern).firstIssue? = none)
    (hreplacement : (readSide o replacement).firstIssue? = none) :
    addRound o description valid pattern replacement c =
      (.ok (), c.insert (readSide o pattern) (readSide o replacement) description valid) := by
  rw [addRound]
  simp only [hpattern, hreplacement, Option.orElse_eq_orElse, Option.orElse_none]

/-- Adding in rounds is adding at once: if the first round goes through, so does the second. -/
theorem addInRounds_eq (c : Catalog) (o : Options) (equation description : String)
    (valid oneWay : Bool) :
    c.addInRounds o equation description valid oneWay =
      c.orUnchanged ((c.add o equation description valid oneWay).map ((), ·)) := by
  rcases hsides : sides equation with _ | ⟨left, _ | ⟨right, _ | ⟨more, rest⟩⟩⟩
  · simp only [addInRounds, add, hsides]
    rfl
  · simp only [addInRounds, add, hsides]
    rfl
  · simp only [addInRounds, add, hsides]
    cases hissue : ((readSide o left).firstIssue? <|> (readSide o right).firstIssue?) with
    | some issue => cases oneWay <;> simp [directions, addRounds, addRound_eq_error c hissue,
        Except.map, orUnchanged]
    | none =>
      obtain ⟨hleft, hright⟩ : (readSide o left).firstIssue? = none ∧
          (readSide o right).firstIssue? = none := by simpa using hissue
      cases oneWay <;> simp [directions, addRounds, addRound_eq_ok _ hleft hright,
        addRound_eq_ok _ hright hleft, Except.map, orUnchanged]
  · simp only [addInRounds, add, hsides]
    rfl

/-! ## What rules are added to -/

/-- The rules of a catalog are numbered from one, and no two of them have the same pattern. -/
structure Orderly (c : Catalog) : Prop where
  ids : c.rules.map Rule.id = List.range' 1 c.rules.length
  distinct : c.rules.Pairwise fun r s => ¬r.Alike s

/-- Each rule of the first catalog is at the same place in the second one. There may be more rules
after them. -/
def Grows (c c' : Catalog) : Prop :=
  ∀ (place : Nat) (r : Rule), c.rules[place]? = some r →
    ∃ s, c'.rules[place]? = some s ∧ r.Later s

theorem Grows.refl (c : Catalog) : c.Grows c := fun _ r h => ⟨r, h, .refl r⟩

theorem Grows.trans (h : c.Grows c') (h' : c'.Grows c'') : c.Grows c'' := by
  intro place r hr
  obtain ⟨s, hs, hrs⟩ := h place r hr
  obtain ⟨t, ht, hst⟩ := h' place s hs
  exact ⟨t, ht, hrs.trans hst⟩

/-- A catalog stays orderly when a rule is added. -/
theorem orderly_insert (h : c.Orderly) (pattern replacement : Expr) :
    (c.insert pattern replacement description valid).Orderly := by
  unfold insert
  split
  · exact h
  · rename_i hnew
    refine ⟨?_, List.pairwise_append.2 ⟨h.distinct, List.pairwise_singleton _ _, ?_⟩⟩
    · rw [List.map_append, h.ids, List.length_append]
      simp [List.range'_concat, Nat.add_comm]
    · intro r hr s hs hsame
      rw [List.mem_singleton] at hs
      subst hs
      refine hnew (List.any_eq_true.2 ⟨r, hr, ?_⟩)
      rw [hsame.1, hsame.2, Bool.and_self]

/-- Adding a rule leaves the others where they are. -/
theorem grows_insert (c : Catalog) (pattern replacement : Expr) :
    c.Grows (c.insert pattern replacement description valid) := by
  intro place r hr
  refine ⟨r, ?_, .refl r⟩
  unfold insert
  split
  · exact hr
  · exact List.getElem?_append_left (List.getElem?_eq_some_iff.1 hr).1 ▸ hr

/-- What inserting a rule keeps, adding the rules of an equation keeps, also where it fails. -/
theorem addInRounds_induction {P : Catalog → Prop} {oneWay : Bool} (hc : P c)
    (hinsert : ∀ c pattern replacement, P c →
      P (c.insert (readSide o pattern) (readSide o replacement) description valid)) :
    P (c.addInRounds o equation description valid oneWay).2 := by
  have hround : ∀ pattern replacement c, P c →
      P (addRound o description valid pattern replacement c).2 := by
    intro pattern replacement c hc
    unfold addRound
    dsimp only
    split
    · exact hc
    · exact hinsert c _ _ hc
  have hrounds : ∀ rounds c, P c → P (addRounds o description valid rounds c).2 := by
    intro rounds
    induction rounds with
    | nil => exact fun c hc => hc
    | cons round rounds ih =>
      intro c hc
      have hfirst := hround round.1 round.2 c hc
      unfold addRounds
      split
      · rename_i heq
        rwa [heq] at hfirst
      · rename_i heq
        rw [heq] at hfirst
        exact ih _ hfirst
  unfold addInRounds
  split
  · exact hrounds _ _ hc
  · exact hc

/-! ## Switching off -/

theorem later_disableFor (target : Expr) (r : Rule) : r.Later (disableFor target r).1 := by
  unfold disableFor
  split
  · exact ⟨rfl, fun h => nomatch h⟩
  · exact .refl r

/-- A rule that is still active does not match. -/
theorem matches?_disableFor (target : Expr) (r : Rule)
    (h : (disableFor target r).1.active = true) :
    (disableFor target r).1.pattern.matches? target = none := by
  unfold disableFor at h ⊢
  split at h
  · cases h
  · rename_i hnone
    rw [if_neg hnone]
    exact Option.not_isSome_iff_eq_none.1 hnone

/-- There is a text before the first separator, whatever the equation is. -/
theorem sides_ne_nil (equation : String) : sides equation ≠ [] := by
  unfold sides
  rw [Ne, List.map_eq_nil_iff]
  fun_cases splitEquation equation.toList <;> simp_all

/-- The expression that the rules to be switched off match. -/
def leftSide (o : Options) (equation : String) : Expr :=
  readSide o ((sides equation).headD "")

theorem disable_eq_ok {n : Nat} (h : c.disable o equation = .ok (n, c')) :
    c'.rules = c.rules.map fun r => (disableFor (leftSide o equation) r).1 := by
  unfold disable at h
  split at h
  · rename_i left more hsides
    have hleft : leftSide o equation = readSide o left := by rw [leftSide, hsides, List.headD_cons]
    split at h
    · cases h
    · cases h
      rw [hleft, List.map_map]
      rfl
  · rename_i hsides
    exact absurd hsides (sides_ne_nil equation)

theorem orderly_disable {n : Nat} (hc : c.Orderly) (h : c.disable o equation = .ok (n, c')) :
    c'.Orderly := by
  have hrules := disable_eq_ok h
  have hlater (r : Rule) := later_disableFor (leftSide o equation) r
  constructor
  · rw [hrules, List.length_map, ← hc.ids, List.map_map]
    exact List.map_congr_left fun r _ => (hlater r).id_eq
  · rw [hrules, List.pairwise_map]
    refine hc.distinct.imp ?_
    intro r s hrs
    rwa [Rule.Alike, (hlater r).pattern_eq, (hlater s).pattern_eq]

theorem grows_disable {n : Nat} (h : c.disable o equation = .ok (n, c')) : c.Grows c' := by
  intro place r hr
  refine ⟨_, ?_, later_disableFor (leftSide o equation) r⟩
  rw [disable_eq_ok h, List.getElem?_map, hr, Option.map_some]

/-! ## Calls -/

/-- What is asked of a catalog. -/
inductive Call where
  | add (o : Options) (equation description : String) (valid oneWay : Bool)
  | disable (o : Options) (equation : String)

/-- Whether a call succeeds, and the catalog after it. -/
def perform (c : Catalog) : Call → Except Failure Unit × Catalog
  | .add o equation description valid oneWay => c.addInRounds o equation description valid oneWay
  | .disable o equation => c.orUnchanged ((c.disable o equation).map fun (_, c') => ((), c'))

/-- The catalog after some calls, failed ones among them. -/
def after (c : Catalog) (calls : List Call) : Catalog :=
  calls.foldl (fun c call => (c.perform call).2) c

theorem orUnchanged_of_error {α : Type} {answer : Except Failure (α × Catalog)} {f : Failure}
    (h : (c.orUnchanged answer).1 = .error f) : (c.orUnchanged answer).2 = c := by
  cases answer with
  | ok result => cases h
  | error f => rfl

/-- A call that switches rules off leaves the catalog as it is or as `disable` returns it. -/
theorem perform_disable_cases (c : Catalog) (o : Options) (equation : String) :
    (∃ f, c.perform (.disable o equation) = (.error f, c)) ∨
      ∃ n c', c.disable o equation = .ok (n, c') ∧
        c.perform (.disable o equation) = (.ok (), c') := by
  simp only [perform]
  cases c.disable o equation with
  | error f => exact .inl ⟨f, rfl⟩
  | ok result => exact .inr ⟨result.1, result.2, rfl, rfl⟩

/-- No call brings a catalog out of order. -/
theorem orderly_perform (hc : c.Orderly) (call : Call) : (c.perform call).2.Orderly := by
  cases call with
  | add o equation description valid oneWay =>
    exact addInRounds_induction hc fun _ _ _ h => orderly_insert h _ _
  | disable o equation =>
    obtain ⟨f, hsame⟩ | ⟨n, c', hok, hc'⟩ := c.perform_disable_cases o equation
    · rwa [hsame]
    · rw [hc']
      exact orderly_disable hc hok

theorem grows_perform (c : Catalog) (call : Call) : c.Grows (c.perform call).2 := by
  cases call with
  | add o equation description valid oneWay =>
    exact addInRounds_induction (.refl c) fun c' _ _ h => h.trans (grows_insert c' _ _)
  | disable o equation =>
    obtain ⟨f, hsame⟩ | ⟨n, c', hok, hc'⟩ := c.perform_disable_cases o equation
    · rw [hsame]
      exact .refl c
    · rw [hc']
      exact grows_disable hok

/-- A call that fails leaves the catalog as it was. -/
theorem perform_of_error {call : Call} {f : Failure} (h : (c.perform call).1 = .error f) :
    (c.perform call).2 = c := by
  cases call with
  | add o equation description valid oneWay =>
    rw [perform, addInRounds_eq] at h ⊢
    exact orUnchanged_of_error h
  | disable o equation => exact orUnchanged_of_error h

/-- After rules have been switched off for an equation, no active rule matches its left side. -/
theorem matches?_perform_disable (h : (c.perform (.disable o equation)).1 = .ok ()) :
    ∀ r ∈ (c.perform (.disable o equation)).2.rules, r.active = true →
      r.pattern.matches? (leftSide o equation) = none := by
  obtain ⟨f, hsame⟩ | ⟨n, c', hok, hc'⟩ := c.perform_disable_cases o equation
  · rw [hsame] at h
    cases h
  · intro r hr hactive
    rw [hc', disable_eq_ok hok] at hr
    obtain ⟨before, -, rfl⟩ := List.mem_map.1 hr
    exact matches?_disableFor _ _ hactive

/-- A catalog is orderly after all calls. -/
theorem orderly_after (hc : c.Orderly) (calls : List Call) : (c.after calls).Orderly := by
  induction calls generalizing c with
  | nil => exact hc
  | cons call calls ih => exact ih (orderly_perform hc call)

/-- No rule is ever taken away. -/
theorem grows_after (c : Catalog) (calls : List Call) : c.Grows (c.after calls) := by
  induction calls generalizing c with
  | nil => exact .refl c
  | cons call calls ih => exact (grows_perform c call).trans (ih _)

theorem orderly_empty : ({} : Catalog).Orderly := ⟨rfl, .nil⟩

/-- Whatever calls a catalog has seen since it was empty, its rules are numbered in order and
differ up to the names of the wildcards. Later calls leave each rule in its place and as it is, but
for switching it off; a call that fails leaves everything as it is, and after a call that switches
rules off no active rule matches what it was asked for. Adding a rule in rounds is what `add`
does. -/
theorem history_of_calls (calls more : List Call) (call : Call) (o : Options)
    (equation description : String) (valid oneWay : Bool) :
    let c := ({} : Catalog).after calls
    c.Orderly ∧ c.Grows (c.after more) ∧
      (∀ f, (c.perform call).1 = .error f → (c.perform call).2 = c) ∧
      ((c.perform (.disable o equation)).1 = .ok () →
        ∀ r ∈ (c.perform (.disable o equation)).2.rules, r.active = true →
          r.pattern.matches? (leftSide o equation) = none) ∧
      c.perform (.add o equation description valid oneWay) =
        c.orUnchanged ((c.add o equation description valid oneWay).map ((), ·)) :=
  ⟨orderly_after orderly_empty calls, grows_after _ more, fun _ => perform_of_error,
    matches?_perform_disable, addInRounds_eq _ o equation description valid oneWay⟩

/-- The rule `a*1==a` and its reverse are both switched off for `x*1`. An equation of which only
the second side has an issue adds nothing. -/
theorem history_of_one_equation :
    let c := ({} : Catalog).after [.add {} "a*1==a" "one is neutral" true false]
    c.rules.length = 2 ∧ (c.perform (.add {} "b==a+" "incomplete" true false)).2 = c ∧
      ∀ r ∈ (c.perform (.disable {} "x*1")).2.rules, r.active = true →
        r.pattern.matches? (leftSide {} "x*1") = none := by
  have h := history_of_calls [.add {} "a*1==a" "one is neutral" true false] []
    (.add {} "b==a+" "incomplete" true false) {} "x*1" "" true true
  exact ⟨by decide +kernel,
    h.2.2.1 ⟨⟨1, 2⟩, .unreadable (.missingValue '+')⟩ (by decide +kernel),
    h.2.2.2.1 (by decide +kernel)⟩

end Catalog

end Formulary
