import Formulary.Odometer
import Mathlib.Algebra.BigOperators.Group.List.Basic
import Mathlib.Data.List.Forall2
import Mathlib.Data.List.Nodup

/-!
# What an odometer shows

How often an odometer can be moved on is a number in a mixed radix: the digits are the numbers of
entries behind the ones that the wheels show, and the numbers of entries are the radices. So what an
odometer shows is determined by this number (`remaining_inj`), and since moving it on makes the number
smaller by one, it shows whatever has at most that number (`mem_states`). An odometer whose wheels
are all at their first entries has the greatest number that there is. Until its end it therefore shows
each choice of one position for each wheel, and none of them twice (`mem_positions_states`,
`nodup_positions_states`).
-/

namespace Formulary.Odometer

open Wheel (behind)

variable {α : Type} {w w' : Wheel α} {ws ws' next : List (Wheel α)}

/-! ## Wheels with the same entries -/

/-- The entries of all wheels. -/
def entries (ws : List (Wheel α)) : List (List α) := ws.map Wheel.entries

/-- The positions of all wheels. -/
def positions (ws : List (Wheel α)) : List Nat := ws.map fun w => w.position

theorem wheel_eq (hentries : w.entries = w'.entries) (h : (w.position : Nat) = w'.position) :
    w = w' := by
  obtain ⟨es, i⟩ := w
  obtain ⟨es', i'⟩ := w'
  obtain rfl : es = es' := hentries
  obtain rfl : i = i' := Fin.ext h
  rfl

theorem behind_lt (w : Wheel α) : w.behind < w.entries.length := by
  have := w.position.isLt
  unfold behind
  omega

theorem wheel_eq_of_behind (hentries : w.entries = w'.entries) (h : w.behind = w'.behind) :
    w = w' := by
  have hlt := w.position.isLt
  have hlt' := w'.position.isLt
  have hlength := congrArg List.length hentries
  refine wheel_eq hentries ?_
  unfold behind at h
  omega

/-- What an odometer shows is determined by how often it can be moved on. -/
theorem remaining_inj (hentries : entries ws = entries ws') (h : remaining ws = remaining ws') :
    ws = ws' := by
  induction ws generalizing ws' with
  | nil => exact (List.map_eq_nil_iff.1 hentries.symm).symm
  | cons w ws ih =>
    cases ws' with
    | nil => cases hentries
    | cons w' ws' =>
      obtain ⟨hw, hws⟩ := List.cons.inj hentries
      have hlt := behind_lt w
      have hlt' := behind_lt w'
      rw [remaining, remaining, ← hw] at h
      rw [← hw] at hlt'
      have hbehind := congrArg (· % w.entries.length) h
      have hremaining := congrArg (· / w.entries.length) h
      simp only [Nat.add_mul_mod_self_left, Nat.mod_eq_of_lt hlt, Nat.mod_eq_of_lt hlt'] at hbehind
      simp only [Nat.add_mul_div_left _ _ (Nat.zero_lt_of_lt hlt), Nat.div_eq_of_lt hlt,
        Nat.div_eq_of_lt hlt', Nat.zero_add] at hremaining
      rw [wheel_eq_of_behind hw hbehind, ih hws hremaining]

/-! ## Moving an odometer on -/

theorem entries_advance? (h : advance? ws = some next) : entries next = entries ws := by
  induction ws generalizing next with
  | nil => cases h
  | cons w ws ih =>
    rw [advance?] at h
    split at h
    · rename_i moved hmoved
      obtain rfl := Option.some.inj h
      exact congrArg (· :: entries ws) (Wheel.behind_next? hmoved).1
    · obtain ⟨rest, hrest, rfl⟩ := Option.map_eq_some_iff.1 h
      exact congrArg (w.entries :: ·) (ih hrest)

theorem remaining_of_advance?_eq_none (h : advance? ws = none) : remaining ws = 0 := by
  induction ws with
  | nil => rfl
  | cons w ws ih =>
    rw [advance?] at h
    split at h
    · cases h
    · rename_i hlast
      rw [remaining, Wheel.behind_of_next?_eq_none hlast, ih (Option.map_eq_none_iff.1 h),
        Nat.mul_zero]

/-- What holds at the end of an odometer, and before each move if it does after it. -/
@[elab_as_elim]
theorem induction {motive : List (Wheel α) → Prop} (ws : List (Wheel α))
    (last : ∀ ws, advance? ws = none → motive ws)
    (step : ∀ ws next, advance? ws = some next → motive next → motive ws) : motive ws := by
  obtain ⟨n, hn⟩ : ∃ n, n = remaining ws := ⟨_, rfl⟩
  induction n using Nat.strongRecOn generalizing ws with
  | _ n ih =>
    cases h : advance? ws with
    | none => exact last ws h
    | some next =>
      have hlt := remaining_advance? h
      exact step ws next h (ih (remaining next) (by omega) next rfl)

/-- All that an odometer shows until it is at its end. -/
def states (ws : List (Wheel α)) : List (List (Wheel α)) :=
  ws ::
    match _ : advance? ws with
    | some next => states next
    | none => []
termination_by remaining ws
decreasing_by exact Nat.lt_of_lt_of_eq (Nat.lt_succ_self _) (remaining_advance? ‹_›)

theorem states_of_none (h : advance? ws = none) : states ws = [ws] := by
  rw [states]
  split
  · rename_i next hnext
    cases h.symm.trans hnext
  · rfl

theorem states_of_some (h : advance? ws = some next) : states ws = ws :: states next := by
  rw [states]
  split
  · rename_i next' hnext
    rw [Option.some.inj (h.symm.trans hnext)]
  · rename_i hnone
    cases h.symm.trans hnone

/-- A test of everything that an odometer shows ends early only if it fails. -/
theorem everywhere_eq_all (test : List (Wheel α) → Bool) (ws : List (Wheel α)) :
    everywhere test ws = (states ws).all test := by
  refine induction ws (fun ws h => ?_) fun ws next h ih => ?_
  · rw [states_of_none h, everywhere, List.all_cons]
    split
    · rename_i next hnext
      cases h.symm.trans hnext
    · rfl
  · rw [states_of_some h, everywhere, List.all_cons]
    split
    · rename_i next' hnext
      rw [← Option.some.inj (h.symm.trans hnext), ih]
    · rename_i hnone
      cases h.symm.trans hnone

theorem length_states (ws : List (Wheel α)) : (states ws).length = remaining ws + 1 := by
  refine induction ws (fun ws h => ?_) fun ws next h ih => ?_
  · rw [states_of_none h, remaining_of_advance?_eq_none h, List.length_singleton]
  · rw [states_of_some h, List.length_cons, ih, remaining_advance? h]

/-- An odometer shows what can be moved on at most as often as itself. -/
theorem mem_states : ws' ∈ states ws ↔ entries ws' = entries ws ∧ remaining ws' ≤ remaining ws := by
  refine induction ws (fun ws h => ?_) fun ws next h ih => ?_
  · rw [states_of_none h, List.mem_singleton]
    refine ⟨fun heq => heq ▸ ⟨rfl, Nat.le_refl _⟩, fun ⟨hentries, hle⟩ => ?_⟩
    rw [remaining_of_advance?_eq_none h, Nat.le_zero] at hle
    exact remaining_inj hentries (hle.trans (remaining_of_advance?_eq_none h).symm)
  · have hremaining := remaining_advance? h
    rw [states_of_some h, List.mem_cons, ih, entries_advance? h]
    constructor
    · rintro (rfl | ⟨hentries, hle⟩)
      · exact ⟨rfl, Nat.le_refl _⟩
      · exact ⟨hentries, by omega⟩
    · rintro ⟨hentries, hle⟩
      rcases Nat.eq_or_lt_of_le hle with heq | hlt
      · exact .inl (remaining_inj hentries heq)
      · exact .inr ⟨hentries, by omega⟩

/-- An odometer shows nothing twice. -/
theorem nodup_states (ws : List (Wheel α)) : (states ws).Nodup := by
  refine induction ws (fun ws h => ?_) fun ws next h ih => ?_
  · rw [states_of_none h]
    exact List.nodup_singleton ws
  · rw [states_of_some h]
    refine List.nodup_cons.2 ⟨fun hmem => ?_, ih⟩
    have hle := (mem_states.1 hmem).2
    have hremaining := remaining_advance? h
    omega

/-! ## From the first entries on -/

/-- All wheels show their first entries. -/
def AtStart (ws : List (Wheel α)) : Prop := ∀ w ∈ ws, (w.position : Nat) = 0

/-- No odometer can be moved on more often than there are choices of entries. -/
theorem remaining_lt (ws : List (Wheel α)) :
    remaining ws < ((entries ws).map List.length).prod := by
  induction ws with
  | nil => exact Nat.zero_lt_one
  | cons w ws ih =>
    have hround := Nat.mul_le_mul_left w.entries.length (Nat.succ_le_of_lt ih)
    have hbehind := behind_lt w
    rw [Nat.mul_succ] at hround
    rw [remaining, entries, List.map_cons, List.map_cons, List.prod_cons]
    exact Nat.lt_of_lt_of_le (by omega) hround

/-- From the start there is one turn less than there are combinations of entries. -/
theorem remaining_of_atStart (h : AtStart ws) :
    remaining ws + 1 = ((entries ws).map List.length).prod := by
  induction ws with
  | nil => rfl
  | cons w ws ih =>
    obtain ⟨hw, hws⟩ := List.forall_mem_cons.1 h
    have hbehind : w.behind + 1 = w.entries.length := by
      have := behind_lt w
      unfold behind at this ⊢
      omega
    rw [remaining, entries, List.map_cons, List.map_cons, List.prod_cons, ← entries, ← ih hws,
      Nat.mul_succ]
    omega

theorem length_states_of_atStart (h : AtStart ws) :
    (states ws).length = ((entries ws).map List.length).prod := by
  rw [length_states, remaining_of_atStart h]

/-- From the start an odometer shows everything that its wheels can show. -/
theorem mem_states_of_atStart (h : AtStart ws) : ws' ∈ states ws ↔ entries ws' = entries ws := by
  rw [mem_states, and_iff_left_iff_imp]
  intro hentries
  have hlt := remaining_lt ws'
  rw [hentries, ← remaining_of_atStart h] at hlt
  exact Nat.le_of_lt_succ hlt

/-! ## Positions -/

theorem eq_of_positions (hentries : entries ws = entries ws') (h : positions ws = positions ws') :
    ws = ws' := by
  induction ws generalizing ws' with
  | nil => exact (List.map_eq_nil_iff.1 h.symm).symm
  | cons w ws ih =>
    cases ws' with
    | nil => cases h
    | cons w' ws' =>
      obtain ⟨hw, hws⟩ := List.cons.inj hentries
      obtain ⟨hposition, hpositions⟩ := List.cons.inj h
      rw [wheel_eq hw hposition, ih hws hpositions]

/-- The positions that wheels can be at. -/
theorem exists_positions_iff {ess : List (List α)} {is : List Nat} :
    (∃ ws, entries ws = ess ∧ positions ws = is) ↔ List.Forall₂ (fun i es => i < es.length) is ess := by
  constructor
  · rintro ⟨ws, rfl, rfl⟩
    rw [positions, entries, List.forall₂_map_left_iff, List.forall₂_map_right_iff,
      List.forall₂_same]
    exact fun w _ => w.position.isLt
  · intro h
    induction h with
    | nil => exact ⟨[], rfl, rfl⟩
    | @cons i es is ess hi _ ih =>
      obtain ⟨ws, rfl, rfl⟩ := ih
      exact ⟨⟨es, ⟨i, hi⟩⟩ :: ws, rfl, rfl⟩

/-- From the start an odometer shows every choice of a position for each wheel. -/
theorem mem_positions_states (h : AtStart ws) {is : List Nat} :
    is ∈ (states ws).map positions ↔
      List.Forall₂ (fun i es => i < es.length) is (entries ws) := by
  simp only [List.mem_map, mem_states_of_atStart h, exists_positions_iff]

/-- An odometer shows no choice of positions twice. -/
theorem nodup_positions_states (ws : List (Wheel α)) : ((states ws).map positions).Nodup := by
  refine (nodup_states ws).map_on fun a ha b hb heq => ?_
  exact eq_of_positions ((mem_states.1 ha).1.trans (mem_states.1 hb).1.symm) heq

end Formulary.Odometer
