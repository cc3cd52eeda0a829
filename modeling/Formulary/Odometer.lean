/-!
# Odometers

A row of wheels, each of which shows one of its entries. An odometer is moved on by its first wheel.
A wheel that shows its last entry starts again at the first one and moves the next wheel on, and the
odometer is at its end when no wheel is left to be moved.

A wheel always shows one of its entries, so it has at least one. `Odometer.remaining` is how often an
odometer can still be moved on: going through everything that it shows comes to an end because this
number gets smaller by one each time.
-/

namespace Formulary

/-- A list of entries with the position of the one that is shown. -/
structure Wheel (α : Type) where
  entries : List α
  position : Fin entries.length

namespace Wheel

variable {α : Type}

/-- A wheel that shows its first entry. -/
def first (entries : List α) (h : entries ≠ []) : Wheel α :=
  ⟨entries, ⟨0, List.length_pos_iff.2 h⟩⟩

/-- The entry that is shown. -/
def entry (w : Wheel α) : α := w.entries.get w.position

/-- The wheel at its next entry, if it has one. -/
def next? (w : Wheel α) : Option (Wheel α) :=
  if h : w.position + 1 < w.entries.length then some ⟨w.entries, ⟨w.position + 1, h⟩⟩ else none

/-- The wheel at its first entry. -/
def restart (w : Wheel α) : Wheel α := ⟨w.entries, ⟨0, Nat.zero_lt_of_lt w.position.isLt⟩⟩

/-- How many entries come after the one that is shown. -/
def behind (w : Wheel α) : Nat := w.entries.length - 1 - w.position

theorem behind_next? {w next : Wheel α} (h : w.next? = some next) :
    next.entries = w.entries ∧ next.behind + 1 = w.behind := by
  obtain ⟨hlt, h⟩ := Option.dite_none_right_eq_some.1 h
  obtain rfl := Option.some.inj h
  refine ⟨rfl, ?_⟩
  simp only [behind]
  omega

theorem behind_of_next?_eq_none {w : Wheel α} (h : w.next? = none) : w.behind = 0 := by
  have hlast : ¬ w.position + 1 < w.entries.length := by simpa [next?] using h
  simp only [behind]
  omega

theorem behind_restart (w : Wheel α) : w.restart.behind + 1 = w.entries.length := by
  have := w.position.isLt
  simp only [behind, restart]
  omega

end Wheel

namespace Odometer

variable {α : Type}

/-- Moves an odometer on, unless it is at its end. -/
def advance? : List (Wheel α) → Option (List (Wheel α))
  | [] => none
  | w :: ws =>
    match w.next? with
    | some next => some (next :: ws)
    | none => (advance? ws).map (w.restart :: ·)

/-- How often an odometer can be moved on. -/
def remaining : List (Wheel α) → Nat
  | [] => 0
  | w :: ws => w.behind + w.entries.length * remaining ws

theorem remaining_advance? {ws next : List (Wheel α)} (h : advance? ws = some next) :
    remaining next + 1 = remaining ws := by
  induction ws generalizing next with
  | nil => cases h
  | cons w ws ih =>
    rw [advance?] at h
    split at h
    · rename_i moved hmoved
      obtain ⟨hentries, hbehind⟩ := Wheel.behind_next? hmoved
      obtain rfl := Option.some.inj h
      rw [remaining, remaining, hentries]
      omega
    · rename_i hlast
      obtain ⟨rest, hrest, rfl⟩ := Option.map_eq_some_iff.1 h
      have hbehind := w.behind_restart
      -- all entries of the wheel come once more for the next entry of the wheels behind it
      have hround : w.entries.length * remaining ws =
          w.entries.length * remaining rest + w.entries.length := by
        rw [← ih hrest, Nat.mul_succ]
      rw [remaining, remaining, Wheel.behind_of_next?_eq_none hlast, hround]
      simp only [Wheel.restart] at hbehind ⊢
      omega

/-- A test holds for what an odometer shows, and for all that it shows when it is moved on to its
end. -/
def everywhere (test : List (Wheel α) → Bool) (ws : List (Wheel α)) : Bool :=
  test ws &&
    match _ : advance? ws with
    | some next => everywhere test next
    | none => true
termination_by remaining ws
decreasing_by exact Nat.lt_of_lt_of_eq (Nat.lt_succ_self _) (remaining_advance? ‹_›)

end Odometer

end Formulary
