import Formulary.Comparison
import Formulary.Proofs.Comparison.Odometer

/-!
# The grid of a comparison

A comparison goes through its sample points with an odometer that has a wheel for each free name.
Choosing a point of its grid for each name is choosing a position for each wheel, and no name has two
wheels, so a state of the wheels gives the bindings of one choice (`sample_wheelsAt`), and each state
with these grids comes from a choice (`exists_wheelsAt`). Hence two expressions are related on the grid
if and only if their values are for every choice (`relatedOnGrid_iff`).
-/

namespace Formulary.Comparison

open Odometer (states positions entries AtStart)

variable {c : Comparison} {b : Bindings} {u v : Expr} {names : List String}

theorem nodup_eraseDups (names : List String) : names.eraseDups.Nodup := by
  obtain ⟨n, hn⟩ : ∃ n, n = names.length := ⟨_, rfl⟩
  induction n using Nat.strongRecOn generalizing names with
  | _ n ih =>
    cases names with
    | nil => exact List.nodup_nil
    | cons name names =>
      have hlength := List.length_filter_le (fun other => !other == name) names
      rw [List.eraseDups_cons]
      refine List.nodup_cons.2 ⟨fun h => ?_, ih _ (Nat.lt_of_le_of_lt hlength ?_) _ rfl⟩
      · simp at h
      · rw [hn]
        exact Nat.lt_succ_self _

theorem nodup_freeNames (b : Bindings) (u v : Expr) : (freeNames b u v).Nodup := nodup_eraseDups _

/-- The names to be sampled are the dependencies of either expression that have no value yet. -/
theorem mem_freeNames {name : String} :
    name ∈ freeNames b u v ↔
      (name ∈ u.dependencies ∨ name ∈ v.dependencies) ∧ b.value? name = none := by
  simp [freeNames, or_and_right]

/-! ## The points of a name -/

/-- The values are evenly spaced points of a domain, at least two, and the last one is its end. -/
structure Spans (points : Nat) (d : Domain) (vs : List Float) : Prop where
  length : vs.length = max points 2
  inner (j : Nat) (hj : j + 1 < max points 2) :
    vs[j]? = some (d.least + Double.ofInt j *
      ((d.greatest - d.least) / Double.ofInt (max points 2 - 1 : Nat)))
  last : vs.getLast? = some d.greatest

/-- The program's samples are evenly spaced points of the domain. -/
theorem spans_samples (points : Nat) (d : Domain) : Spans points d (samples points d) where
  length := by
    simp only [samples, List.length_append, List.length_map, List.length_range,
      List.length_singleton]
    omega
  inner j hj := by
    have hlt : j < max points 2 - 1 := by omega
    simp only [samples]
    rw [List.getElem?_append_left (by simpa using hlt), List.getElem?_map,
      List.getElem?_range hlt]
    rfl
  last := List.getLast?_concat

/-- The domain that a name is sampled in. -/
def domain (c : Comparison) (name : String) : Domain :=
  (c.domains.lookup name).getD c.defaultDomain

theorem spans_grid (c : Comparison) (name : String) :
    Spans c.points (c.domain name) (c.grid name) :=
  spans_samples c.points (c.domain name)

/-! ## Choices -/

/-- A point of the grid of each name. -/
abbrev Choice (c : Comparison) := (name : String) → Fin (c.grid name).length

/-- The bindings with values for some more names. -/
def extend (b : Bindings) (names : List String) (value : String → Float) : Bindings :=
  names.foldl (fun b name => b.bind name (value name)) b

/-- The wheels of some names at the chosen positions. -/
def wheelsAt (c : Comparison) (choice : c.Choice) (names : List String) : List (Wheel Float) :=
  names.map fun name => ⟨c.grid name, choice name⟩

theorem sample_wheelsAt (choice : c.Choice) :
    sample b names (c.wheelsAt choice names) =
      extend b names fun name => (c.grid name).get (choice name) := by
  unfold sample extend wheelsAt
  induction names generalizing b with
  | nil => rfl
  | cons name names ih => exact ih

/-- Wheels with the grids of different names are at the positions of a choice. -/
theorem exists_wheelsAt {ws : List (Wheel Float)} (hnames : names.Nodup)
    (h : entries ws = names.map c.grid) : ∃ choice, ws = c.wheelsAt choice names := by
  induction names generalizing ws with
  | nil =>
    refine ⟨fun name => ⟨0, List.length_pos_iff.2 (c.grid_ne_nil name)⟩, ?_⟩
    exact List.map_eq_nil_iff.1 h
  | cons name names ih =>
    obtain ⟨hname, hnames⟩ := List.nodup_cons.1 hnames
    obtain ⟨⟨es, i⟩, ws, rfl, hw, hws⟩ := List.map_eq_cons_iff.1 h
    obtain rfl : es = c.grid name := hw
    obtain ⟨choice, rfl⟩ := ih hnames hws
    refine ⟨Function.update choice name i, ?_⟩
    unfold wheelsAt
    rw [List.map_cons, Function.update_self]
    refine congrArg (_ :: ·) (List.map_congr_left fun other hother => ?_)
    rw [Function.update_of_ne (ne_of_mem_of_not_mem hother hname)]

theorem entries_wheels : entries (c.wheels names) = names.map c.grid := by
  rw [entries, wheels, List.map_map]
  rfl

theorem entries_wheelsAt (choice : c.Choice) :
    entries (c.wheelsAt choice names) = names.map c.grid := by
  rw [entries, wheelsAt, List.map_map]
  rfl

theorem atStart_wheels : AtStart (c.wheels names) := by
  intro w hw
  obtain ⟨name, -, rfl⟩ := List.mem_map.1 hw
  rfl

/-! ## Going through the grid -/

section

variable (related : Float → Float → Bool) (c : Comparison) (b : Bindings) (u v : Expr)

theorem relatedOnGrid_eq_all :
    c.relatedOnGrid related b u v =
      (states (c.wheels (freeNames b u v))).all fun wheels =>
        valuesRelated related u v (sample b (freeNames b u v) wheels) :=
  Odometer.everywhere_eq_all _ _

/-- The comparison asks for every choice of a point for each name. -/
theorem relatedOnGrid_iff :
    c.relatedOnGrid related b u v = true ↔
      ∀ choice : c.Choice, valuesRelated related u v
        (extend b (freeNames b u v) fun name => (c.grid name).get (choice name)) = true := by
  rw [relatedOnGrid_eq_all, List.all_eq_true]
  simp only [Odometer.mem_states_of_atStart atStart_wheels, entries_wheels]
  constructor
  · intro h choice
    rw [← sample_wheelsAt]
    exact h _ (entries_wheelsAt choice)
  · intro h wheels hwheels
    obtain ⟨choice, rfl⟩ := exists_wheelsAt (nodup_freeNames b u v) hwheels
    rw [sample_wheelsAt]
    exact h choice

end

end Formulary.Comparison
