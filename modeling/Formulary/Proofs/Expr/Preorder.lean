import Formulary.Proofs.Expr.Parts
import Formulary.Proofs.Expr.Traversal
import Formulary.Proofs.StackWalk

/-!
# The preorder of an expression

Equal parts of an expression, such as the two operands of `x+x`, are told apart by the paths to
them. A part and its path are a position. `positions` lists those of an expression by recursion on
it: the whole expression, and then the positions of its direct parts from left to right.

A walk with a stack gives out these positions and no others (`produces_positions_iff`). Every part
is at one position of the list (`mem_positions`), and the paths ascend in the lexicographic order
(`pairwise_positions`): a path comes before the paths that go on from it, and these go on to one
part after another. So the order of the list is the preorder, and no position is listed twice.

The nodes that the program walks through are the parts at these positions (`map_part_positions`). So
the first issue of an expression is the one whose path is the least (`firstIssue?_eq_some_iff`).
-/

namespace Formulary.Expr

open StackWalk (Produces)

/-- A part of an expression and the path to it. -/
structure Position where
  path : List Nat
  part : Expr

namespace Position

/-- A position of an expression as one of another, in which a path leads to the expression. -/
def under (path : List Nat) (p : Position) : Position := ⟨path ++ p.path, p.part⟩

/-- The position of a direct part, given with its number. -/
def child (path : List Nat) (part : Expr × Nat) : Position := ⟨path ++ [part.2], part.1⟩

/-- The positions of the direct parts. -/
def parts (p : Position) : List Position := p.part.children.zipIdx.map (child p.path)

theorem under_under (path more : List Nat) (p : Position) :
    (p.under more).under path = p.under (path ++ more) := by
  rw [under, under, under, List.append_assoc]

end Position

/-! ## The positions by recursion -/

mutual

/-- The positions of an expression: the whole expression, then the positions of its direct parts. -/
def positions : Expr → List Position
  | number n => [⟨[], number n⟩]
  | var name => [⟨[], var name⟩]
  | element sequence index => ⟨[], element sequence index⟩ :: index.positions.map (.under [0])
  | unary op u => ⟨[], unary op u⟩ :: u.positions.map (.under [0])
  | binary op u v =>
    ⟨[], binary op u v⟩ :: (u.positions.map (.under [0]) ++ v.positions.map (.under [1]))
  | nary op es => ⟨[], nary op es⟩ :: positionsFrom 0 es
  | call f primes u => ⟨[], call f primes u⟩ :: u.positions.map (.under [0])
  | derivative body name => ⟨[], derivative body name⟩ :: body.positions.map (.under [0])
  | derivativeAt body name point =>
    ⟨[], derivativeAt body name point⟩ ::
      (body.positions.map (.under [0]) ++ point.positions.map (.under [1]))
  | invalid issue => [⟨[], invalid issue⟩]
  | invalidPart issue part => ⟨[], invalidPart issue part⟩ :: part.positions.map (.under [0])

/-- The positions of several direct parts, numbered from `i` on. -/
def positionsFrom : (i : Nat) → List Expr → List Position
  | _, [] => []
  | i, e :: es => e.positions.map (.under [i]) ++ positionsFrom (i + 1) es

end

theorem positions_eq (e : Expr) : e.positions = ⟨[], e⟩ :: positionsFrom 0 e.children := by
  cases e <;> simp [positions, positionsFrom, children]

/-- In `(a+-b)*c` the factor `c` comes last, after all parts of the sum. -/
example : (binary .mul (binary .add (var "a") (unary .neg (var "b"))) (var "c")).positions.map
    Position.path = [[], [0], [0, 0], [0, 1], [0, 1, 0], [1]] := rfl

/-- The first step of a path tells which of several expressions the position is in. -/
theorem mem_positionsFrom {p : Position} {i : Nat} {es : List Expr} :
    p ∈ positionsFrom i es ↔
      ∃ (k : Nat) (e : Expr), es[k]? = some e ∧ ∃ q ∈ e.positions, p = q.under [i + k] := by
  induction es generalizing i with
  | nil => simp [positionsFrom]
  | cons e es ih =>
    rw [positionsFrom, List.mem_append, ih, List.mem_map]
    constructor
    · rintro (⟨q, hq, rfl⟩ | ⟨k, part, hpart, q, hq, rfl⟩)
      · exact ⟨0, e, rfl, q, hq, rfl⟩
      · exact ⟨k + 1, part, hpart, q, hq, by rw [Nat.add_right_comm, Nat.add_assoc]⟩
    · rintro ⟨k, part, hpart, q, hq, rfl⟩
      cases k with
      | zero =>
        obtain rfl := Option.some.inj hpart
        exact .inl ⟨q, hq, rfl⟩
      | succ k => exact .inr ⟨k, part, hpart, q, hq, by rw [Nat.add_right_comm, Nat.add_assoc]⟩

/-- The positions are those that a path leads to. -/
theorem mem_positions {e : Expr} {p : Position} :
    p ∈ e.positions ↔ e.partAt? p.path = some p.part := by
  induction e using induction_children generalizing p with
  | step e ih =>
    rw [positions_eq, List.mem_cons, mem_positionsFrom]
    obtain ⟨path, part⟩ := p
    cases path with
    | nil => simp [partAt?, Position.under, eq_comm]
    | cons i path =>
      -- the first step of the path says which part the position is in
      simp only [partAt?, Option.bind_eq_bind, Option.bind_eq_some_iff, Nat.zero_add]
      constructor
      · rintro (h | ⟨k, child, hchild, q, hq, h⟩)
        · cases h
        · obtain ⟨hpath, rfl⟩ := Position.mk.inj h
          obtain ⟨rfl, rfl⟩ := List.cons.inj hpath
          exact ⟨child, hchild, (ih child (List.mem_of_getElem? hchild)).1 hq⟩
      · rintro ⟨child, hchild, hpart⟩
        exact .inr ⟨i, child, hchild, ⟨path, part⟩,
          (ih child (List.mem_of_getElem? hchild)).2 hpart, rfl⟩

theorem pairwise_positionsFrom {i : Nat} {es : List Expr}
    (h : ∀ e ∈ es, e.positions.Pairwise fun p q => p.path < q.path) :
    (positionsFrom i es).Pairwise fun p q => p.path < q.path := by
  induction es generalizing i with
  | nil => exact .nil
  | cons e es ih =>
    obtain ⟨he, hes⟩ := List.forall_mem_cons.1 h
    rw [positionsFrom, List.pairwise_append, List.pairwise_map]
    refine ⟨he.imp fun hpq => ?_, ih hes, fun p hp q hq => ?_⟩
    · exact List.cons_lt_cons_iff.2 (.inr ⟨rfl, hpq⟩)
    · obtain ⟨p, -, rfl⟩ := List.mem_map.1 hp
      obtain ⟨k, part, -, q, -, rfl⟩ := mem_positionsFrom.1 hq
      exact List.cons_lt_cons_iff.2 (.inl (by omega))

/-- The paths of the positions ascend. -/
theorem pairwise_positions (e : Expr) : e.positions.Pairwise fun p q => p.path < q.path := by
  induction e using induction_children with
  | step e ih =>
    rw [positions_eq, List.pairwise_cons]
    refine ⟨fun p hp => ?_, pairwise_positionsFrom ih⟩
    obtain ⟨k, part, -, q, -, rfl⟩ := mem_positionsFrom.1 hp
    exact List.nil_lt_cons _ _

theorem map_part_positionsFrom {i : Nat} {es : List Expr}
    (h : ∀ e ∈ es, e.positions.map Position.part = e.nodes) :
    (positionsFrom i es).map Position.part = es.flatMap nodes := by
  induction es generalizing i with
  | nil => rfl
  | cons e es ih =>
    obtain ⟨he, hes⟩ := List.forall_mem_cons.1 h
    rw [positionsFrom, List.map_append, List.map_map, ih hes, List.flatMap_cons, ← he]
    rfl

/-- The parts at the positions are the nodes of the expression. -/
theorem map_part_positions (e : Expr) : e.positions.map Position.part = e.nodes := by
  induction e using induction_children with
  | step e ih => rw [positions_eq, List.map_cons, map_part_positionsFrom ih, nodes_eq]

/-! ## The walk with a stack -/

/-- The walk through some direct parts, with the first of them at the top of the stack. -/
theorem produces_positionsFrom {path : List Nat} {i : Nat} {es : List Expr}
    (h : ∀ e ∈ es, ∀ path, Produces Position.parts [⟨path, e⟩] (e.positions.map (.under path)) []) :
    Produces Position.parts ((es.zipIdx i).map (.child path)).reverse
      ((positionsFrom i es).map (.under path)) [] := by
  induction es generalizing i with
  | nil => exact .pause
  | cons e es ih =>
    obtain ⟨he, hes⟩ := List.forall_mem_cons.1 h
    have hpositions : (e.positions.map (Position.under [i])).map (Position.under path) =
        e.positions.map (Position.under (path ++ [i])) := by
      rw [List.map_map]
      exact List.map_congr_left fun p _ => p.under_under path [i]
    rw [List.zipIdx_cons, List.map_cons, List.reverse_cons, positionsFrom, List.map_append,
      hpositions]
    -- the other parts wait under the first
    exact (he (path ++ [i])).concat (ih hes)

theorem produces_positions_under (e : Expr) (path : List Nat) :
    Produces Position.parts [⟨path, e⟩] (e.positions.map (.under path)) [] := by
  induction e using induction_children generalizing path with
  | step e ih =>
    have hroot : Position.under path ⟨[], e⟩ = ⟨path, e⟩ := by rw [Position.under, List.append_nil]
    rw [positions_eq, List.map_cons, hroot]
    exact .cons (produces_positionsFrom ih)

/-- A walk with a stack gives out the positions of an expression, and nothing else. -/
theorem produces_positions_iff (e : Expr) (out : List Position) :
    Produces Position.parts [⟨[], e⟩] out [] ↔ out = e.positions := by
  have h := produces_positions_under e []
  rw [show Position.under [] = id from rfl, List.map_id] at h
  exact h.produces_iff

/-! ## Issues -/

/-- In an ascending list the value found first is the one at the least entry with a value. -/
theorem findSome?_eq_some_iff_of_pairwise {α β : Type} {r : α → α → Prop} {f : α → Option β}
    {as : List α} {b : β} (hr : ∀ a c, r a c → ¬ r c a) (h : as.Pairwise r) :
    as.findSome? f = some b ↔ ∃ a ∈ as, f a = some b ∧ ∀ c ∈ as, r c a → f c = none := by
  rw [List.findSome?_eq_some_iff]
  constructor
  · rintro ⟨before, a, after, rfl, hb, hbefore⟩
    obtain ⟨-, hafter, -⟩ := List.pairwise_append.1 h
    refine ⟨a, by simp, hb, fun c hc hca => ?_⟩
    rcases List.mem_append.1 hc with hc | hc
    · exact hbefore c hc
    rcases List.mem_cons.1 hc with rfl | hc
    · exact absurd hca (hr _ _ hca)
    · exact absurd hca (hr _ _ (List.rel_of_pairwise_cons hafter hc))
  · rintro ⟨a, ha, hb, hleast⟩
    obtain ⟨before, after, rfl⟩ := List.append_of_mem ha
    obtain ⟨-, -, hbefore⟩ := List.pairwise_append.1 h
    refine ⟨before, a, after, rfl, hb, fun c hc => hleast c (List.mem_append_left _ hc) ?_⟩
    exact hbefore c hc a List.mem_cons_self

/-- The first issue is the one at the first position with an issue. -/
theorem firstIssue?_eq_some_iff {e : Expr} {issue : Issue} :
    e.firstIssue? = some issue ↔
      ∃ p ∈ e.positions, p.part.ownIssue? = some issue ∧
        ∀ q ∈ e.positions, q.path < p.path → q.part.isInvalid = false := by
  have hfirst : e.firstIssue? = e.positions.findSome? fun p => p.part.ownIssue? := by
    rw [firstIssue?, ← map_part_positions, List.findSome?_map]
    rfl
  rw [hfirst, findSome?_eq_some_iff_of_pairwise (fun _ _ => List.lt_asymm) (pairwise_positions e)]
  simp only [← isSome_ownIssue?, Option.isSome_eq_false_iff, Option.isNone_iff_eq_none]

/-- An expression has an issue if there is a node for one at some position of it. -/
theorem hasIssue_iff_exists_position {e : Expr} :
    e.hasIssue ↔ ∃ p ∈ e.positions, p.part.isInvalid := by
  rw [hasIssue_eq_any_nodes, ← map_part_positions, List.any_map, List.any_eq_true]
  rfl

/-! ## The walk through an expression -/

/-- An expression is walked through along some positions in turn. -/
structure WalkedAlong (e : Expr) (positions : List Position) : Prop where
  /-- A walk with a stack gives out the positions, and nothing else. -/
  produces : ∀ out, Produces Position.parts [⟨[], e⟩] out [] ↔ out = positions
  /-- Every part of the expression is at one of the positions, and nothing else is. -/
  mem_iff : ∀ p, p ∈ positions ↔ e.partAt? p.path = some p.part
  /-- Each position comes once, before those of its own parts, which come from left to right. -/
  ascending : positions.Pairwise fun p q => p.path < q.path
  /-- The parts at the positions are the nodes of the expression. -/
  nodes : positions.map Position.part = e.nodes
  /-- The expression has an issue if there is a node for one at some position. -/
  hasIssue : e.hasIssue ↔ ∃ p ∈ positions, p.part.isInvalid
  /-- The first issue is the one at the first position with an issue. -/
  firstIssue? : ∀ issue, e.firstIssue? = some issue ↔
    ∃ p ∈ positions, p.part.ownIssue? = some issue ∧
      ∀ q ∈ positions, q.path < p.path → q.part.isInvalid = false

/-- The searches of the program go along the positions. -/
theorem walkedAlong_positions (e : Expr) : e.WalkedAlong e.positions :=
  ⟨produces_positions_iff e, fun _ => mem_positions, pairwise_positions e, map_part_positions e,
    hasIssue_iff_exists_position, fun _ => firstIssue?_eq_some_iff⟩

end Formulary.Expr
