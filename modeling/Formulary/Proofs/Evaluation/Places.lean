import Formulary.Proofs.Double.Rounding
import Formulary.Proofs.Evaluation.Depth
import Formulary.Proofs.Number.Stored

/-!
# Elements of sequences

The value of an index is rounded, and the element is found by subtracting one from it as an unsigned
word. What rounds to less than one has been sorted out before by a comparison of doubles, and what
is larger than any word saturates, far behind the end of every sequence. But what is not a number is
not less than one, and as a word it is zero: there the subtraction traps (`elementAt_eq`).

So an indexed variable has a value exactly if its index is a number that rounds to a place of the
sequence, where the index is taken under the bindings that `withRow?` gives. `outcome_element` says
so for all depths at once: an index is evaluated within the depth of the variable it belongs to.
Nothing else traps, so where there are no sequences no evaluation does (`trapFree_outcome`).
-/

namespace Formulary

namespace Evaluation

/-- The sequence of an indexed variable and the value of its index. -/
def position (b : Bindings) (sequence : String) (index : Expr) :
    Except Obstacle (List Float × Float) :=
  match b.sequence? sequence, withRow? b index with
  | some values, some b' => (index.outcome b').map fun v => (values, v)
  | _, _ => .error .undefined

/-- The element at the place nearest to a fraction, counted from one. -/
def elementNearest? (values : List Float) (q : ℚ) : Option Float :=
  if 1 ≤ Exact.nearest q then values[(Exact.nearest q - 1).toNat]? else none

/-! ## Places -/

section

variable {v : Float} {q : ℚ} {values : List Float}

theorem isNaN_of_ratio? (hv : Double.ratio? v = some q) : v.isNaN = false := by
  change v.toModel.unpack.isNaN = false
  obtain ⟨sign, hu, -⟩ | ⟨sign, m, e, hm, hu, -, -⟩ := Double.cases_of_ratio? hv <;>
  · rw [hu]
    rfl

/-- Nothing but zero is too small for one to be taken off it. -/
theorem subtract_one (n : Nat) :
    Word.subtract n 1 = if n = 0 then .error .overflow else .ok (n - 1) := by
  unfold Word.subtract
  split_ifs with h1 h0 h0
  · omega
  · rfl
  · rfl
  · omega

/-- A number has the element at its nearest place. The position saturates only behind the end of
every sequence that a word can tell the length of. -/
theorem elementAt_of_ratio? (hlength : Word.Fits values.length) (hv : Double.ratio? v = some q) :
    elementAt values v = orUndefined (elementNearest? values q) := by
  have hround := Double.ratio?_round hv
  have hlt : Double.round v < 1 ↔ Exact.nearest q < 1 := by
    rw [Double.lt_iff_of_ratio? hround Double.ratio?_one]
    exact_mod_cast Iff.rfl
  unfold elementAt elementNearest?
  dsimp only
  by_cases hsmall : Exact.nearest q < 1
  · rw [if_pos (hlt.2 hsmall), if_neg (not_le.2 hsmall)]
    rfl
  rw [if_neg (hlt.not.2 hsmall), if_pos (not_lt.1 hsmall)]
  have hnonneg : (0 : ℚ) ≤ Exact.nearest q := by
    exact_mod_cast (by omega : 0 ≤ Exact.nearest q)
  rw [Double.toNat_toUInt64 hround hnonneg, ← Int.floor_toNat, Int.floor_intCast, subtract_one]
  have hsize : UInt64.size = 2 ^ 64 := rfl
  rw [if_neg (by omega)]
  refine congrArg orUndefined ?_
  by_cases hlarge : (Exact.nearest q).toNat ≤ UInt64.size - 1
  · rw [min_eq_left hlarge]
    refine congrArg (values[·]?) ?_
    omega
  · unfold Word.Fits Word.greatest at hlength
    rw [min_eq_right (not_le.1 hlarge).le, List.getElem?_eq_none (by omega),
      List.getElem?_eq_none (by omega)]

/-- An element is found exactly at the places that a number rounds to. What is infinite has no
place, and what is not a number traps. -/
theorem elementAt_eq (hlength : Word.Fits values.length) (v : Float) :
    elementAt values v =
      if v.isNaN then .error (.trapped .overflow)
      else orUndefined ((Double.ratio? v).bind (elementNearest? values)) := by
  cases hv : Double.ratio? v with
  | some q =>
    rw [isNaN_of_ratio? hv, if_neg Bool.false_ne_true]
    exact elementAt_of_ratio? hlength hv
  | none =>
    obtain rfl | rfl | rfl := Double.eq_of_ratio?_eq_none hv
    · rw [if_pos (by decide +kernel)]
      rfl
    · have hword : (Double.round Double.infinity).toUInt64.toNat = UInt64.size - 1 := by
        decide +kernel
      rw [if_neg (by decide +kernel), elementAt, if_neg (by decide +kernel), hword, subtract_one,
        if_neg (by decide)]
      refine congrArg orUndefined (List.getElem?_eq_none ?_)
      unfold Word.Fits Word.greatest at hlength
      unfold UInt64.size
      omega
    · rw [if_neg (by decide +kernel), elementAt, if_pos (by decide +kernel)]
      rfl

end

/-! ## Indexed variables -/

section

variable {b b' : Bindings} {sequence : String} {index : Expr}

/-- An index is given as much depth as the variable it belongs to. -/
theorem depth_element (h : withRow? b index = some b') :
    depth b (.element sequence index) = depth b' index := by
  unfold depth
  rw [functions_withRow? h]
  simp [Expr.indirections, Expr.nodes_eq (.element sequence index), Expr.children, Expr.isIndirect]

theorem sequence?_of_position {values : List Float} {v : Float}
    (h : position b sequence index = .ok (values, v)) : b.sequence? sequence = some values := by
  unfold position at h
  cases hs : b.sequence? sequence with
  | none => simp [hs] at h
  | some found =>
    cases hrow : withRow? b index with
    | none => simp [hs, hrow] at h
    | some b' =>
      simp only [hs, hrow] at h
      cases hv : index.outcome b' with
      | error obstacle => simp [hv, Except.map] at h
      | ok w =>
        simp only [hv, Except.map, Except.ok.injEq, Prod.mk.injEq] at h
        rw [h.1]

/-- An indexed variable is evaluated in two steps: its position first, and then the place of it. -/
theorem outcome_element (b : Bindings) (sequence : String) (index : Expr) :
    (Expr.element sequence index).outcome b =
      (position b sequence index >>= fun (values, v) => elementAt values v) := by
  unfold Expr.outcome position
  rw [evaluate?_eq, Expr.evalWith]
  cases b.sequence? sequence with
  | none => rfl
  | some values =>
    cases hrow : withRow? b index with
    | none => rfl
    | some b' =>
      dsimp only
      rw [depth_element hrow, ← evaluate?_eq]
      unfold Expr.outcome
      cases Expr.evaluate? (depth b' index) b' index <;> rfl

/-- An indexed variable traps exactly where its index does and where the value of its index is not
a number. Otherwise it has the element at the nearest place of the sequence, counted from one; what
is infinite has no place. -/
theorem eval_element_iff (b : Bindings) (sequence : String) (index : Expr)
    (hlength : ∀ values, b.sequence? sequence = some values → Word.Fits values.length) :
    ((Expr.element sequence index).outcome b = .error (.trapped .overflow) ↔
      position b sequence index = .error (.trapped .overflow) ∨
        ∃ values v, position b sequence index = .ok (values, v) ∧ v.isNaN = true) ∧
    (∀ obstacle, position b sequence index = .error obstacle →
      (Expr.element sequence index).outcome b = .error obstacle) ∧
    (Expr.element sequence index).eval b =
      (position b sequence index).toOption.bind fun (values, v) =>
        (Double.ratio? v).bind (elementNearest? values) := by
  rw [Expr.eval, outcome_element]
  cases hposition : position b sequence index with
  | error obstacle =>
    refine ⟨⟨fun h => .inl ?_, ?_⟩, ?_, rfl⟩
    · cases h
      rfl
    · rintro (⟨⟨⟩⟩ | ⟨_, _, ⟨⟩, -⟩)
      rfl
    · rintro _ ⟨⟩
      rfl
  | ok found =>
    obtain ⟨values, v⟩ := found
    have hplace := elementAt_eq (hlength values (sequence?_of_position hposition)) v
    change (elementAt values v = _ ↔ _) ∧ (∀ _, _ → elementAt values v = _) ∧
      (elementAt values v).toOption = _
    rw [hplace]
    refine ⟨⟨fun h => .inr ⟨values, v, rfl, ?_⟩, ?_⟩, fun _ h => (by cases h), ?_⟩
    · by_contra hnan
      rw [if_neg hnan] at h
      cases helement : (Double.ratio? v).bind (elementNearest? values) <;>
      · rw [helement] at h
        cases h
    · rintro (h | ⟨_, _, ⟨⟩, hnan⟩)
      · cases h
      · rw [if_pos hnan]
    · change _ = (Double.ratio? v).bind (elementNearest? values)
      split_ifs with hnan
      · cases hv : Double.ratio? v with
        | some q => rw [isNaN_of_ratio? hv] at hnan; cases hnan
        | none => rfl
      · cases (Double.ratio? v).bind (elementNearest? values) <;> rfl

/-- A sequence of three elements, in the second row. -/
def secondRow : Bindings := { sequences := [("a", [10, 20, 30])], values := [("row", 2)] }

/-- The index `k + 1` in the second row of a sequence. -/
theorem eval_element_row :
    (∀ values, secondRow.sequence? "a" = some values → Word.Fits values.length) ∧
      (Expr.element "a" (.binary .add (.var "k") (.number 1))).eval secondRow = some 30 := by
  have hlength : ∀ values, secondRow.sequence? "a" = some values → Word.Fits values.length := by
    rintro _ ⟨⟩
    decide
  refine ⟨hlength, ?_⟩
  rw [(eval_element_iff _ _ _ hlength).2.2]
  decide +kernel

/-- An index that is not a number traps. And the index `D(k,k)`, which has the value one, finds no
element where neither `k` nor the row is bound. -/
theorem outcome_element_overflow :
    (Expr.element "a" (.var "dne")).outcome { sequences := [("a", [10, 20])] } =
        .error (.trapped .overflow) ∧
      (Expr.derivative (.var "k") "k").eval { sequences := [("a", [10, 20])] } = some 1 ∧
      (Expr.element "a" (.derivative (.var "k") "k")).eval { sequences := [("a", [10, 20])] } =
        none := by
  decide +kernel

end

/-! ## Evaluations without sequences -/

/-- No step on words is without a result. -/
def TrapFree {α : Type} (o : Except Obstacle α) : Prop := ∀ trap, o ≠ .error (.trapped trap)

theorem TrapFree.bind {α β : Type} {o : Except Obstacle α} {k : α → Except Obstacle β}
    (ho : TrapFree o) (hk : ∀ v, TrapFree (k v)) : TrapFree (o >>= k) := by
  cases o with
  | error obstacle =>
    intro trap h
    cases h
    exact ho trap rfl
  | ok v => exact hk v

theorem trapFree_ok {α : Type} (v : α) : TrapFree (.ok v) := nofun

theorem trapFree_undefined {α : Type} : TrapFree (.error .undefined : Except Obstacle α) := nofun

theorem trapFree_orUndefined (v : Option Float) : TrapFree (orUndefined v) := by
  cases v <;> exact nofun

theorem trapFree_orExhausted (e : Option Expr) : TrapFree (orExhausted e) := by
  cases e <;> exact nofun

section

variable {again : Bindings → Expr → Outcome} {b : Bindings}

/-- A function is evaluated under bindings with no more sequences than those around it. -/
theorem trapFree_call (hagain : ∀ b e, b.sequences = [] → TrapFree (again b e))
    (hb : b.sequences = []) (f : String) (primes : Nat) (v : Float) :
    TrapFree (if Names.isBuiltin f then builtin again f primes v else defined again b f primes v) := by
  unfold builtin defined
  split
  · split
    · exact trapFree_orUndefined _
    · exact (trapFree_orExhausted _).bind fun _ => hagain _ _ rfl
  · split
    · exact trapFree_undefined
    · exact trapFree_ok _
    · exact (trapFree_orExhausted _).bind fun _ => hagain _ _ hb

theorem trapFree_evalList {op : Family} {es : List Expr} {before : Float}
    (h : ∀ e ∈ es, TrapFree (e.evalWith again b)) :
    TrapFree (Expr.evalList again b op before es) := by
  induction es generalizing before with
  | nil =>
    rw [Expr.evalList]
    exact trapFree_ok before
  | cons e es ih =>
    obtain ⟨he, hes⟩ := List.forall_mem_cons.1 h
    rw [Expr.evalList]
    exact he.bind fun v => ih hes

/-- An evaluation without sequences is free of traps if what it goes through is. -/
theorem trapFree_evalWith (hagain : ∀ b e, b.sequences = [] → TrapFree (again b e))
    (hb : b.sequences = []) (e : Expr) : TrapFree (e.evalWith again b) := by
  induction e using Expr.induction with
  | number n => exact trapFree_ok n.value
  | var name => exact trapFree_orUndefined _
  | element sequence index _ =>
    have hnone : b.sequence? sequence = none := by
      rw [Bindings.sequence?, hb]
      rfl
    rw [Expr.evalWith, hnone]
    exact trapFree_undefined
  | unary op u ih =>
    rw [Expr.evalWith]
    exact ih.bind fun _ => trapFree_ok _
  | binary op u v ihu ihv =>
    rw [Expr.evalWith]
    exact ihu.bind fun _ => ihv.bind fun _ => trapFree_ok _
  | nary op es ih =>
    rw [Expr.evalWith]
    exact trapFree_evalList ih
  | call f primes u ih =>
    rw [Expr.evalWith]
    exact ih.bind fun v => trapFree_call hagain hb f primes v
  | derivative body name _ =>
    rw [Expr.evalWith]
    exact (trapFree_orExhausted _).bind fun _ => hagain _ _ hb
  | derivativeAt body name point _ _ =>
    rw [Expr.evalWith]
    exact (trapFree_orExhausted _).bind fun _ => hagain _ _ hb
  | invalid issue => exact trapFree_undefined
  | invalidPart issue part _ => exact trapFree_undefined

/-- Without sequences no evaluation traps, whatever the functions are. -/
theorem trapFree_outcome (hb : b.sequences = []) (e : Expr) : TrapFree (e.outcome b) := by
  have hthrough (depth : Nat) : ∀ b e, b.sequences = [] → TrapFree (through depth b e) := by
    induction depth with
    | zero => exact fun _ _ _ => nofun
    | succ depth ih =>
      intro b e hb
      rw [through, evaluate?_eq]
      exact trapFree_evalWith ih hb e
  rw [Expr.outcome, evaluate?_eq]
  exact trapFree_evalWith (hthrough _) hb e

end

end Evaluation

end Formulary
