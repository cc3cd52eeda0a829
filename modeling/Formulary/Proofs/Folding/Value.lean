import Formulary.Folding
import Formulary.Proofs.Exact.Functions
import Formulary.Proofs.Expr.Traversal
import Formulary.Proofs.Number.Exact

/-!
# Folding keeps the value

An operation on literals is computed with numbers, so folding is right as long as the numbers it
forms stay exact. `Folding.formed` lists them for one node: the numbers of the literals it reads,
and everything that is computed from them, up to the number whose negation is written. The literals
gathered from a sum or product are also tested for zero and one.

What is left of an operation with a neutral or absorbing literal has the value of the operation
wherever that has one. Folding may make an expression more defined, as in `x^1` at zero.
-/

namespace Formulary

open Exact

/-- The literals of an expression have 64 bits. -/
def Expr.Fits (e : Expr) : Prop := ∀ node ∈ e.nodes, ∀ n ∈ node.number?, n.Fits

instance (n : Number) : Decidable n.Fits :=
  match n with
  | .exact r => inferInstanceAs (Decidable (Word.Fits r.num ∧ Word.Fits r.den))
  | .real _ => .isTrue trivial

instance (e : Expr) : Decidable e.Fits :=
  inferInstanceAs (Decidable (∀ node ∈ e.nodes, ∀ n ∈ node.number?, n.Fits))

namespace Folding

/-! ## The numbers of a folding -/

/-- The numbers that writing a literal takes. -/
def written (o : Options) (n : Number) : List Number :=
  if !o.negativeNumbers && n.isNegative then [n, -n] else [n]

/-- The results while numbers are put together from left to right. -/
def running (op : Family) : List Number → List Number
  | [] => []
  | n :: ns => ns.scanl (onNumbers op) n

/-- The numbers that a unary operation on a folded operand reads and forms. -/
def unaryForms (o : Options) : UnaryOp → Expr → List Number
  | .plus, _ => []
  | .neg, e => (literal? e).toList.flatMap fun n => n :: written o (-n)
  | .recip, e => (literal? e).toList.flatMap fun n => n :: written o n.inverse

/-- The numbers that a binary operation on folded operands reads and forms. -/
def binaryForms (o : Options) (op : BinaryOp) (lhs rhs : Expr) : List Number :=
  let m := literal? lhs
  let n := literal? rhs
  m.toList ++ n.toList ++ (m.bind fun m => n.bind (onNumbers? op m)).toList.flatMap (written o)

/-- The numbers that a sum or product of folded operands reads and forms. -/
def naryForms (o : Options) (op : Family) (es : List Expr) : List Number :=
  running op (es.filterMap literal?) ++ es.filterMap literal? ++
    (constant? op es).toList.flatMap (written o)

/-- The numbers that folding a node reads and forms once its parts are folded. -/
def formed (o : Options) : Expr → List Number
  | .number n => written o n
  | .unary op u => unaryForms o op (u.fold o)
  | .binary op u v => binaryForms o op (u.fold o) (v.fold o)
  | .nary op es => naryForms o op (es.map (Expr.fold o))
  | _ => []

/-- The number that folding a node tests for zero and one. -/
def tested? (o : Options) : Expr → Option Number
  | .nary op es => constant? op (es.map (Expr.fold o))
  | _ => none

/-- Folding the node stays exact, and so do the tests for zero and one. -/
structure Precise (o : Options) (node : Expr) : Prop where
  exact : ∀ n ∈ formed o node, n.isExact = true
  sharp : ∀ r ∈ (tested? o node).bind Exact.literal, Sharp r

instance (o : Options) (node : Expr) : Decidable (Precise o node) :=
  decidable_of_iff ((∀ n ∈ formed o node, n.isExact = true) ∧
    ∀ r ∈ (tested? o node).bind Exact.literal, Sharp r) ⟨fun h => ⟨h.1, h.2⟩, fun h => ⟨h.1, h.2⟩⟩

variable {I : Interpretation} {ρ : Assignment} {o : Options} {e lhs rhs : Expr} {n : Number}
  {q r : ℚ}

/-! ## Literals -/

theorem mem_written (o : Options) (n : Number) : n ∈ written o n := by
  unfold written
  split <;> exact List.mem_cons_self

/-- A literal has the value of its number, with its sign. -/
theorem value_of_literal? (hn : literal? e = some n) (hexact : n.isExact = true)
    (h : value I e ρ = some q) : n = .exact q := by
  unfold literal? at hn
  split at hn
  · obtain rfl := Option.some.inj hn
    obtain ⟨r, rfl⟩ := Number.exact_of_isExact hexact
    exact congrArg Number.exact (Option.some.inj h)
  · rename_i n
    obtain rfl := Option.some.inj hn
    obtain ⟨p, hp, hq⟩ := value_unary.1 h
    obtain rfl := Option.some.inj hq
    cases n with
    | real v => cases hp
    | exact r =>
      obtain rfl := Option.some.inj hp
      exact Number.neg_eq_exact hexact
  · cases hn

/-- The literal of a fraction has the fraction as its value, in either way of writing signs. -/
theorem value_literal (hn : n = .exact q) (h : ∀ k ∈ written o n, k.isExact = true) :
    value I (literal o n) ρ = some q := by
  subst hn
  unfold literal
  unfold written at h
  split
  · rename_i hnegative
    rw [if_pos hnegative] at h
    rw [Number.neg_eq_exact (h (-.exact q) (by simp))]
    exact congrArg some (neg_neg q)
  · rfl

theorem value_ofInt (k : ℤ) : value I (.ofInt k) ρ = some (k : ℚ) := rfl

theorem eq_of_isLiteral {k : ℤ} (h : isLiteral e k = true)
    (hexact : ∀ n ∈ literal? e, n.isExact = true) (he : value I e ρ = some q) : q = k := by
  unfold isLiteral at h
  cases hn : literal? e with
  | none =>
    rw [hn] at h
    cases h
  | some n =>
    obtain rfl := value_of_literal? hn (hexact n hn) he
    rw [hn] at h
    exact beq_iff_eq.1 h

theorem fits_of_literal? (he : e.Fits) (hn : literal? e = some n) : n.Fits := by
  unfold literal? at hn
  split at hn
  · obtain rfl := Option.some.inj hn
    exact he _ (Expr.mem_nodes_self _) _ rfl
  · obtain rfl := Option.some.inj hn
    exact Number.fits_neg ((Expr.forall_mem_nodes.1 he).2 _ List.mem_cons_self _
      (Expr.mem_nodes_self _) _ rfl)
  · cases hn

/-! ## Neutral and absorbing literals -/

theorem power_zero (h : power q 0 = some r) : r = 1 := by
  simp only [power, Option.ite_none_right_eq_some, Option.some.injEq] at h
  simpa using h.2.symm

theorem zero_power (h : power 0 q = some r) : r = 0 := by
  simp only [power, ne_eq, not_true_eq_false, false_or, Option.ite_none_right_eq_some,
    Option.some.injEq] at h
  rw [← h.2, zero_zpow _ h.1.2.ne']

theorem one_power (h : power 1 q = some r) : r = 1 := by
  simp only [power, Option.ite_none_right_eq_some, Option.some.injEq] at h
  simpa using h.2.symm

theorem power_one (h : power q 1 = some r) : r = q := by
  simp only [power, Option.ite_none_right_eq_some, Option.some.injEq] at h
  simpa using h.2.symm

theorem quotient_one (h : quotient q 1 = some r) : r = q := by
  simpa [quotient, eq_comm] using h

/-- What is left of an operation has its value, once the literals it reads are exact. -/
theorem value_collapse {op : BinaryOp} {p : ℚ} (hlhs : ∀ n ∈ literal? lhs, n.isExact = true)
    (hrhs : ∀ n ∈ literal? rhs, n.isExact = true) (hp : value I lhs ρ = some p)
    (hr : value I rhs ρ = some r) (h : Exact.binary op p r = some q) :
    value I (collapse op lhs rhs) ρ = some q := by
  have hplain : value I (.binary op lhs rhs) ρ = some q := value_binary.2 ⟨p, hp, r, hr, h⟩
  have hleft {k : ℤ} (hk : isLiteral lhs k = true) : p = k := eq_of_isLiteral hk hlhs hp
  have hright {k : ℤ} (hk : isLiteral rhs k = true) : r = k := eq_of_isLiteral hk hrhs hr
  cases op with
  | add =>
    obtain rfl : p + r = q := Option.some.inj h
    simp only [collapse]
    split_ifs with hl hr'
    · rw [hleft hl, Int.cast_zero, zero_add]
      exact hr
    · rw [hright hr', Int.cast_zero, add_zero]
      exact hp
    · exact hplain
  | sub =>
    obtain rfl : p - r = q := Option.some.inj h
    simp only [collapse]
    split_ifs with hr' hl
    · rw [hright hr', Int.cast_zero, sub_zero]
      exact hp
    · rw [hleft hl, Int.cast_zero, zero_sub]
      exact value_unary.2 ⟨r, hr, rfl⟩
    · exact hplain
  | mul =>
    obtain rfl : p * r = q := Option.some.inj h
    simp only [collapse]
    split_ifs with hzero hl hr'
    · have hproduct : p * r = (0 : ℤ) := by
        rcases (Bool.or_eq_true _ _).mp hzero with hl | hr'
        · rw [hleft hl, Int.cast_zero, zero_mul]
        · rw [hright hr', Int.cast_zero, mul_zero]
      rw [hproduct]
      exact value_ofInt 0
    · rw [hleft hl, Int.cast_one, one_mul]
      exact hr
    · rw [hright hr', Int.cast_one, mul_one]
      exact hp
    · exact hplain
  | div =>
    change quotient p r = some q at h
    simp only [collapse]
    split_ifs with hr' hl
    · rw [hright hr', Int.cast_one] at h
      rw [quotient_one h]
      exact hp
    · rw [hleft hl, Int.cast_one] at h
      exact value_unary.2 ⟨r, hr, h⟩
    · exact hplain
  | pow =>
    change power p r = some q at h
    simp only [collapse]
    split_ifs with hzero hbase hone hr'
    · rw [hright hzero, Int.cast_zero] at h
      rw [power_zero h]
      exact value_ofInt 1
    · rw [hleft ((Bool.and_eq_true _ _).mp hbase).1, Int.cast_zero] at h
      rw [zero_power h]
      exact value_ofInt 0
    · rw [hleft hone, Int.cast_one] at h
      rw [one_power h]
      exact value_ofInt 1
    · rw [hright hr', Int.cast_one] at h
      rw [power_one h]
      exact hp
    · exact hplain
  | eq | and | or => exact hplain

/-! ## Operations on numbers -/

/-- An exact result on two exact numbers is the value of the operation. -/
theorem onNumbers?_eq_exact {op : BinaryOp} {p : ℚ}
    (hn : onNumbers? op (.exact p) (.exact r) = some n) (hexact : n.isExact = true)
    (hfits : op = .pow → (Number.exact r).Fits) (h : Exact.binary op p r = some q) :
    n = .exact q := by
  cases op with
  | add =>
    obtain rfl := Option.some.inj hn
    rw [Number.add_eq_exact hexact, Option.some.inj h]
  | sub =>
    obtain rfl := Option.some.inj hn
    rw [Number.sub_eq_exact hexact, Option.some.inj h]
  | mul =>
    obtain rfl := Option.some.inj hn
    rw [Number.mul_eq_exact hexact, Option.some.inj h]
  | div =>
    obtain rfl := Option.some.inj hn
    obtain ⟨hr, hquotient⟩ := Number.div_eq_exact hexact
    change quotient p r = some q at h
    rw [quotient, if_neg hr] at h
    rw [hquotient, Option.some.inj h]
  | pow =>
    simp only [onNumbers?, Option.ite_none_right_eq_some] at hn
    obtain ⟨hinteger, hn⟩ := hn
    obtain ⟨hsize, -, rfl⟩ := Number.pow?_eq_exact hn hexact
    simp only [Exact.binary, power, Option.ite_none_right_eq_some, Option.some.injEq] at h
    rw [Number.eq_ofInt_of_isInteger hinteger] at hsize ⊢
    rcases Number.toInt_value_ofInt (hfits rfl).1 with hsame | hlarge
    · rw [hsame, h.2]
    · simp only [UInt32.size] at hsize
      omega
  | eq | and | or => cases hn

/-- What is computed has words as its parts. -/
theorem fits_onNumbers? {op : BinaryOp} {m k : Number} (h : onNumbers? op m n = some k) :
    k.Fits := by
  cases op with
  | add => exact Option.some.inj h ▸ Number.fits_add
  | sub => exact Option.some.inj h ▸ Number.fits_sub
  | mul => exact Option.some.inj h ▸ Number.fits_mul
  | div => exact Option.some.inj h ▸ Number.fits_div
  | pow =>
    simp only [onNumbers?, Option.ite_none_right_eq_some] at h
    exact Number.fits_pow? h.2
  | eq | and | or => cases h

/-! ## Operations on folded operands -/

theorem value_onLiteral {f : Number → Number} {p : ℚ} (hn : literal? e = some n)
    (hexact : ∀ k ∈ (literal? e).toList.flatMap fun n => n :: written o (f n), k.isExact = true)
    (hp : value I e ρ = some p)
    (hf : (f (.exact p)).isExact = true → f (.exact p) = .exact q) :
    value I (literal o (f n)) ρ = some q := by
  simp only [hn, Option.toList_some, List.flatMap_singleton, List.forall_mem_cons] at hexact
  obtain ⟨hexact, hresult⟩ := hexact
  obtain rfl := value_of_literal? hn hexact hp
  exact value_literal (hf (hresult _ (mem_written o _))) hresult

theorem value_unary {op : UnaryOp} {p : ℚ} (hexact : ∀ n ∈ unaryForms o op e, n.isExact = true)
    (hp : value I e ρ = some p) (h : Exact.unary op p = some q) :
    value I (unary o op e) ρ = some q := by
  have hplain : value I (.unary op e) ρ = some q := Exact.value_unary.2 ⟨p, hp, h⟩
  cases op with
  | plus =>
    rw [← Option.some.inj h]
    exact hp
  | neg =>
    cases hn : literal? e with
    | none => simpa only [unary, hn] using hplain
    | some n =>
      simp only [unary, hn]
      refine value_onLiteral hn hexact hp fun hneg => ?_
      rw [Number.neg_eq_exact hneg, show -p = q from Option.some.inj h]
  | recip =>
    cases hn : literal? e with
    | none => simpa only [unary, hn] using hplain
    | some n =>
      simp only [unary, hn]
      refine value_onLiteral hn hexact hp fun hinverse => ?_
      obtain ⟨hp0, hinverse⟩ := Number.inverse_eq_exact hinverse
      change quotient 1 p = some q at h
      rw [quotient, if_neg hp0] at h
      rw [hinverse, Option.some.inj h]

/-- Folding a binary operation keeps its value. -/
theorem value_binary {op : BinaryOp} {p : ℚ}
    (hexact : ∀ n ∈ binaryForms o op lhs rhs, n.isExact = true) (hfits : rhs.Fits)
    (hp : value I lhs ρ = some p) (hr : value I rhs ρ = some r)
    (h : Exact.binary op p r = some q) : value I (binary o op lhs rhs) ρ = some q := by
  simp only [binaryForms, List.mem_append, or_imp, forall_and, Option.mem_toList] at hexact
  obtain ⟨⟨hlhs, hrhs⟩, hresult⟩ := hexact
  have hcollapse := value_collapse hlhs hrhs hp hr h
  unfold binary
  split
  · rename_i m n hm hn
    split
    · rename_i k hk
      obtain rfl := value_of_literal? hm (hlhs m hm) hp
      obtain rfl := value_of_literal? hn (hrhs n hn) hr
      simp only [hm, hn, Option.bind_some, hk, Option.toList_some,
        List.flatMap_singleton] at hresult
      have hvalue := onNumbers?_eq_exact hk (hresult k (mem_written o k))
        (fun _ => fits_of_literal? hfits hn) h
      exact value_literal hvalue hresult
    · exact hcollapse
  · exact hcollapse

/-! ## Gathered literals -/

theorem onNumbers_eq_exact {op : Family}
    (h : (onNumbers op (.exact q) (.exact r)).isExact = true) :
    onNumbers op (.exact q) (.exact r) = .exact (family op [q, r]) := by
  cases op with
  | sum => rw [onNumbers, Number.add_eq_exact h, family, List.sum_pair]
  | product => rw [onNumbers, Number.mul_eq_exact h, family, List.prod_pair]

/-- Exact numbers put together from left to right give the operation on all of them. -/
theorem foldl_onNumbers {op : Family} {ns : List Number} {rs : List ℚ}
    (hns : List.Forall₂ (fun n r => n = .exact r) ns rs)
    (hexact : ∀ n ∈ ns.scanl (onNumbers op) (.exact q), n.isExact = true) :
    ns.foldl (onNumbers op) (.exact q) = .exact (family op (q :: rs)) := by
  induction hns generalizing q with
  | nil => rw [List.foldl_nil, family_singleton]
  | @cons n r ns rs hn _ ih =>
    subst hn
    rw [List.scanl_cons, List.forall_mem_cons] at hexact
    have hfirst : onNumbers op (.exact q) (.exact r) = .exact (family op [q, r]) := by
      refine onNumbers_eq_exact (hexact.2 _ ?_)
      cases ns with
      | nil => exact List.mem_cons_self
      | cons m ns =>
        rw [List.scanl_cons]
        exact List.mem_cons_self
    rw [hfirst] at hexact
    rw [List.foldl_cons, hfirst, ih hexact.2, family_cons, ← family_append]
    rfl

/-- The numbers of exact literals are their values. -/
theorem literals_eq_exact {es : List Expr} {qs : List ℚ} (h : Values I ρ es qs)
    (hliterals : ∀ e ∈ es, (literal? e).isSome = true)
    (hexact : ∀ n ∈ es.filterMap literal?, n.isExact = true) :
    List.Forall₂ (fun n q => n = .exact q) (es.filterMap literal?) qs := by
  induction h with
  | nil => exact .nil
  | cons he _ ih =>
    rw [List.forall_mem_cons] at hliterals
    obtain ⟨n, hn⟩ := Option.isSome_iff_exists.1 hliterals.1
    rw [List.filterMap_cons_some hn] at hexact ⊢
    rw [List.forall_mem_cons] at hexact
    exact .cons (value_of_literal? hn hexact.1 he) (ih hliterals.2 hexact.2)

/-- The literals of a row and their constant: there are none, or the constant is their amount. -/
theorem constant?_eq_exact {op : Family} {es : List Expr}
    (h : Amount I ρ op (es.filter fun e => (literal? e).isSome) q)
    (hexact : ∀ n ∈ running op (es.filterMap literal?) ++ es.filterMap literal?,
      n.isExact = true) :
    (constant? op es = none ∧ q = op.identity) ∨ constant? op es = some (.exact q) := by
  obtain ⟨qs, hqs, rfl⟩ := h
  have hsame : (es.filter fun e => (literal? e).isSome).filterMap literal? =
      es.filterMap literal? := by
    rw [List.filterMap_filter]
    refine List.filterMap_congr fun e _ => ?_
    cases literal? e <;> rfl
  rw [List.forall_mem_append] at hexact
  have hns := literals_eq_exact hqs (fun e he => (List.mem_filter.1 he).2) (hsame ▸ hexact.2)
  rw [hsame] at hns
  unfold constant?
  generalize es.filterMap literal? = ns at hns hexact
  cases hns with
  | nil => exact .inl ⟨rfl, family_nil op⟩
  | cons hn hns =>
    subst hn
    exact .inr (congrArg some (foldl_onNumbers hns hexact.1))

/-- The operands have the same amount when their literals are gathered. -/
theorem amount_gather {op : Family} {es : List Expr} (h : Amount I ρ op es q)
    (hexact : ∀ n ∈ naryForms o op es, n.isExact = true)
    (hsharp : ∀ r ∈ (constant? op es).bind Exact.literal, Sharp r) :
    Amount I ρ op (gather o op es) q := by
  have hsplit := List.filter_append_perm (fun e => (literal? e).isNone) es
  simp only [Option.not_isNone] at hsplit
  obtain ⟨d, c, hrest, hliterals, rfl⟩ := (h.perm hsplit).of_append
  rw [naryForms, List.forall_mem_append] at hexact
  obtain ⟨hexact, hwritten⟩ := hexact
  rcases constant?_eq_exact hliterals hexact with ⟨hnone, rfl⟩ | hsome
  · rw [family_identity]
    cases op with
    | sum | product =>
      simp only [gather, hnone]
      exact hrest
  · obtain ⟨hzero, hone⟩ := hsharp c (by rw [hsome]; rfl)
    rw [hsome] at hwritten
    have hliteral : value I (literal o (.exact c)) ρ = some c :=
      value_literal rfl (by simpa using hwritten)
    cases op with
    | sum =>
      simp only [gather, hsome]
      split
      · rename_i h
        have hc : c = 0 := by simpa [hzero] using ((Bool.and_eq_true _ _).mp h).1
        rw [hc, show family .sum [d, 0] = d from family_identity .sum d]
        exact hrest
      · exact hrest.append (amount_singleton hliteral)
    | product =>
      simp only [gather, hsome]
      split
      · rename_i h
        have hc : c = 0 := by simpa [hzero] using h
        rw [hc, family, List.prod_pair, mul_zero]
        exact amount_singleton (value_ofInt 0)
      · split
        · rename_i h
          have hc : c = 1 := by simpa [hone] using ((Bool.and_eq_true _ _).mp h).1
          rw [hc, show family .product [d, 1] = d from family_identity .product d]
          exact hrest
        · rw [family_perm .product (List.Perm.swap c d [])]
          exact hrest.cons hliteral

theorem nary_eq (op : Family) (es : List Expr) :
    nary o op es = Substitution.nary op (gather o op es) := by
  unfold nary
  generalize gather o op es = fs
  match fs with
  | [] | [_] | _ :: _ :: _ => rfl

theorem value_nary {op : Family} {es : List Expr} (h : Amount I ρ op es q)
    (hexact : ∀ n ∈ naryForms o op es, n.isExact = true)
    (hsharp : ∀ r ∈ (constant? op es).bind Exact.literal, Sharp r) :
    value I (nary o op es) ρ = some q := by
  rw [nary_eq]
  exact (amount_gather h hexact hsharp).value_nary

/-- What is gathered are operands, the literal of the others, or zero. -/
theorem of_mem_gather {P : Expr → Prop} (op : Family) {es : List Expr}
    (hliteral : ∀ n, constant? op es = some n → P (literal o n)) (hzero : P (.ofInt 0))
    (h : ∀ e ∈ es, P e) : ∀ e ∈ gather o op es, P e := by
  have hrest : ∀ e ∈ es.filter (fun e => (literal? e).isNone), P e :=
    fun e he => h e (List.mem_of_mem_filter he)
  cases hn : constant? op es with
  | none => cases op <;> simpa only [gather, hn] using hrest
  | some n =>
    cases op with
    | sum =>
      simp only [gather, hn]
      split
      · exact hrest
      · exact List.forall_mem_append.2 ⟨hrest, List.forall_mem_singleton.2 (hliteral n hn)⟩
    | product =>
      simp only [gather, hn]
      split_ifs
      · exact List.forall_mem_singleton.2 hzero
      · exact hrest
      · exact List.forall_mem_cons.2 ⟨hliteral n hn, hrest⟩

end Folding

namespace Expr

open Folding

variable {o : Options} {e : Expr}

/-! ## The literals of a folded expression -/

theorem fits_iff : e.Fits ↔ (∀ n ∈ e.number?, n.Fits) ∧ ∀ part ∈ e.children, part.Fits :=
  forall_mem_nodes

theorem fits_number {n : Number} (h : n.Fits) : (number n).Fits :=
  fits_iff.2 ⟨fun _ hm => Option.some.inj hm ▸ h, List.forall_mem_nil _⟩

theorem fits_unary {op : UnaryOp} (h : e.Fits) : (unary op e).Fits :=
  fits_iff.2 ⟨nofun, List.forall_mem_singleton.2 h⟩

theorem fits_binary {op : BinaryOp} {u v : Expr} (hu : u.Fits) (hv : v.Fits) :
    (binary op u v).Fits :=
  fits_iff.2 ⟨nofun, forall_mem_pair.2 ⟨hu, hv⟩⟩

theorem fits_literal {n : Number} (h : n.Fits) : (Folding.literal o n).Fits := by
  unfold Folding.literal
  split
  · exact fits_unary (fits_number (Number.fits_neg h))
  · exact fits_number h

theorem fits_foldUnary {op : UnaryOp} (h : e.Fits) : (Folding.unary o op e).Fits := by
  unfold Folding.unary
  split
  · exact h
  · rename_i hn
    exact fits_literal (Number.fits_neg (fits_of_literal? h hn))
  · rename_i hn
    exact fits_literal (Number.fits_inverse (fits_of_literal? h hn))
  · exact fits_unary h

theorem fits_collapse {op : BinaryOp} {u v : Expr} (hu : u.Fits) (hv : v.Fits) :
    (collapse op u v).Fits := by
  have hzero : (ofInt 0).Fits := fits_number ⟨by decide, by decide⟩
  have hone : (ofInt 1).Fits := fits_number ⟨by decide, by decide⟩
  have hneg : (unary .neg v).Fits := fits_unary hv
  have hrecip : (unary .recip v).Fits := fits_unary hv
  have hplain : (binary op u v).Fits := fits_binary hu hv
  cases op with
  | add | sub | mul | div | pow =>
    simp only [collapse]
    split_ifs <;> assumption
  | eq | and | or => exact hplain

theorem fits_foldBinary {op : BinaryOp} {u v : Expr} (hu : u.Fits) (hv : v.Fits) :
    (Folding.binary o op u v).Fits := by
  unfold Folding.binary
  split
  · split
    · rename_i hk
      exact fits_literal (fits_onNumbers? hk)
    · exact fits_collapse hu hv
  · exact fits_collapse hu hv

theorem fits_constant? {op : Family} {es : List Expr} (h : ∀ e ∈ es, e.Fits) {n : Number}
    (hn : constant? op es = some n) : n.Fits := by
  have hfoldl (ns : List Number) {n : Number} (hn : n.Fits) :
      (ns.foldl (onNumbers op) n).Fits := by
    induction ns generalizing n with
    | nil => exact hn
    | cons m ns ih =>
      refine ih ?_
      cases op with
      | sum => exact Number.fits_add
      | product => exact Number.fits_mul
  unfold constant? at hn
  split at hn
  · cases hn
  · rename_i m ns hns
    obtain rfl := Option.some.inj hn
    obtain ⟨e, he, hm⟩ := List.mem_filterMap.1 (hns ▸ List.mem_cons_self)
    exact hfoldl ns (fits_of_literal? (h e he) hm)

theorem fits_foldNary {op : Family} {es : List Expr} (h : ∀ e ∈ es, e.Fits) :
    (Folding.nary o op es).Fits := by
  have hzero : (ofInt 0).Fits := fits_number ⟨by decide, by decide⟩
  have hall : ∀ e ∈ gather o op es, e.Fits :=
    of_mem_gather op (fun _ hn => fits_literal (fits_constant? h hn)) hzero h
  unfold Folding.nary
  split
  · exact fits_number (by cases op <;> exact ⟨by decide, by decide⟩)
  · rename_i heq
    exact hall _ (heq ▸ List.mem_cons_self)
  · exact fits_iff.2 ⟨nofun, hall⟩

/-- Folding keeps the parts of all numbers words. -/
theorem fits_fold (e : Expr) (h : e.Fits) : (e.fold o).Fits := by
  induction e using Expr.induction with
  | number n => exact fits_literal (h _ (mem_nodes_self _) n rfl)
  | var name => exact h
  | unary op u ih => exact fits_foldUnary (ih ((fits_iff.1 h).2 u List.mem_cons_self))
  | binary op u v ihu ihv =>
    obtain ⟨hu, hv⟩ := forall_mem_pair.1 (fits_iff.1 h).2
    exact fits_foldBinary (ihu hu) (ihv hv)
  | nary op es ih =>
    rw [fold, foldList_eq_map]
    refine fits_foldNary (List.forall_mem_map.2 fun e he => ih e he ((fits_iff.1 h).2 e he))
  | element _ _ ih | call _ _ _ ih | derivative _ _ ih =>
    refine fits_iff.2 ⟨nofun, List.forall_mem_singleton.2 (ih ?_)⟩
    exact (fits_iff.1 h).2 _ List.mem_cons_self
  | derivativeAt body name point ihbody ihpoint =>
    obtain ⟨hbody, hpoint⟩ := forall_mem_pair.1 (fits_iff.1 h).2
    exact fits_iff.2 ⟨nofun, forall_mem_pair.2 ⟨ihbody hbody, ihpoint hpoint⟩⟩
  | invalid | invalidPart => exact h

/-! ## Folding -/

/-- The literals have 64 bits, and folding stays exact at every node. -/
structure FoldsExactly (o : Options) (e : Expr) : Prop where
  fits : e.Fits
  precise : ∀ node ∈ e.nodes, Precise o node

instance (o : Options) (e : Expr) : Decidable (e.FoldsExactly o) :=
  decidable_of_iff (e.Fits ∧ ∀ node ∈ e.nodes, Precise o node)
    ⟨fun h => ⟨h.1, h.2⟩, fun h => ⟨h.1, h.2⟩⟩

theorem FoldsExactly.of_child (h : e.FoldsExactly o) {part : Expr} (hpart : part ∈ e.children) :
    part.FoldsExactly o :=
  ⟨(fits_iff.1 h.fits).2 part hpart, (forall_mem_nodes.1 h.precise).2 part hpart⟩

theorem FoldsExactly.root (h : e.FoldsExactly o) : Precise o e := h.precise e (mem_nodes_self e)

/-- Wherever an expression has a value, the folded expression has the same value. -/
theorem value_fold (F : FunctionValues) {ρ : Assignment} {q : ℚ} (hexact : e.FoldsExactly o)
    (h : value F.interpretation e ρ = some q) : value F.interpretation (e.fold o) ρ = some q := by
  induction e using Expr.induction generalizing q with
  | number n =>
    cases n with
    | real v => cases h
    | exact r =>
      obtain rfl := Option.some.inj h
      exact value_literal rfl hexact.root.exact
  | var name => exact h
  | unary op u ih =>
    obtain ⟨p, hu, hq⟩ := Exact.value_unary.1 h
    exact Folding.value_unary hexact.root.exact (ih (hexact.of_child List.mem_cons_self) hu) hq
  | binary op u v ihu ihv =>
    obtain ⟨p, hu, r, hv, hq⟩ := Exact.value_binary.1 h
    have hleft : u.FoldsExactly o := hexact.of_child List.mem_cons_self
    have hright : v.FoldsExactly o := hexact.of_child (List.mem_cons_of_mem _ List.mem_cons_self)
    exact Folding.value_binary hexact.root.exact (fits_fold v hright.fits) (ihu hleft hu)
      (ihv hright hv) hq
  | nary op es ih =>
    obtain ⟨qs, hqs, rfl⟩ := Exact.value_nary.1 h
    rw [fold, foldList_eq_map]
    refine Folding.value_nary ⟨qs, ?_, rfl⟩ hexact.root.exact hexact.root.sharp
    have hall := (List.forall₂_and_left es qs).2
      ⟨fun e he q => ih e he (q := q) (hexact.of_child he), hqs⟩
    rw [Values, List.forall₂_map_left_iff]
    exact hall.imp fun e q h => h.1 q h.2
  | call f primes u ih =>
    obtain ⟨p, hu, hq⟩ := value_call.1 h
    exact value_call.2 ⟨p, ih (hexact.of_child List.mem_cons_self) hu, hq⟩
  | element sequence index _ => simp [value, FunctionValues.interpretation] at h
  | derivative body name _ => simp [value, FunctionValues.interpretation] at h
  | derivativeAt body name point _ _ => simp [value, FunctionValues.interpretation] at h
  | invalid issue => simp [value] at h
  | invalidPart issue part _ => simp [value] at h

theorem value_fold_powers :
    ∃ e, e = binary .add
        (nary .product [var "x", binary .pow (number (.exact (2 / 3))) (ofInt (-2)),
          binary .div (call "f" 0 (binary .pow (var "y") (ofInt 0))) (ofInt 1)])
        (nary .sum [ofInt 1, unary .neg (binary .mul (ofInt 0) (var "x")), ofInt (-2)]) ∧
      e.FoldsExactly {} ∧
      value (FunctionValues.interpretation fun _ _ q => some (q + 1)) e (fun _ => some 2) = some 8 ∧
      value (FunctionValues.interpretation fun _ _ q => some (q + 1)) (e.fold {})
        (fun _ => some 2) = some 8 := by
  refine ⟨_, rfl, ?exact, ?before, value_fold _ ?exact ?before⟩
  case exact => decide +kernel
  case before =>
    norm_num [value, values, Exact.binary, Exact.unary, Exact.quotient, Exact.power, family,
      Exact.literal, ofInt, Number.ofInt, FunctionValues.interpretation]

end Expr

end Formulary
