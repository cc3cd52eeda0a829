import Formulary.Proofs.Number.Exact

/-!
# Arithmetic on words

A fraction is stored as two signed words. `Stored` is that form of a number, with its arithmetic
written down in the single steps it takes on words. A step that is not checked against overflow
stops with a `Trap` where it would leave the words or divide by zero: these are the remainders and
the quotients by which a fraction is reduced, and the sign that the greatest common divisor gets.

A stored number is canonical if its denominator is positive and the fraction is in lowest terms.
These are exactly the numbers whose parts fit into words (`canonical_iff`), and on them no step ever
stops and every operation is the one on numbers.
-/

namespace Formulary

namespace Word

/-- The quotient of two signed words, rounded towards zero. -/
def divide (n d : Int) : Except Trap Int :=
  if d = 0 then .error .zeroDivisor
  else if Fits (n.tdiv d) then .ok (n.tdiv d)
  else .error .overflow

/-- The remainder of two unsigned words. -/
def remainder (n d : Nat) : Except Trap Nat :=
  if d = 0 then .error .zeroDivisor else .ok (n % d)

/-- An unsigned word as a signed one. -/
def toSigned (n : Nat) : Except Trap Int := if Fits n then .ok n else .error .overflow

theorem divide_eq_ok {n d : Int} (hd : d ≠ 0) (h : d ∣ n) (hfits : Fits (n / d)) :
    divide n d = .ok (n / d) := by
  rw [← Int.tdiv_eq_ediv_of_dvd h] at hfits ⊢
  rw [divide, if_neg hd, if_pos hfits]

theorem lt_of_remainder_eq_ok {n d c : Nat} (h : remainder n d = .ok c) : c < d := by
  unfold remainder at h
  split at h
  · cases h
  · rw [← Except.ok.inj h]
    exact Nat.mod_lt n (by omega)

/-- The loop of Euclid's algorithm. -/
def euclid (a b : Nat) : Except Trap Nat :=
  if 0 < b then
    match _hc : remainder a b with
    | .ok c => euclid b c
    | .error trap => .error trap
  else .ok a
termination_by b
decreasing_by exact lt_of_remainder_eq_ok _hc

/-- The greatest common divisor of two unsigned words. -/
def gcd (a b : Nat) : Except Trap Nat := if a < b then euclid b a else euclid a b

/-- The loop never divides by zero, and it finds the greatest common divisor. -/
theorem euclid_eq_ok (a b : Nat) : euclid a b = .ok (a.gcd b) := by
  induction b using Nat.strongRecOn generalizing a with
  | _ b ih =>
    rw [euclid]
    split
    · rename_i hb
      have hstep : remainder a b = .ok (a % b) := if_neg hb.ne'
      split
      · rename_i c hc
        obtain rfl := Except.ok.inj (hstep.symm.trans hc)
        rw [ih _ (Nat.mod_lt a hb), Nat.gcd_comm, ← Nat.gcd_rec, Nat.gcd_comm]
      · rename_i trap htrap
        cases hstep.symm.trans htrap
    · rename_i hb
      rw [Nat.eq_zero_of_not_pos hb, Nat.gcd_zero_right]

theorem gcd_eq_ok (a b : Nat) : gcd a b = .ok (a.gcd b) := by
  unfold gcd
  split
  · rw [euclid_eq_ok, Nat.gcd_comm]
  · exact euclid_eq_ok a b

/-- A power is refused only if it is no word. -/
theorem power?_eq_checked (b : Int) (k : Nat) : power? b k = checked (b ^ k) := by
  cases h : power? b k with
  | some p =>
    obtain ⟨hfits, rfl⟩ := power?_eq_some h
    exact (checked_eq_some.2 ⟨hfits, rfl⟩).symm
  | none =>
    unfold power? at h
    split at h
    · cases h
    · split at h
      · exact h.symm
      · rename_i hbase hk
        have hlarge : 2 ^ 64 ≤ (b ^ k).natAbs := by
          rw [Int.natAbs_pow]
          calc 2 ^ 64
            _ ≤ 2 ^ k := Nat.pow_le_pow_right (by decide) (by omega)
            _ ≤ b.natAbs ^ k := Nat.pow_le_pow_left (by omega) k
        refine (if_neg fun hfits => ?_).symm
        unfold Fits least greatest at hfits
        omega

theorem fits_neg {n : Int} (h : Fits n) : Fits (-n) ↔ n ≠ least := by
  unfold Fits least greatest at *
  omega

end Word

/-- A number as it is stored: the words of a fraction, or a double. -/
inductive Stored where
  | rational (p q : Int)
  | real (v : Float)
deriving DecidableEq

namespace Stored

open Word (Trap)

/-- The denominator is positive and the fraction is in lowest terms. -/
def Canonical : Stored → Prop
  | rational p q => Word.Fits p ∧ Word.Fits q ∧ 0 < q ∧ p.natAbs.Coprime q.natAbs
  | real _ => True

instance : DecidablePred Canonical
  | rational _ _ => inferInstanceAs (Decidable (_ ∧ _ ∧ _ ∧ _))
  | real _ => inferInstanceAs (Decidable True)

def fraction? : Stored → Option ℚ
  | rational p q => some (p / q)
  | real _ => none

def number : Stored → Number
  | rational p q => .exact (p / q)
  | real v => .real v

/-! ## The steps of an operation -/

def value : Stored → Float
  | rational p q => Double.ofInt p / Double.ofInt q
  | real v => v

def both (p q : Option Int) : Option (Int × Int) := do return (← p, ← q)

/-- The sign of the denominator moved to the numerator, if both can be negated. -/
def flip? (p q : Int) : Option (Int × Int) :=
  if q < 0 then both (Word.checked (-p)) (Word.checked (-q)) else some (p, q)

/-- A fraction with a positive denominator in lowest terms. -/
def reduced (p q : Int) : Except Trap Stored := do
  let g ← Word.toSigned (← Word.gcd p.natAbs q.natAbs)
  if g ≤ 0 then return real (Double.ofInt p / Double.ofInt q)
  return rational (← Word.divide p g) (← Word.divide q g)

/-- The fraction of two words. -/
def ofRatio (p q : Int) : Except Trap Stored :=
  if q = 0 then .ok (real Double.nan)
  else if p = 0 then .ok (rational 0 1)
  else
    match flip? p q with
    | some (p, q) => reduced p q
    | none => .ok (real (Double.ofInt p / Double.ofInt q))

/-- The fraction of two words, or a double if they could not be formed. -/
def ofWords (words : Option (Int × Int)) (double : Float) : Except Trap Stored :=
  match words with
  | some (p, q) => ofRatio p q
  | none => .ok (real double)

/-- An operation on two numbers: on the words of two fractions, and on doubles otherwise. -/
def combine (exact : Int → Int → Int → Int → Option (Int × Int)) (double : Float → Float → Float)
    (m n : Stored) : Except Trap Stored :=
  match m, n with
  | rational a b, rational c d => ofWords (exact a b c d) (double m.value n.value)
  | _, _ => .ok (real (double m.value n.value))

def add : Stored → Stored → Except Trap Stored :=
  combine (fun a b c d => both
      (do Word.checked ((← Word.checked (a * d)) + (← Word.checked (c * b))))
      (Word.checked (b * d)))
    (· + ·)

def sub : Stored → Stored → Except Trap Stored :=
  combine (fun a b c d => both
      (do Word.checked ((← Word.checked (a * d)) - (← Word.checked (c * b))))
      (Word.checked (b * d)))
    (· - ·)

def mul : Stored → Stored → Except Trap Stored :=
  combine (fun a b c d => both (Word.checked (a * c)) (Word.checked (b * d))) (· * ·)

def div (m n : Stored) : Except Trap Stored :=
  -- the divisor is tested on doubles
  if n.value == 0 then .ok (real Double.nan)
  else
    combine (fun a b c d => both (Word.checked (a * d)) (Word.checked (b * c))) (· / ·) m n

def neg : Stored → Stored
  | rational p q =>
    -- the least word has no negation
    match Word.checked (-p) with
    | some p => rational p q
    | none => real (-Double.ofInt p / Double.ofInt q)
  | real v => real (-v)

def inverse : Stored → Except Trap Stored
  | rational p q => if p = 0 then .ok (real Double.nan) else ofRatio q p
  | real v => .ok (if v == 0 then real Double.nan else real (1 / v))

def powNat (m : Stored) (k : Nat) : Except Trap Stored :=
  match m with
  | rational p q =>
    ofWords
      (if k < UInt32.size then both (Word.checked (p ^ k)) (Word.checked (q ^ k)) else none)
      (m.value.pow (Double.ofInt k))
  | real v => .ok (real (v.pow (Double.ofInt k)))

/-- An integer power; a negative one is the power of the reciprocal, and zero has none. -/
def pow? (m : Stored) (k : Int) : Except Trap (Option Stored) :=
  if 0 ≤ k then do return some (← m.powNat k.toNat)
  else if m.value == 0 then .ok none
  else do
    let i ← m.inverse
    match Word.checked (-k) with
    | some k => return some (← i.powNat k.toNat)
    | none => return none

end Stored

def Number.stored : Number → Stored
  | exact r => .rational r.num r.den
  | real v => .real v

namespace Stored

open Word (Trap)

variable {m n : Number} {p q : Int}

theorem value_stored : n.stored.value = n.value := by
  cases n <;> rfl

theorem number_stored : n.stored.number = n := by
  cases n with
  | exact r => exact congrArg Number.exact (Rat.num_div_den r)
  | real v => rfl

/-- The canonical stored numbers are those whose parts fit into words. -/
theorem canonical_iff {k : Stored} : k.Canonical ↔ ∃ n : Number, n.Fits ∧ n.stored = k := by
  constructor
  · intro h
    cases k with
    | rational p q =>
      obtain ⟨hp, hq, hpos, hcoprime⟩ := h
      have hnum := Rat.num_div_eq_of_coprime hpos hcoprime
      have hden := Rat.den_div_eq_of_coprime hpos hcoprime
      refine ⟨.exact (p / q), ⟨?_, ?_⟩, ?_⟩
      · rwa [hnum]
      · rwa [hden]
      · rw [Number.stored, hnum, hden]
    | real v => exact ⟨.real v, trivial, rfl⟩
  · rintro ⟨n, hfits, rfl⟩
    cases n with
    | exact r => exact ⟨hfits.1, hfits.2, Int.natCast_pos.2 r.den_pos, r.reduced⟩
    | real v => trivial

/-! ## Every operation is the one on numbers -/

theorem ofRatio_of_pos (hq : 0 < q) : Number.ofRatio p q = .exact (p / q) := by
  unfold Number.ofRatio
  rw [if_neg hq.ne']
  split
  · rename_i hp
    rw [hp, Int.cast_zero, zero_div]
    rfl
  · rw [if_neg (by omega), Rat.divInt_eq_div]

/-- Dividing by the greatest common divisor never stops, since it is no greater than the
denominator. -/
theorem reduced_eq_ok (hp : Word.Fits p) (hq : Word.Fits q) (hpos : 0 < q) :
    reduced p q = .ok (Number.exact (p / q)).stored := by
  obtain ⟨hnumfits, hdenfits⟩ : (Number.exact (p / q)).Fits := by
    rw [← ofRatio_of_pos hpos]
    exact Number.fits_ofRatio hp hq
  have hgpos : 0 < p.gcd q := Int.gcd_pos_of_ne_zero_right p hpos.ne'
  have hgle : (p.gcd q : Int) ≤ q := Int.le_of_dvd hpos (Int.gcd_dvd_right p q)
  have hsigned : Word.toSigned (p.gcd q) = .ok (p.gcd q) := by
    refine if_pos ?_
    unfold Word.Fits Word.least at *
    omega
  have hnum : (p / q : ℚ).num = p / p.gcd q := by
    rw [← Rat.divInt_eq_div, Rat.num_divInt, Int.sign_eq_one_of_pos hpos, one_mul, Int.gcd_comm]
  have hden : ((p / q : ℚ).den : Int) = q / p.gcd q := by
    rw [← Rat.divInt_eq_div, Rat.den_divInt, if_neg hpos.ne', Int.gcd_comm]
    push_cast
    rw [abs_of_pos hpos]
  rw [hnum] at hnumfits
  rw [hden] at hdenfits
  have hp' := Word.divide_eq_ok (Int.natCast_pos.2 hgpos).ne' (Int.gcd_dvd_left p q) hnumfits
  have hq' := Word.divide_eq_ok (Int.natCast_pos.2 hgpos).ne' (Int.gcd_dvd_right p q) hdenfits
  have hgcd : Word.gcd p.natAbs q.natAbs = .ok (p.gcd q) := Word.gcd_eq_ok _ _
  rw [reduced, hgcd]
  change (Word.toSigned (p.gcd q) >>= _) = _
  rw [hsigned]
  change (if (p.gcd q : Int) ≤ 0 then _ else _) = _
  rw [if_neg (by omega), hp', hq', Number.stored, hnum, hden]
  rfl

/-- Signs can be moved unless the least word is one of the parts. -/
theorem flip?_eq (hp : Word.Fits p) (hq : Word.Fits q) :
    flip? p q =
      if q < 0 ∧ (p = Word.least ∨ q = Word.least) then none
      else if q < 0 then some (-p, -q) else some (p, q) := by
  unfold flip?
  by_cases hneg : q < 0
  · simp only [hneg, true_and, if_true, Word.checked, Word.fits_neg hp, Word.fits_neg hq]
    by_cases hp' : p = Word.least
    · simp [both, hp']
    · by_cases hq' : q = Word.least <;> simp [both, hp', hq']
  · simp [hneg]

/-- Reducing the fraction of two words never traps. -/
theorem ofRatio_eq_ok (hp : Word.Fits p) (hq : Word.Fits q) :
    ofRatio p q = .ok (Number.ofRatio p q).stored := by
  unfold ofRatio Number.ofRatio
  rw [flip?_eq hp hq]
  split
  · rfl
  split
  · rfl
  by_cases hflip : q < 0 ∧ (p = Word.least ∨ q = Word.least)
  · rw [if_pos hflip, if_pos hflip]
    rfl
  rw [if_neg hflip, if_neg hflip, Rat.divInt_eq_div]
  -- the same fraction with a positive denominator is reduced
  by_cases hneg : q < 0
  · rw [if_pos hneg]
    change reduced (-p) (-q) = _
    rw [reduced_eq_ok ((Word.fits_neg hp).2 fun h => hflip ⟨hneg, .inl h⟩)
      ((Word.fits_neg hq).2 fun h => hflip ⟨hneg, .inr h⟩) (by omega)]
    push_cast
    rw [neg_div_neg_eq]
  · rw [if_neg hneg]
    exact reduced_eq_ok hp hq (by omega)

/-- Putting a number together from words never traps. -/
theorem ofWords_eq_ok {a b : Option Int} {double : Float} (ha : ∀ p ∈ a, Word.Fits p)
    (hb : ∀ q ∈ b, Word.Fits q) :
    ofWords (both a b) double = .ok (Number.ofParts a b double).stored := by
  cases a with
  | none => rfl
  | some p =>
    cases b with
    | none => rfl
    | some q => exact ofRatio_eq_ok (ha p rfl) (hb q rfl)

theorem add_eq_ok : m.stored.add n.stored = .ok (m + n).stored := by
  cases m with
  | real v => cases n <;> rfl
  | exact r =>
    cases n with
    | real v => rfl
    | exact s =>
      refine ofWords_eq_ok (fun _ hp => ?_) fun _ hq => Word.fits_of_checked hq
      exact (Number.checked_of_both hp).1

theorem sub_eq_ok : m.stored.sub n.stored = .ok (m - n).stored := by
  cases m with
  | real v => cases n <;> rfl
  | exact r =>
    cases n with
    | real v => rfl
    | exact s =>
      refine ofWords_eq_ok (fun _ hp => ?_) fun _ hq => Word.fits_of_checked hq
      exact (Number.checked_of_both hp).1

theorem mul_eq_ok : m.stored.mul n.stored = .ok (m * n).stored := by
  cases m with
  | real v => cases n <;> rfl
  | exact r =>
    cases n with
    | real v => rfl
    | exact s =>
      exact ofWords_eq_ok (fun _ hp => Word.fits_of_checked hp) fun _ hq => Word.fits_of_checked hq

theorem div_eq_ok : m.stored.div n.stored = .ok (m / n).stored := by
  change _ = Except.ok (Number.div m n).stored
  unfold div Number.div Number.isZero
  rw [value_stored]
  split
  · rfl
  · cases m with
    | real v => cases n <;> rfl
    | exact r =>
      cases n with
      | real v => rfl
      | exact s =>
        exact ofWords_eq_ok (fun _ hp => Word.fits_of_checked hp)
          fun _ hq => Word.fits_of_checked hq

theorem neg_stored : n.stored.neg = (-n).stored := by
  cases n with
  | real v => rfl
  | exact r =>
    change neg (.rational r.num r.den) = (Number.neg (.exact r)).stored
    rw [neg, Number.neg]
    cases hp : Word.checked (-r.num) with
    | some p =>
      obtain ⟨-, rfl⟩ := Word.checked_eq_some.1 hp
      rfl
    | none => rfl

theorem inverse_eq_ok (h : n.Fits) : n.stored.inverse = .ok n.inverse.stored := by
  cases n with
  | real v =>
    change inverse (.real v) = _
    rw [inverse, Number.inverse]
    split <;> rfl
  | exact r =>
    change inverse (.rational r.num r.den) = _
    rw [inverse, Number.inverse]
    split
    · rfl
    · exact ofRatio_eq_ok h.2 h.1

theorem powNat_eq_ok (k : Nat) : n.stored.powNat k = .ok (n.powNat k).stored := by
  cases n with
  | real v => rfl
  | exact r =>
    change powNat (.rational r.num r.den) k = _
    unfold powNat Number.powNat
    simp only [Word.power?_eq_checked]
    split
    · exact ofWords_eq_ok (fun _ hp => Word.fits_of_checked hp) fun _ hq => Word.fits_of_checked hq
    · rfl

theorem pow?_eq_ok (h : n.Fits) (k : Int) :
    n.stored.pow? k = .ok ((n.pow? k).map Number.stored) := by
  unfold pow? Number.pow? Number.isZero
  rw [value_stored, inverse_eq_ok h]
  split
  · rw [powNat_eq_ok]
    rfl
  split
  · rfl
  cases hk : Word.checked (-k) with
  | none => rfl
  | some l =>
    change (do return some (← n.inverse.stored.powNat l.toNat) : Except Trap _) = _
    rw [powNat_eq_ok]
    rfl

end Stored

end Formulary
