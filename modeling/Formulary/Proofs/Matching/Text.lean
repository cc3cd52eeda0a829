import Formulary.Proofs.Matching.Instance

/-!
# What a text tells of a value

Constants are compared by their texts, and a special constant matches whatever has its name as its
text. Nothing can be mistaken there: the text of a fraction is written by expressions with the value
of the fraction only (`Expr.value_of_text_write`), and the name of a special constant by expressions
with the value of the special constant (`Expr.value_of_text_word`).

A text is told apart from others by the characters that stand in it. Digits, a sign in front and a
single slash write a fraction; every operation has a sign of its own in its text, and every call an
opening parenthesis.
-/

namespace Formulary

open Exact

namespace Number

variable {r s : ℚ} {as bs cs : List Char} {c : Char}

/-! ## The text of a fraction -/

theorem isDigit_of_mem_toDigits {n : ℕ} (h : c ∈ Nat.toDigits 10 n) : c.isDigit = true :=
  Nat.isDigit_of_mem_toDigits (by decide) (by decide) h

/-- The sign of a fraction, as it is written. -/
def writtenSign (r : ℚ) : List Char := if r.num < 0 then ['-'] else []

/-- The denominator of a fraction, as it is written. -/
def writtenDenominator (r : ℚ) : List Char := if r.den = 1 then [] else '/' :: Nat.toDigits 10 r.den

theorem toList_toString_num (r : ℚ) :
    (toString r.num).toList = writtenSign r ++ Nat.toDigits 10 r.num.natAbs := by
  change r.num.repr.toList = _
  rw [Int.repr_eq_if, writtenSign]
  by_cases h : r.num < 0
  · have habs : (-r.num).toNat = r.num.natAbs := by omega
    rw [if_neg (not_le.2 h), if_pos h, String.toList_append, Nat.toList_repr, habs]
    rfl
  · have habs : r.num.toNat = r.num.natAbs := by omega
    rw [if_pos (not_lt.1 h), if_neg h, Nat.toList_repr, habs]
    rfl

/-- A fraction is written by its sign, its numerator and its denominator. -/
theorem toList_write (r : ℚ) : (exact r).write.toList =
    writtenSign r ++ (Nat.toDigits 10 r.num.natAbs ++ writtenDenominator r) := by
  rw [write, writtenDenominator]
  by_cases h : r.den = 1
  · rw [if_pos h, if_pos h, toList_toString_num, List.append_nil]
  · have hden : (toString r.den).toList = Nat.toDigits 10 r.den := Nat.toList_repr
    rw [if_neg h, if_neg h, String.toList_append, String.toList_append, toList_toString_num, hden]
    simp

theorem toList_write_of_den (h : r.den = 1) :
    (exact r).write.toList = writtenSign r ++ Nat.toDigits 10 r.num.natAbs := by
  rw [toList_write, writtenDenominator, if_pos h, List.append_nil]

/-- The character may stand in the text of a fraction. -/
def isNumeral (c : Char) : Bool := c.isDigit || c == '-' || c == '/'

theorem isNumeral_of_isDigit (h : c.isDigit = true) : isNumeral c = true := by
  rw [isNumeral, h, Bool.true_or, Bool.true_or]

theorem isNumeral_of_mem_write (h : c ∈ (exact r).write.toList) : isNumeral c = true := by
  rw [toList_write, List.mem_append, List.mem_append] at h
  rcases h with h | h | h
  · unfold writtenSign at h
    split at h
    · obtain rfl := List.mem_singleton.1 h
      rfl
    · cases h
  · exact isNumeral_of_isDigit (isDigit_of_mem_toDigits h)
  · unfold writtenDenominator at h
    split at h
    · cases h
    · rcases List.mem_cons.1 h with rfl | h
      · rfl
      · exact isNumeral_of_isDigit (isDigit_of_mem_toDigits h)

theorem write_ne_nil (r : ℚ) : (exact r).write.toList ≠ [] := by
  intro h
  rw [toList_write, List.append_eq_nil_iff, List.append_eq_nil_iff] at h
  exact Nat.toDigits_ne_nil h.2.1

/-- Behind the sign there is no other sign. -/
theorem sign_notMem : '-' ∉ Nat.toDigits 10 r.num.natAbs ++ writtenDenominator r := by
  intro h
  rcases List.mem_append.1 h with h | h
  · cases isDigit_of_mem_toDigits h
  · unfold writtenDenominator at h
    split at h
    · cases h
    · rcases List.mem_cons.1 h with h | h
      · cases h
      · cases isDigit_of_mem_toDigits h

/-- What a sign is written in front of is the opposite of the fraction. -/
theorem write_neg_of_cons (h : (exact r).write.toList = '-' :: cs) :
    (exact (-r)).write.toList = cs := by
  rw [toList_write] at h ⊢
  unfold writtenSign at h
  split at h
  · rename_i hneg
    have hsign : writtenSign (-r) = [] := if_neg (by rw [Rat.neg_num]; omega)
    rw [hsign, Rat.neg_num, Int.natAbs_neg]
    exact (List.cons.inj h).2
  · exact absurd (h ▸ List.mem_cons_self) (sign_notMem (r := r))

/-- A sign stands nowhere but in front. -/
theorem eq_nil_of_write_sign (h : (exact r).write.toList = as ++ '-' :: bs) : as = [] := by
  rw [toList_write] at h
  unfold writtenSign at h
  split at h
  · cases as with
    | nil => rfl
    | cons a as =>
      have hrest : Nat.toDigits 10 r.num.natAbs ++ writtenDenominator r = as ++ '-' :: bs :=
        (List.cons.inj h).2
      exact absurd (hrest ▸ by simp) (sign_notMem (r := r))
  · exact absurd (h ▸ by simp) (sign_notMem (r := r))

theorem slash_notMem : '/' ∉ writtenSign r ++ Nat.toDigits 10 r.num.natAbs := by
  intro h
  rcases List.mem_append.1 h with h | h
  · unfold writtenSign at h
    split at h
    · cases List.mem_singleton.1 h
    · cases h
  · cases isDigit_of_mem_toDigits h

/-- On the two sides of a slash the numerator and the denominator are written. -/
theorem write_slash (h : (exact r).write.toList = as ++ '/' :: bs) :
    (exact r.num).write.toList = as ∧ (exact r.den).write.toList = bs := by
  have hbs : '/' ∉ Nat.toDigits 10 r.den := fun hmem => nomatch isDigit_of_mem_toDigits hmem
  rw [toList_write, writtenDenominator, ← List.append_assoc] at h
  split at h
  · rw [List.append_nil] at h
    exact absurd (h ▸ by simp) (slash_notMem (r := r))
  · obtain ⟨hnum, -, hden⟩ := (List.append_cons_inj_of_notMem slash_notMem hbs).1 h
    constructor
    · rw [toList_write_of_den rfl]
      exact hnum
    · rw [toList_write_of_den rfl]
      exact hden

theorem toList_toString_injective {k m : ℤ} (h : (toString k).toList = (toString m).toList) :
    k = m :=
  Int.repr_inj.1 (String.toList_inj.1 h)

/-- The text of a fraction is written by no other fraction. -/
theorem write_injective (h : (exact r).write.toList = (exact s).write.toList) : r = s := by
  by_cases hs : s.den = 1
  · have hr : r.den = 1 := by
      by_contra hr
      rw [toList_write_of_den hs, toList_write, writtenDenominator, if_neg hr] at h
      exact slash_notMem (r := s) (h ▸ by simp)
    rw [write, write, if_pos hr, if_pos hs] at h
    exact Rat.ext (toList_toString_injective h) (hr.trans hs.symm)
  · have hslash : (exact s).write.toList =
        (writtenSign s ++ Nat.toDigits 10 s.num.natAbs) ++ '/' :: Nat.toDigits 10 s.den := by
      rw [toList_write, writtenDenominator, if_neg hs, List.append_assoc]
    obtain ⟨hnum, hden⟩ := write_slash hslash
    obtain ⟨hnum', hden'⟩ := write_slash (h.trans hslash)
    have hdens : (r.den : ℤ) = s.den := toList_toString_injective (hden'.trans hden.symm)
    exact Rat.ext (toList_toString_injective (hnum'.trans hnum.symm)) (by exact_mod_cast hdens)

end Number

namespace Expr

variable {I : Interpretation} {F : FunctionValues} {ρ : Assignment} {e u v : Expr} {q r : ℚ}
  {x : String}

/-! ## The characters of operations -/

theorem symbol_mem_unary (op : UnaryOp) (u : Expr) : op.symbol ∈ (unary op u).text.toList := by
  simp [text]

theorem symbol_mem_binary (op : BinaryOp) (u v : Expr) :
    op.symbol ∈ (binary op u v).text.toList := by
  simp [text]

theorem symbol_mem_nary (op : Family) (u v : Expr) (es : List Expr) :
    op.symbol ∈ (nary op (u :: v :: es)).text.toList := by
  simp [text, textRest]

theorem paren_mem_call (f : String) (primes : Nat) (u : Expr) :
    '(' ∈ (call f primes u).text.toList := by
  simp [text]

/-- A text without an opening parenthesis is not in parentheses. -/
theorem parenthesized_of_notMem {grouped : Bool} {text : String}
    (h : '(' ∉ (parenthesized grouped text).toList) : parenthesized grouped text = text := by
  cases grouped with
  | false => rfl
  | true => exact absurd (by simp [parenthesized]) h

theorem text_nary_nil (op : Family) : (nary op []).text = (Number.exact op.identity).write := by
  cases op <;> rfl

theorem text_nary_singleton {op : Family} (h : '(' ∉ (nary op [u]).text.toList) :
    (nary op [u]).text = u.text := by
  have htext : (nary op [u]).text = parenthesized (u.groupedRight op.precedence) u.text := by
    simp [text, textRest]
  rw [htext] at h ⊢
  exact parenthesized_of_notMem h

theorem value_nary_singleton {op : Family} (h : value I (nary op [u]) ρ = some q) :
    value I u ρ = some q := by
  obtain ⟨qs, hqs, rfl⟩ := value_nary.1 h
  cases hqs with | cons hu hnil =>
  cases hnil
  rw [family_singleton]
  exact hu

/-- A text has at least one character if the expression is a constant with a value. -/
theorem text_ne_nil (e : Expr) (hconstant : e.isConstant = true) (h : value I e ρ = some q) :
    e.text.toList ≠ [] := by
  induction e using Expr.induction generalizing q with
  | number n =>
    cases n with
    | exact r => exact Number.write_ne_nil r
    | real v => cases h
  | var x =>
    intro hnil
    have hx : x = "" := String.toList_eq_nil_iff.1 hnil
    rw [hx] at hconstant
    cases hconstant
  | unary op u _ => exact List.ne_nil_of_mem (symbol_mem_unary op u)
  | binary op u v _ _ => exact List.ne_nil_of_mem (symbol_mem_binary op u v)
  | nary op es ih =>
    match es with
    | [] => exact text_nary_nil op ▸ Number.write_ne_nil _
    | [u] =>
      intro hnil
      have hparen : '(' ∉ (nary op [u]).text.toList := by rw [hnil]; exact List.not_mem_nil
      rw [text_nary_singleton hparen] at hnil
      exact ih u List.mem_cons_self (isConstant_of_child hconstant List.mem_cons_self)
        (value_nary_singleton h) hnil
    | u :: v :: es => exact List.ne_nil_of_mem (symbol_mem_nary op u v es)
  | call f primes u _ => exact List.ne_nil_of_mem (paren_mem_call f primes u)
  | element | invalid | invalidPart => cases hconstant
  | derivative | derivativeAt => simp [text]

/-! ## Names -/

/-- The character stands in the text of a literal, an operation or a call. -/
def isMark (c : Char) : Bool := Number.isNumeral c || ['+', '*', '^', '=', '&', '$', '('].contains c

theorem isMark_of_mem_write {c : Char} (h : c ∈ (Number.exact r).write.toList) :
    isMark c = true := by
  rw [isMark, Number.isNumeral_of_mem_write h, Bool.true_or]

theorem not_isMark_of_special (hx : Names.isSpecial x = true) :
    ∀ c ∈ x.toList, isMark c = false := by
  have hspecials : ∀ x ∈ Names.specials, x.toList.any isMark = false := by decide
  intro c hc
  have hnone := List.any_eq_false.1 (hspecials x (List.contains_iff_mem.1 hx)) c hc
  exact Bool.eq_false_iff.2 hnone

theorem text_ne_write (hword : ∀ c ∈ e.text.toList, isMark c = false) :
    e.text.toList ≠ (Number.exact r).write.toList := by
  intro htext
  obtain ⟨c, hc⟩ := List.exists_mem_of_ne_nil _ (Number.write_ne_nil r)
  have hmark := hword c (htext ▸ hc)
  rw [isMark_of_mem_write hc] at hmark
  cases hmark

/-- An expression whose text is a plain word has the value of that name. -/
theorem value_of_text_word (e : Expr) (hword : ∀ c ∈ e.text.toList, isMark c = false)
    (h : value F.interpretation e ρ = some q) : ρ e.text = some q := by
  induction e using Expr.induction with
  | number n =>
    cases n with
    | exact r => exact absurd rfl (text_ne_write hword)
    | real v => cases h
  | var y => exact h
  | unary op u _ => cases op <;> cases hword _ (symbol_mem_unary _ u)
  | binary op u v _ _ => cases op <;> cases hword _ (symbol_mem_binary _ u v)
  | nary op es ih =>
    match es with
    | [] => exact absurd (congrArg String.toList (text_nary_nil op)) (text_ne_write hword)
    | [u] =>
      have hsame := text_nary_singleton fun hparen => nomatch hword _ hparen
      rw [hsame] at hword ⊢
      exact ih u List.mem_cons_self hword (value_nary_singleton h)
    | u :: v :: es => cases op <;> cases hword _ (symbol_mem_nary _ u v es)
  | call f primes u _ => cases hword _ (paren_mem_call f primes u)
  | element | derivative | derivativeAt => simp [value, FunctionValues.interpretation] at h
  | invalid | invalidPart => simp [value] at h

/-! ## Literals -/

theorem isNumeral_of_text (htext : e.text.toList = (Number.exact r).write.toList) {c : Char}
    (hc : c ∈ e.text.toList) : Number.isNumeral c = true :=
  Number.isNumeral_of_mem_write (htext ▸ hc)

theorem paren_notMem_of_text (htext : e.text.toList = (Number.exact r).write.toList) :
    '(' ∉ e.text.toList :=
  fun hmem => nomatch isNumeral_of_text htext hmem

/-- A constant with the text of a fraction has the value of the fraction. -/
theorem value_of_text_write (e : Expr) (hconstant : e.isConstant = true)
    (htext : e.text.toList = (Number.exact r).write.toList)
    (h : value F.interpretation e ρ = some q) : q = r := by
  induction e using Expr.induction generalizing q r with
  | number n =>
    cases n with
    | real v => cases h
    | exact s =>
      obtain rfl := Option.some.inj h
      exact Number.write_injective htext
  | var x =>
    exact absurd htext (text_ne_write (not_isMark_of_special hconstant))
  | unary op u ih =>
    obtain ⟨p, hu, hq⟩ := value_unary.1 h
    have hparen := paren_notMem_of_text htext
    have hplain : parenthesized (u.groupedLeft op.precedence) u.text = u.text :=
      parenthesized_of_notMem fun hmem => hparen (by simp [text, hmem])
    have hcons : (unary op u).text.toList = op.symbol :: u.text.toList := by
      simp [text, hplain]
    cases op with
    | plus => cases isNumeral_of_text htext (symbol_mem_unary _ u)
    | neg =>
      have hneg := Number.write_neg_of_cons (htext.symm.trans hcons)
      have hp : p = -r := ih hconstant hneg.symm hu
      rw [← Option.some.inj hq, hp, neg_neg]
    | recip =>
      have hslash : (Number.exact r).write.toList = [] ++ '/' :: u.text.toList :=
        htext.symm.trans hcons
      obtain ⟨hnil, -⟩ := Number.write_slash hslash
      exact absurd hnil (Number.write_ne_nil _)
  | binary op u v ihu ihv =>
    obtain ⟨hconstantu, hconstantv⟩ := (Bool.and_eq_true _ _).mp hconstant
    obtain ⟨a, hu, b, hv, hq⟩ := value_binary.1 h
    have hparen := paren_notMem_of_text htext
    have hplainu : parenthesized (u.groupedBase op) u.text = u.text :=
      parenthesized_of_notMem fun hmem => hparen (by simp [text, hmem])
    have hplainv : parenthesized (v.groupedRight op.precedence) v.text = v.text :=
      parenthesized_of_notMem fun hmem => hparen (by simp [text, hmem])
    have happend : (binary op u v).text.toList = u.text.toList ++ op.symbol :: v.text.toList := by
      simp [text, hplainu, hplainv]
    cases op with
    | sub =>
      have hnil := Number.eq_nil_of_write_sign (htext.symm.trans happend)
      exact absurd hnil (text_ne_nil u hconstantu hu)
    | div =>
      obtain ⟨hnum, hden⟩ := Number.write_slash (htext.symm.trans happend)
      obtain rfl := ihu hconstantu hnum.symm hu
      obtain rfl := ihv hconstantv hden.symm hv
      have hquotient : quotient r.num r.den = some q := hq
      rw [quotient, if_neg (by exact_mod_cast r.den_nz), Rat.num_div_den] at hquotient
      exact (Option.some.inj hquotient).symm
    | _ => cases isNumeral_of_text htext (symbol_mem_binary _ u v)
  | nary op es ih =>
    cases es with
    | nil =>
      rw [text_nary_nil] at htext
      obtain rfl := Number.write_injective htext
      obtain ⟨qs, hqs, rfl⟩ := value_nary.1 h
      cases hqs
      exact family_nil op
    | cons u es =>
      cases es with
      | nil =>
        have hu := isConstant_of_child hconstant List.mem_cons_self
        rw [text_nary_singleton (paren_notMem_of_text htext)] at htext
        exact ih u List.mem_cons_self hu htext (value_nary_singleton h)
      | cons v es => cases op <;> cases isNumeral_of_text htext (symbol_mem_nary _ u v es)
  | call f primes u _ => exact absurd (paren_mem_call f primes u) (paren_notMem_of_text htext)
  | derivative | derivativeAt => simp [value, FunctionValues.interpretation] at h
  | element | invalid | invalidPart => cases hconstant

end Expr

end Formulary
