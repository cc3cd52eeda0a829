import Formulary.Proofs.Reading.LongestMatch

/-!
# Another rest of the text

The tokenizer looks at the rest of the text to see where a token ends. It does not look far: another
rest that starts with the same character, or with a product sign, ends the token at the same place
(`classify_stable`). The one exception is an `e` behind a number, which starts an exponent or a
name.
-/

namespace Formulary.Token

variable {ok : Char → Prop} {test : Char → Bool} {count : List Char → Nat} {c : Char}
  {cs rest rest' : List Char}

/-- A text that starts with a product sign, or like the rest that it stands for, and then with a
character that passes. -/
def Resumes (ok : Char → Prop) (rest rest' : List Char) : Prop :=
  ∀ c ∈ rest'.head?, c = '*' ∨ c ∈ rest.head? ∧ ok c

/-- What is counted at the front of a text is counted again if another rest follows it. -/
structure Stable (ok : Char → Prop) (count : List Char → Nat) : Prop where
  le (cs : List Char) : count cs ≤ cs.length
  again (cs rest : List Char) : Resumes ok (cs.drop (count cs)) rest →
    count (cs.take (count cs) ++ rest) = count cs

theorem Resumes.mono {ok' : Char → Prop} (h : Resumes ok rest rest') (hok : ∀ c, ok c → ok' c) :
    Resumes ok' rest rest' := fun c hc => (h c hc).imp_right fun hrest => ⟨hrest.1, hok c hrest.2⟩

/-- What is left in front of another rest is another rest, too. -/
theorem Resumes.take {n : Nat} (h : Resumes ok (cs.drop n) rest) :
    Resumes (fun _ => True) cs (cs.take n ++ rest) := by
  cases n with
  | zero => exact h.mono fun _ _ => trivial
  | succ n =>
    cases cs with
    | nil => exact h.mono fun _ _ => trivial
    | cons c cs => exact fun d hd => .inr ⟨hd, trivial⟩

/-! ## Runs -/

theorem run_eq_zero (h : ∀ c ∈ cs.head?, test c = false) : run test cs = 0 := by
  cases cs with
  | nil => rfl
  | cons c cs => exact run_cons_of_neg (h c rfl)

/-- No run of characters starts where none started before. -/
theorem Resumes.run_eq_zero (h : Resumes ok rest rest') (hstar : test '*' = false)
    (hrest : ∀ c ∈ rest.head?, test c = false) : run test rest' = 0 := by
  refine Token.run_eq_zero fun c hc => ?_
  obtain rfl | ⟨hc, -⟩ := h c hc
  · exact hstar
  · exact hrest c hc

theorem stable_run (hstar : test '*' = false) : Stable ok (run test) := by
  refine ⟨run_le test, fun cs rest h => ?_⟩
  induction cs with
  | nil => exact h.run_eq_zero hstar (by simp)
  | cons c cs ih =>
    cases hc : test c with
    | false =>
      rw [run_cons_of_neg hc] at h ⊢
      refine h.run_eq_zero hstar ?_
      rintro _ ⟨⟩
      exact hc
    | true =>
      rw [run_cons_of_pos hc] at h ⊢
      rw [List.take_succ_cons, List.cons_append, run_cons_of_pos hc, ih h]

/-- What is counted behind a run of characters is counted again together with the run. -/
theorem Stable.after_run (h : Stable ok count) (hstar : test '*' = false) :
    Stable ok fun cs => run test cs + count (cs.drop (run test cs)) := by
  constructor
  · intro cs
    have hrun := run_le test cs
    have hcount := h.le (cs.drop (run test cs))
    rw [List.length_drop] at hcount
    omega
  · intro cs rest hrest
    rw [← List.drop_drop] at hrest
    have hrun := (stable_run hstar).again cs _ hrest.take
    rw [List.take_add, List.append_assoc, hrun,
      List.drop_left' (List.length_take_of_le (run_le _ _)), h.again _ _ hrest]

theorem stable_nameLength : Stable ok nameLength := (stable_run rfl).after_run rfl

/-! ## Numbers -/

/-- A rest that goes on without an `e` has no exponent in front. -/
theorem Resumes.exponentLength (h : Resumes (· ≠ 'e') rest rest') : exponentLength rest' = 0 := by
  have hhead : ∀ c ∈ rest'.head?, c ≠ 'e' := by
    intro c hc
    obtain rfl | ⟨-, he⟩ := h c hc
    · decide
    · exact he
  unfold Token.exponentLength
  split
  · exact absurd rfl (hhead _ rfl)
  · exact absurd rfl (hhead _ rfl)
  · rfl

/-- A run that is not empty begins with a character that passes the test. -/
theorem head?_take_run_append (hrun : run test cs ≠ 0) (rest : List Char) :
    ∀ c ∈ (cs.take (run test cs) ++ rest).head?, test c = true := by
  cases cs with
  | nil => exact absurd rfl hrun
  | cons d cs =>
    cases hd : test d with
    | false => exact absurd (run_cons_of_neg hd) hrun
    | true =>
      rw [run_cons_of_pos hd]
      rintro _ ⟨⟩
      exact hd

theorem exponentLength_le (cs : List Char) : exponentLength cs ≤ cs.length := by
  unfold exponentLength
  split
  · rename_i cs
    have hrun := run_le Char.isDigit cs
    split
    · exact Nat.zero_le _
    · simp only [List.length_cons]
      omega
  · rename_i cs _
    have hrun := run_le Char.isDigit cs
    split
    · exact Nat.zero_le _
    · simp only [List.length_cons]
      omega
  · exact Nat.zero_le _

/-- An exponent is counted again if no `e` follows. -/
theorem stable_exponentLength : Stable (· ≠ 'e') exponentLength := by
  refine ⟨exponentLength_le, fun cs rest h => ?_⟩
  -- Where there is an exponent, it has digits, and these are counted again.
  have hdigits {cs : List Char} (h : Resumes (· ≠ 'e') (cs.drop (run Char.isDigit cs)) rest) :
      run Char.isDigit (cs.take (run Char.isDigit cs) ++ rest) = run Char.isDigit cs :=
    (stable_run rfl).again cs rest h
  fun_cases Token.exponentLength cs with
  | case1 cs hrun =>
    rw [Token.exponentLength, if_pos hrun] at h
    exact h.exponentLength
  | case2 cs hrun =>
    rw [Token.exponentLength, if_neg hrun] at h
    rw [Nat.add_comm] at h ⊢
    rw [List.take_succ_cons, List.take_succ_cons, List.cons_append, List.cons_append,
      Token.exponentLength, hdigits h, if_neg hrun, Nat.add_comm]
  | case3 cs hsign hrun =>
    rw [Token.exponentLength, if_pos hrun] at h
    · exact h.exponentLength
    · exact hsign
  | case4 cs hsign hrun =>
    rw [Token.exponentLength, if_neg hrun] at h
    · rw [Nat.add_comm] at h ⊢
      rw [List.take_succ_cons, List.cons_append, Token.exponentLength, hdigits h, if_neg hrun,
        Nat.add_comm]
      intro ds heq
      have hfirst := head?_take_run_append hrun rest '-' (by rw [heq]; rfl)
      cases hfirst
    · exact hsign
  | case5 cs hminus he =>
    rw [Token.exponentLength] at h
    · exact h.exponentLength
    · exact hminus
    · exact he

theorem stable_digitsLength : Stable (· ≠ 'e') digitsLength := stable_exponentLength.after_run rfl

theorem fractionLength_point (cs : List Char) :
    fractionLength ('.' :: cs) = digitsLength cs + 1 := by
  rw [fractionLength, digitsLength]
  omega

theorem fractionLength_of_head (h : ∀ c ∈ cs.head?, c ≠ '.') :
    fractionLength cs = exponentLength cs := by
  unfold fractionLength
  split
  · exact absurd rfl (h _ rfl)
  · rfl

/-- A fraction is counted again if no `e` follows. -/
theorem stable_fractionLength : Stable (· ≠ 'e') fractionLength := by
  constructor
  · intro cs
    unfold fractionLength
    split
    · rename_i cs
      have hdigits := stable_digitsLength.le cs
      unfold digitsLength at hdigits
      simp only [List.length_cons]
      omega
    · exact exponentLength_le _
  · intro cs rest h
    by_cases hpoint : ∀ c ∈ cs.head?, c ≠ '.'
    · rw [fractionLength_of_head hpoint] at h ⊢
      rw [fractionLength_of_head, stable_exponentLength.again cs rest h]
      intro c hc
      obtain rfl | ⟨hcs, -⟩ := h.take c hc
      · decide
      · exact hpoint c hcs
    · push Not at hpoint
      obtain ⟨_, hc, rfl⟩ := hpoint
      obtain ⟨cs, rfl⟩ := List.head?_eq_some_iff.1 hc
      rw [fractionLength_point] at h ⊢
      rw [List.take_succ_cons, List.cons_append, fractionLength_point,
        stable_digitsLength.again cs rest h]

theorem stable_numberLength : Stable (· ≠ 'e') numberLength := stable_fractionLength.after_run rfl

/-! ## The first token -/

theorem classify_blank (h : isBlank c = true) (cs : List Char) :
    classify c cs = (.blank, run isBlank cs) := if_pos h

theorem classify_point_symbol (h : ∀ c ∈ cs.head?, c.isDigit = false) :
    classify '.' cs = (.symbol, 0) := by
  cases cs with
  | nil => rfl
  | cons c cs =>
    rw [classify_point, h c rfl]
    rfl

/-- The first token is found again if another rest of the text follows it. Only a number goes on
with some `e` and not with others. -/
theorem classify_stable (c : Char) (cs : List Char) : (classify c cs).2 ≤ cs.length ∧
    ∀ rest, Resumes (fun d => (classify c cs).1 = .number → d ≠ 'e')
        (cs.drop (classify c cs).2) rest →
      classify c (cs.take (classify c cs).2 ++ rest) = classify c cs := by
  by_cases hblank : isBlank c = true
  · rw [classify_blank hblank]
    refine ⟨run_le _ _, fun rest h => ?_⟩
    rw [classify_blank hblank, (stable_run rfl).again cs rest h]
  by_cases halpha : c.isAlpha = true
  · rw [classify_of_isAlpha halpha]
    refine ⟨nameLength_le _, fun rest h => ?_⟩
    rw [classify_of_isAlpha halpha, stable_nameLength.again cs rest h]
  by_cases hdigit : c.isDigit = true
  · rw [classify_of_isDigit hdigit]
    refine ⟨stable_numberLength.le _, fun rest h => ?_⟩
    rw [classify_of_isDigit hdigit, stable_numberLength.again cs rest (h.mono fun _ hd => hd rfl)]
  by_cases hpoint : c = '.'
  · subst hpoint
    by_cases hsymbol : ∀ c ∈ cs.head?, c.isDigit = false
    · rw [classify_point_symbol hsymbol]
      refine ⟨Nat.zero_le _, fun rest h => classify_point_symbol fun c hc => ?_⟩
      obtain rfl | ⟨hcs, -⟩ := h c hc
      · rfl
      · exact hsymbol c hcs
    · push Not at hsymbol
      obtain ⟨d, hd, hdigits⟩ := hsymbol
      obtain ⟨cs, rfl⟩ := List.head?_eq_some_iff.1 hd
      rw [Bool.ne_false_iff] at hdigits
      rw [classify_point, if_pos hdigits]
      refine ⟨Nat.succ_le_succ (stable_digitsLength.le _), fun rest h => ?_⟩
      rw [List.take_succ_cons, List.cons_append, classify_point, if_pos hdigits,
        stable_digitsLength.again cs rest (h.mono fun _ hd => hd rfl)]
  · simp [classify, hblank, halpha, hdigit, hpoint]

/-- The same token is taken off the front of the text, and then the other rest is cut. -/
theorem scanFrom_rest {kind : TokenKind} {more : Nat} (hclass : classify c cs = (kind, more))
    (h : Resumes (fun d => kind = .number → d ≠ 'e') (cs.drop more) rest) (start : Nat) :
    scanFrom start (c :: cs.take more ++ rest) =
      ⟨kind, ⟨start, start + (String.ofList (c :: cs.take more)).utf8ByteSize⟩,
        String.ofList (c :: cs.take more)⟩ ::
      scanFrom (start + (String.ofList (c :: cs.take more)).utf8ByteSize) rest := by
  obtain ⟨hle, hagain⟩ := classify_stable c cs
  rw [hclass] at hle hagain
  have hlength : (cs.take more).length = more := List.length_take_of_le hle
  rw [List.cons_append, scanFrom_of_classify (hagain rest h), List.take_left' hlength,
    List.drop_left' hlength]

end Formulary.Token
