import Formulary.Proofs.Expr.Traversal
import Formulary.Proofs.Reading.Invariant
import Formulary.Proofs.Reading.Stacks

/-!
# What is read is writable

A source text whose literals are small integers gives a writable expression, unless it gives one
with an issue. The names come from the tokenizer, and the names of functions are kept without
primes and in their canonical spelling.
-/

namespace Formulary

namespace Token

/-! ## The names of the tokenizer -/

theorem mem_take_run {test : Char → Bool} {cs : List Char} :
    ∀ c ∈ cs.take (run test cs), test c = true := by
  have htake : cs.take (run test cs) = cs.takeWhile test :=
    (List.prefix_iff_eq_take.1 (List.takeWhile_prefix test)).symm
  rw [htake]
  exact fun c hc => List.mem_takeWhile_imp hc

/-- A name has letters, digits, underscores and primes. -/
theorem IsName.isNamePart_or_prime {name : String} (h : IsName name) {c : Char}
    (hc : c ∈ name.toList) : isNamePart c = true ∨ c = Names.prime := by
  obtain ⟨first, rest, hchars, hfirst, hlength⟩ := h.chars
  rw [hchars, List.mem_cons, ← List.take_append_drop (run isNamePart rest) rest,
    List.mem_append] at hc
  rcases hc with rfl | hpart | hprime
  · exact .inl (by simp [isNamePart, Char.isAlphanum, hfirst])
  · exact .inl (mem_take_run c hpart)
  · have hprimes : run (· == '\x27') (rest.drop (run isNamePart rest)) =
        (rest.drop (run isNamePart rest)).length := by
      rw [List.length_drop, ← hlength, nameLength, Nat.add_sub_cancel_left]
    exact .inr (beq_iff_eq.1 (run_eq_length.1 hprimes c hprime))

/-- A name that was found in a text is a name on its own. -/
theorem nameLength_take (cs : List Char) :
    nameLength (cs.take (nameLength cs)) = nameLength cs := by
  let part := run isNamePart cs
  let rest := cs.drop part
  let primes := run (· == '\x27') rest
  have hpart : part ≤ cs.length := run_le isNamePart cs
  have hprimes : primes ≤ rest.length := run_le _ rest
  have hname : (cs.take part).length = part := by rw [List.length_take, Nat.min_eq_left hpart]
  have hrest : (rest.take primes).length = primes := by
    rw [List.length_take, Nat.min_eq_left hprimes]
  have hmark : ∀ c ∈ rest.take primes, (c == '\x27') = true := mem_take_run
  have hsplit : cs.take (part + primes) = cs.take part ++ rest.take primes := List.take_add
  have hrun : run isNamePart (cs.take part ++ rest.take primes) = part := by
    rw [run_append fun c hc => ?_, run_eq_length.2 mem_take_run, hname]
    obtain rfl := beq_iff_eq.1 (hmark c (List.mem_of_mem_head? hc))
    decide
  have hdrop : (cs.take part ++ rest.take primes).drop part = rest.take primes := by
    rw [List.drop_append_of_le_length hname.ge, List.drop_of_length_le hname.le, List.nil_append]
  change nameLength (cs.take (part + primes)) = part + primes
  rw [hsplit]
  simp only [nameLength, hrun, hdrop]
  rw [run_eq_length.2 hmark, hrest]

/-- The name tokens of a text are names. -/
theorem isName_of_scanFrom {t : Token} {start : Nat} {cs : List Char} (h : t ∈ scanFrom start cs)
    (ht : t.kind = .name) : IsName t.lexeme := by
  fun_induction scanFrom start cs with
  | case1 => cases h
  | case2 start c cs kind more hclass lexeme stop ih =>
    rcases List.mem_cons.1 h with rfl | h
    · have halpha : c.isAlpha = true := isAlpha_of_classify (by rw [hclass]; exact ht)
      rw [classify_of_isAlpha halpha] at hclass
      obtain ⟨-, rfl⟩ := Prod.ext_iff.1 hclass
      have hchars : lexeme.toList = c :: cs.take (nameLength cs) := by simp [lexeme]
      refine isName_of_chars hchars halpha ?_
      rw [nameLength_take, List.length_take, Nat.min_eq_left (nameLength_le cs)]
    · exact ih h

end Token

namespace Names

open Token

theorem base_append_primes (name : String) :
    name.toList = (base name).toList ++ List.replicate (primes name) prime := by
  have hall : name.toList.reverse.takeWhile (· == prime) =
      List.replicate (primes name) prime :=
    List.eq_replicate_iff.2
      ⟨rfl, fun c hc => beq_iff_eq.1 (List.mem_takeWhile_imp (p := (· == prime)) hc)⟩
  have hsplit := List.takeWhile_append_dropWhile (p := (· == prime)) (l := name.toList.reverse)
  rw [hall] at hsplit
  rw [base, String.toList_ofList, ← List.reverse_replicate, ← List.reverse_append, hsplit,
    List.reverse_reverse]

theorem primes_base (name : String) : primes (base name) = 0 := by
  have hstop := List.head?_dropWhile_not (· == prime) name.toList.reverse
  rw [primes, base, String.toList_ofList, List.reverse_reverse]
  cases h : name.toList.reverse.dropWhile (· == prime) with
  | nil => rfl
  | cons c cs =>
    rw [h] at hstop
    have hc : (c == prime) = false := hstop
    simp [hc]

theorem isName_base {name : String} (h : IsName name) : IsName (base name) := by
  obtain ⟨c, cs, hchars, halpha, hlength⟩ := h.chars
  have hsplit := base_append_primes name
  rw [hchars] at hsplit
  cases hbase : (base name).toList with
  | nil =>
    -- A name of primes alone would not start with a letter.
    rw [hbase, List.nil_append] at hsplit
    obtain ⟨-, rfl⟩ := List.mem_replicate.1 (hsplit ▸ List.mem_cons_self : c ∈ _)
    exact absurd halpha (by decide)
  | cons d ds =>
    rw [hbase, List.cons_append] at hsplit
    obtain ⟨rfl, rfl⟩ := List.cons.inj hsplit
    refine isName_of_chars hbase halpha ?_
    have hpart : run isNamePart (ds ++ List.replicate (primes name) prime) = run isNamePart ds := by
      refine run_append (fun e he => ?_) ds
      obtain ⟨-, rfl⟩ := List.mem_replicate.1 (List.mem_of_mem_head? he)
      decide
    have hle := run_le isNamePart ds
    simp only [nameLength, hpart, List.drop_append_of_le_length hle] at hlength
    have hall : run (· == '\x27') (ds.drop (run isNamePart ds) ++
        List.replicate (primes name) prime) = (ds.drop (run isNamePart ds) ++
          List.replicate (primes name) prime).length := by
      simp only [List.length_append, List.length_drop] at hlength ⊢
      omega
    have hrest : run (· == '\x27') (ds.drop (run isNamePart ds)) =
        (ds.drop (run isNamePart ds)).length :=
      run_eq_length.2 fun e he => run_eq_length.1 hall e (List.mem_append_left _ he)
    rw [nameLength, hrest, List.length_drop]
    omega

/-- The canonical spelling of a name that has no primes. -/
structure Canonical (name : String) : Prop where
  isName : IsName name
  noPrimes : primes name = 0
  canonical : canonical name = name

/-- The canonical name of a name is canonical, and `D` is the canonical name of no other name. -/
theorem canonical_of_isName {name : String} (hname : IsName name) (hprimes : primes name = 0) :
    Canonical (Names.canonical name) ∧ (Names.canonical name = "D" → name = "D") := by
  have other {spelling : String} {c : Char} {cs : List Char} (h : spelling.toList = c :: cs)
      (hc : c.isAlpha = true) (hcs : nameLength cs = cs.length) (hprimes : primes spelling = 0)
      (hcanonical : Names.canonical spelling = spelling) (hD : spelling ≠ "D") :
      Canonical spelling ∧ (spelling = "D" → name = "D") :=
    ⟨⟨isName_of_chars h hc hcs, hprimes, hcanonical⟩, fun h => absurd h hD⟩
  unfold Names.canonical
  split
  case h_8 hother =>
    refine ⟨⟨hname, hprimes, ?_⟩, id⟩
    unfold Names.canonical
    split <;> first | rfl | exact absurd rfl ‹_›
  all_goals exact other rfl rfl rfl (by decide) (by decide) (by decide)

end Names

namespace Expr

open Reading Token

theorem Writable.number_inv {signs elements : Bool} {e : Expr} (h : Writable signs elements e)
    {n : Number} (he : e = .number n) :
    ∃ k : Int, k.natAbs < literalBound ∧ n = .ofInt k := by
  cases h with
  | @number _ k small _ => exact ⟨k, small, (Expr.number.inj he).symm⟩
  | _ => cases he

/-- A call by a name of the tokenizer is kept in its canonical spelling. -/
theorem Writable.callNamed {elements : Bool} {name : String} {e : Expr} (hname : IsName name)
    (hD : name ≠ "D") (h : Writable true elements e) :
    Writable true elements (.callNamed name e) := by
  obtain ⟨hcanonical, hcanonicalD⟩ :=
    Names.canonical_of_isName (Names.isName_base hname) (Names.primes_base name)
  refine .call hcanonical.isName hcanonical.noPrimes hcanonical.canonical (fun h hprimes => ?_) h
  have hsplit := Names.base_append_primes name
  rw [hprimes, List.replicate_zero, List.append_nil, String.toList_inj] at hsplit
  exact hD (hsplit.trans (hcanonicalD h))

end Expr

namespace Reading

open Token Formulary.Expr

/-- The literal tokens of a text are whole numbers below the bound for literals. -/
def WholeLiterals (source : String) : Prop :=
  ∀ t ∈ scan source, t.kind = .number →
    IsWhole t.lexeme.toList ∧ Decimal.natOfDigits t.lexeme.toList < literalBound

instance (source : String) : Decidable (WholeLiterals source) :=
  inferInstanceAs (Decidable (∀ _ ∈ _, _))

/-- A name is one for the tokenizer, and a literal is a small whole number. -/
def Ordinary (t : Token) : Prop :=
  (t.kind = .name → IsName t.lexeme) ∧
    (t.kind = .number → IsWhole t.lexeme.toList ∧
      Decimal.natOfDigits t.lexeme.toList < literalBound)

/-- Where no name is bound, a name stands for itself. -/
theorem eq_lexeme {t : Token} {name : String} (h : name ∈ nameParts [] t.lexeme) :
    t.lexeme = name := by
  rw [nameParts_nil] at h
  exact (List.mem_singleton.1 h).symm

/-- The reader keeps expressions writable, until it finds an issue. -/
theorem kept_writable :
    Kept {} [] Ordinary fun b e => e.hasIssue = false → Writable true b e where
  invalid := by simp
  invalidPart := by simp
  number _ t ht hkind _ := by
    obtain ⟨hwhole, hsmall⟩ := ht.2 hkind
    rw [number_of_isWhole hwhole hsmall]
    exact .number (by simpa using hsmall) (by simp)
  negative _ h _ := by
    obtain ⟨k, hk, rfl⟩ := (h (by simp)).number_inv rfl
    rw [neg_ofInt hk]
    exact .number (k := -k) (by simpa using hk) (by simp)
  sign hplus h hissue := .unary rfl hplus (h (by simpa using hissue))
  binary op l r hl hr hissue := by
    rw [hasIssue_binary, Bool.or_eq_false_iff] at hissue
    exact .binary op (hl hissue.1) (hr hissue.2)
  var _ t name ht hkind hname _ := by
    obtain rfl := eq_lexeme hname
    exact .var (ht.1 hkind)
  absolute h hissue :=
    Writable.callNamed (isName_of_chars rfl rfl rfl) (by decide)
      (h (by simpa [Expr.callNamed] using hissue))
  call ht hkind hname hD h hissue := by
    obtain rfl := eq_lexeme hname
    exact Writable.callNamed (ht.1 hkind) hD (h (by simpa [Expr.callNamed] using hissue))
  element {t _ e} brackets ht hkind hname h hissue := by
    obtain rfl := eq_lexeme hname
    unfold Reading.element at hissue ⊢
    dsimp only at hissue ⊢
    split at hissue
    · simp at hissue
    · rename_i hfew
      refine .element (ht.1 hkind) (h (by simpa using hissue)) ?_
      cases hnames : e.dependencies with
      | nil => simp
      | cons x names =>
        cases names with
        | nil => simp
        | cons y names => exact absurd hnames (hfew x y names)
  openElement := by simp
  byX h hissue := .derivative (isName_of_chars rfl rfl rfl) (h (by simpa using hissue))
  byXAt h hpoint hissue := by
    rw [hasIssue_derivativeAt, Bool.or_eq_false_iff] at hissue
    exact .derivativeAt (isName_of_chars rfl rfl rfl) (h hissue.1) (hpoint hissue.2)
  derivative ht hkind h hissue := .derivative (ht.1 hkind) (h (by simpa using hissue))
  derivativeAt ht hkind h hpoint hissue := by
    rw [hasIssue_derivativeAt, Bool.or_eq_false_iff] at hissue
    exact .derivativeAt (ht.1 hkind) (h hissue.1) (hpoint hissue.2)

/-- What is read from a text with whole literals can be written, unless it has an issue. -/
theorem writable_ofText {source : String} (hliterals : WholeLiterals source)
    (hissue : (Expr.ofText source).hasIssue = false) :
    Writable true true (Expr.ofText source) := by
  refine group_kept kept_writable _ _ true (fun t ht => ⟨⟨?_, ?_⟩, by simp⟩) hissue
  · exact isName_of_scanFrom (List.mem_filter.1 ht).1
  · exact hliterals t (List.mem_filter.1 ht).1

end Reading

end Formulary
