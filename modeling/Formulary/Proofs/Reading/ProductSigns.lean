import Formulary.Proofs.Reading.Products
import Formulary.Proofs.Reading.Resumption

/-!
# Writing the product signs

`withProducts` writes a product sign into a text wherever two operands stand side by side. The
tokenizer finds the same tokens again, with the signs between them (`filled_withProducts`): a sign
ends every token it is put behind, and where none is put, the next token starts as it did.
-/

namespace Formulary.Reading

open Token

variable {start start' : Nat} {cs rest : List Char} {ts ts' : List Token} {t t' u : Token}

/-- The tokens that are read: all of them but the blanks. -/
def visible (ts : List Token) : List Token := ts.filter (·.kind != .blank)

theorem visible_blank (ht : t.kind = .blank) (ts : List Token) : visible (t :: ts) = visible ts :=
  List.filter_cons_of_neg (by simp [ht])

theorem visible_cons (ht : t.kind ≠ .blank) (ts : List Token) :
    visible (t :: ts) = t :: visible ts :=
  List.filter_cons_of_pos (by simpa using ht)

/-- An operand ends with the token and the next one begins behind it, maybe after a blank. -/
def LacksSign (t : Token) (ts : List Token) : Prop := ∃ u ∈ (visible ts).head?, Meet t u

instance (t : Token) (ts : List Token) : Decidable (LacksSign t ts) :=
  decidable_of_iff ((visible ts).head?.any fun u => decide (Meet t u)) (by
    simp [LacksSign, Option.any_eq_true])

/-- The text of the tokens with a product sign behind each operand that has none. -/
def writeProducts : List Token → List Char
  | [] => []
  | t :: ts =>
    t.lexeme.toList ++ if LacksSign t ts then '*' :: writeProducts ts else writeProducts ts

/-- The text with all product signs. -/
def withProducts (source : String) : String := String.ofList (writeProducts (scan source))

/-- The text starts as it did. -/
theorem head?_writeProducts (start : Nat) (cs : List Char) :
    (writeProducts (scanFrom start cs)).head? = cs.head? := by
  cases cs with
  | nil => rw [scanFrom, writeProducts]
  | cons c cs =>
    rw [scanFrom, writeProducts, String.toList_ofList, List.cons_append]
    rfl

/-- Every token starts behind the one before it. -/
theorem lt_start_of_mem {c : Char} {more stop : Nat} (hu : u ∈ scanFrom stop cs)
    (hstop : stop = start + (String.ofList (c :: rest.take more)).utf8ByteSize) :
    start < u.span.start := by
  obtain ⟨before, _, _, hstart, _, _⟩ := longestMatch_scanFrom stop cs u hu
  have hpos := size_cons_pos c (rest.take more)
  omega

/-- The tokens that are read are the same with all product signs written, and the first one of them
starts right away, or behind a blank, in both. -/
structure Rewritten (start start' : Nat) (ts ts' : List Token) : Prop where
  filled : Filled none (visible ts) (visible ts')
  near : ∀ u ∈ (visible ts).head?, ∀ u' ∈ (visible ts').head?,
    (u'.span.start = start' ↔ u.span.start = start)

/-- A blank stays where it is. -/
theorem Rewritten.blank (h : Rewritten t.span.stop t'.span.stop ts ts') (ht : t.kind = .blank)
    (ht' : t'.kind = .blank) (hlt : ∀ u ∈ ts, start < u.span.start)
    (hlt' : ∀ u ∈ ts', start' < u.span.start) : Rewritten start start' (t :: ts) (t' :: ts') := by
  have hlater {ts : List Token} {n : Nat} (hlt : ∀ u ∈ ts, n < u.span.start) :
      ∀ u ∈ (visible ts).head?, u.span.start ≠ n := by
    intro u hu
    exact Nat.ne_of_gt (hlt u (List.mem_of_mem_filter (List.mem_of_mem_head? hu)))
  constructor
  · rw [visible_blank ht, visible_blank ht']
    exact h.filled
  · rw [visible_blank ht, visible_blank ht']
    exact fun u hu u' hu' => iff_of_false (hlater hlt' u' hu') (hlater hlt u hu)

/-- A token that is read stays as it is. -/
theorem Filled.rewritten (h : Filled (some (t, t')) (visible ts) (visible ts')) (alike : Alike t t')
    (ht : t.kind ≠ .blank) (hstart : t.span.start = start) (hstart' : t'.span.start = start') :
    Rewritten start start' (t :: ts) (t' :: ts') := by
  constructor
  · rw [visible_cons ht, visible_cons (by rwa [alike.kind])]
    exact .keep (by simp) (by simp) alike h
  · rw [visible_cons ht, visible_cons (by rwa [alike.kind])]
    rintro _ ⟨⟩ _ ⟨⟩
    exact iff_of_true hstart' hstart

/-- A token that lacks no sign in front of it is kept as it is. -/
theorem Rewritten.keep (h : Rewritten t.span.stop t'.span.stop ts ts') (hlacks : ¬ LacksSign t ts) :
    Filled (some (t, t')) (visible ts) (visible ts') := by
  obtain ⟨hfilled, hnear⟩ := h
  rw [LacksSign] at hlacks
  generalize visible ts = us at hfilled hnear hlacks ⊢
  generalize visible ts' = us' at hfilled hnear ⊢
  cases hfilled with
  | nil => exact .nil
  | keep _ _ alike rest =>
    refine .keep ?_ ?_ alike rest
    · rintro _ ⟨⟩ hmeet
      exact hlacks ⟨_, rfl, hmeet⟩
    · rintro _ ⟨⟩ _
      exact hnear _ rfl _ rfl

/-- A token that lacks its sign comes after the sign that is filled in. -/
theorem Rewritten.product {sign : Token} (h : Rewritten start start' ts ts')
    (hlacks : LacksSign t ts) (times : sign.kind = .operator .mul) :
    Filled (some (t, t')) (visible ts) (sign :: visible ts') := by
  obtain ⟨hfilled, -⟩ := h
  obtain ⟨u, hu, hmeet⟩ := hlacks
  generalize visible ts = us at hfilled hu ⊢
  generalize visible ts' = us' at hfilled ⊢
  cases hfilled with
  | nil => cases hu
  | keep _ _ alike rest =>
    cases hu
    exact .product hmeet times alike rest

/-- What is written behind a token does not go on with it. An `e` that starts a name stands behind a
number only with a product sign in between. -/
theorem resumes_writeProducts (t : Token) (start : Nat) (cs : List Char) :
    Resumes (fun d => t.kind = .number → d ≠ 'e') cs
      (if LacksSign t (scanFrom start cs) then '*' :: writeProducts (scanFrom start cs)
        else writeProducts (scanFrom start cs)) := by
  intro c hc
  split at hc
  · cases hc
    exact .inl rfl
  · rename_i hlacks
    rw [head?_writeProducts] at hc
    refine .inr ⟨hc, ?_⟩
    rintro hnumber rfl
    obtain ⟨cs, rfl⟩ := List.head?_eq_some_iff.1 hc
    refine hlacks ?_
    rw [scanFrom_of_classify (classify_of_isAlpha rfl cs), LacksSign, visible_cons (by simp)]
    refine ⟨_, rfl, ?_, rfl, ?_⟩
    · rw [hnumber]
      rfl
    · simp [hnumber]

/-- The tokens of the text with all signs are those of the text, and the signs. -/
theorem rewritten_scanFrom (start start' : Nat) (cs : List Char) :
    Rewritten start start' (scanFrom start cs)
      (scanFrom start' (writeProducts (scanFrom start cs))) := by
  fun_induction scanFrom start cs generalizing start' with
  | case1 start =>
    rw [writeProducts, scanFrom]
    exact ⟨.nil, by simp [visible]⟩
  | case2 start c cs kind more hclass lexeme stop ih =>
    have hrest := resumes_writeProducts ⟨kind, ⟨start, stop⟩, lexeme⟩ stop (cs.drop more)
    rw [writeProducts, String.toList_ofList, scanFrom_rest hclass hrest]
    by_cases hblank : kind = .blank
    · subst hblank
      have hlacks : ¬ LacksSign ⟨.blank, ⟨start, stop⟩, lexeme⟩ (scanFrom stop (cs.drop more)) := by
        rintro ⟨_, -, hmeet⟩
        exact not_meet_of_ends rfl hmeet
      rw [if_neg hlacks]
      refine Rewritten.blank (ih _) ?_ ?_ ?_ ?_
      · rfl
      · rfl
      · exact fun _ hu => lt_start_of_mem hu rfl
      · exact fun _ hu => lt_start_of_mem hu rfl
    · refine Filled.rewritten ?_ ⟨rfl, rfl⟩ hblank rfl rfl
      split
      · rename_i hlacks
        have hsign : classify '*' (writeProducts (scanFrom stop (cs.drop more))) =
          (.operator .mul, 0) := rfl
        rw [scanFrom_of_classify hsign, visible_cons (by simp)]
        exact (ih _).product hlacks rfl
      · rename_i hlacks
        exact (ih _).keep hlacks

/-- The tokens of the text with all product signs are the tokens of the text, with the signs. -/
theorem filled_withProducts (source : String) :
    Filled none (tokensOf source) (tokensOf (withProducts source)) := by
  have h := (rewritten_scanFrom 0 0 source.toList).filled
  rwa [← String.toList_ofList (l := writeProducts _)] at h

/-- Implicit products mean the same as written ones. A text with balanced parentheses that is read
without an issue is read as the same expression when a product sign is written wherever two operands
stand side by side, as long as nothing else changes but the places of the tokens. -/
theorem read_withProducts {settings : Settings} {scope : Scope} {source : String}
    (hbalanced : openAfter 0 (tokensOf source) = some 0)
    (hissue : (read settings scope source).hasIssue = false) :
    read settings scope (withProducts source) = read settings scope source ∧
      Filled none (tokensOf source) (tokensOf (withProducts source)) ∧
      ∀ source', Filled none (tokensOf source) (tokensOf source') →
        read settings scope source' = read settings scope source := by
  have hsame (source' : String) (h : Filled none (tokensOf source) (tokensOf source')) :
      read settings scope source' = read settings scope source :=
    (group_products settings scope _ _ hissue (by rw [← tokensOf, hbalanced]; rfl)).2 _ _ h
  exact ⟨hsame _ (filled_withProducts source), filled_withProducts source, hsame⟩

/-- Signs are written behind a closing parenthesis, an exponent, a subscript and inside arguments,
but neither in front of an argument nor inside a name that is the product of two. -/
theorem read_withProducts_nested :
    let source := "-2 (x+1)^2y'e-3xy^2 sin(x)a[n 2]/D(x 4, x, 2y)"
    let product := "-2* (x+1)^2*y'*e-3*xy^2* sin(x)*a[n* 2]/D(x* 4, x, 2*y)"
    openAfter 0 (tokensOf source) = some 0 ∧ (read {} ["x", "y"] source).hasIssue = false ∧
      withProducts source = product ∧
        read {} ["x", "y"] product = read {} ["x", "y"] source := by
  intro source product
  have hbalanced : openAfter 0 (tokensOf source) = some 0 := by decide +kernel
  have hissue : (read {} ["x", "y"] source).hasIssue = false := by decide +kernel
  have hproduct : withProducts source = product := by decide +kernel
  refine ⟨hbalanced, hissue, hproduct, ?_⟩
  rw [← hproduct]
  exact (read_withProducts hbalanced hissue).1

end Formulary.Reading
