import Formulary.Proofs.Reading.Lexemes
import Mathlib.Computability.Language

/-!
# Longest matches

The kinds of tokens are given by patterns, regular languages over the characters. A text is cut by
taking, again and again, the longest prefix that any pattern matches (`LongestMatch`). The pattern
of a symbol matches every character except the end of a line and gives way to the other patterns.

The tokenizer counts characters instead: `Counts` says that a count finds the longest prefix in a
language. Such a language has the empty text, so what has been counted is never given back, and a
count goes on after a run of characters (`Counts.after_run`). An exponent without digits counts for
nothing, and a point that starts a number is the one place where digits are looked for before they
are counted (`classify_point`).
-/

namespace Formulary

open scoped Computability

namespace Token

/-! ## Patterns -/

/-- The texts of a single character that passes a test. -/
def one (test : Char → Bool) : Language Char := {w | ∃ c, test c = true ∧ w = [c]}

/-- The texts of characters that pass a test, of which there is at least one. -/
def many (test : Char → Bool) : Language Char := one test * (one test)∗

/-- An exponent, or none: an `e`, an optional minus sign and digits. -/
def exponent : Language Char :=
  one (· == 'e') * (one (· == '-') + 1) * many Char.isDigit + 1

end Token

namespace TokenKind

open Token

/-- The texts that the pattern of a kind of tokens matches. -/
def pattern : TokenKind → Language Char
  | .blank => many isBlank
  | .operator op => one (· == op.symbol)
  | .bar => one (· == '|')
  | .name => one Char.isAlpha * (one isNamePart)∗ * (one (· == '\x27'))∗
  | .number =>
    many Char.isDigit * (one (· == '.') + 1) * (one Char.isDigit)∗ * exponent +
      one (· == '.') * many Char.isDigit * exponent
  | .comma => one (· == ',')
  | .openParen => one (· == '(')
  | .closeParen => one (· == ')')
  | .openBracket => one (· == '[')
  | .closeBracket => one (· == ']')
  | .symbol => one (· != '\n')

end TokenKind

namespace Token

/-- A lexeme that is taken off the front of a text: no pattern matches a longer prefix, and apart
from the pattern of a symbol only the one of the kind matches the lexeme. A symbol is a single
character, taken where no other pattern matches. -/
structure LongestMatch (kind : TokenKind) (lexeme text : List Char) : Prop where
  fits : lexeme ∈ kind.pattern
  longest : ∀ other, ∀ w ∈ TokenKind.pattern other, w <+: text → w.length ≤ lexeme.length
  only : ∀ other ≠ .symbol, lexeme ∈ TokenKind.pattern other → other = kind
  symbol : kind = .symbol → lexeme.length = 1 ∧
    ∀ other ≠ .symbol, ∀ w ∈ TokenKind.pattern other, ¬ w <+: text

/-- The spans follow one another from one offset to another, and none of them is empty. -/
def Tiles (start stop : Nat) : List Token → Prop
  | [] => start = stop
  | t :: ts => t.span.start = start ∧ start < t.span.stop ∧ Tiles t.span.stop stop ts

section

variable {test : Char → Bool} {c : Char} {w cs : List Char} {l : Language Char}
  {count : List Char → Nat}

/-- A word of one character and a rest begins with a character that passes the test. -/
theorem cons_mem_one_mul : c :: w ∈ one test * l ↔ test c = true ∧ w ∈ l := by
  rw [Language.mem_mul]
  constructor
  · rintro ⟨_, ⟨d, hd, rfl⟩, v, hv, heq⟩
    obtain ⟨rfl, rfl⟩ := List.cons.inj heq
    exact ⟨hd, hv⟩
  · rintro ⟨hc, hw⟩
    exact ⟨[c], ⟨c, hc, rfl⟩, w, hw, rfl⟩

theorem nil_not_mem_one_mul : [] ∉ one test * l := by
  rw [Language.mem_mul]
  rintro ⟨_, ⟨c, -, rfl⟩, v, -, heq⟩
  cases heq

theorem cons_mem_one : c :: w ∈ one test ↔ test c = true ∧ w = [] := by
  rw [← mul_one (one test), cons_mem_one_mul, Language.mem_one]

theorem nil_not_mem_one : [] ∉ one test := by
  rw [← mul_one (one test)]
  exact nil_not_mem_one_mul

/-- A text in a repetition before a language is in the language, or starts with a character of the
repetition. -/
theorem mem_kstar_mul : w ∈ (one test)∗ * l ↔ w ∈ l ∨ w ∈ one test * ((one test)∗ * l) := by
  rw [← mul_assoc, ← Language.mem_add]
  nth_rewrite 1 [← one_add_mul_kstar]
  rw [add_mul, one_mul]

/-! ## Counting -/

/-- The count finds the longest prefix of a text that is in the language. -/
structure Counts (l : Language Char) (count : List Char → Nat) : Prop where
  mem (cs : List Char) : cs.take (count cs) ∈ l
  le (cs w : List Char) : w ∈ l → w <+: cs → w.length ≤ count cs

theorem Counts.cons_mem (h : Counts l count) (hc : test c = true) :
    c :: cs.take (count cs) ∈ one test * l :=
  cons_mem_one_mul.2 ⟨hc, h.mem cs⟩

theorem Counts.le_of_cons (h : Counts l count) (hw : c :: w ∈ one test * l) (hstart : w <+: cs) :
    w.length ≤ count cs :=
  h.le cs w (cons_mem_one_mul.1 hw).2 hstart

theorem run_cons_of_pos (hc : test c = true) : run test (c :: cs) = run test cs + 1 := by
  simp [run, hc]

theorem run_cons_of_neg (hc : test c = false) : run test (c :: cs) = 0 := by
  simp [run, hc]

/-- A run of characters is counted before what cannot start with one of them. -/
theorem Counts.after_run (h : Counts l count) (hhead : ∀ c w, c :: w ∈ l → test c = false) :
    Counts ((one test)∗ * l) fun cs => run test cs + count (cs.drop (run test cs)) := by
  constructor
  · intro cs
    induction cs with
    | nil =>
      rw [List.take_nil]
      exact mem_kstar_mul.2 (.inl (by simpa using h.mem []))
    | cons c cs ih =>
      rw [mem_kstar_mul]
      cases hc : test c with
      | false =>
        rw [run_cons_of_neg hc, Nat.zero_add]
        exact .inl (h.mem (c :: cs))
      | true =>
        rw [run_cons_of_pos hc, List.drop_succ_cons, Nat.add_right_comm, List.take_succ_cons]
        exact .inr (cons_mem_one_mul.2 ⟨hc, ih⟩)
  · intro cs w hw hstart
    induction cs generalizing w with
    | nil =>
      rw [List.prefix_nil.1 hstart]
      exact Nat.zero_le _
    | cons c cs ih =>
      cases w with
      | nil => exact Nat.zero_le _
      | cons d w =>
        obtain ⟨rfl, hstart'⟩ := List.cons_prefix_cons.1 hstart
        rw [mem_kstar_mul, cons_mem_one_mul] at hw
        rcases hw with hw | ⟨hd, hw⟩
        · rw [run_cons_of_neg (hhead d w hw), Nat.zero_add]
          exact h.le (d :: cs) (d :: w) hw hstart
        · have hlength := ih w hw hstart'
          rw [run_cons_of_pos hd, List.drop_succ_cons, List.length_cons]
          omega

theorem counts_kstar (test : Char → Bool) : Counts (one test)∗ (run test) := by
  have hnone : Counts 1 fun _ => 0 :=
    ⟨fun cs => rfl, fun cs w hw _ => by rw [(Language.mem_one w).1 hw]; exact Nat.le_refl _⟩
  have hruns : Counts ((one test)∗ * 1) (run test) := by
    refine hnone.after_run fun c w hw => ?_
    cases hw
  rwa [mul_one] at hruns

theorem counts_name :
    Counts ((one isNamePart)∗ * (one (· == '\x27'))∗) nameLength := by
  refine (counts_kstar _).after_run fun c w hw => ?_
  rw [← one_add_mul_kstar, Language.mem_add, cons_mem_one_mul, beq_iff_eq] at hw
  rcases hw with hw | ⟨rfl, -⟩
  · cases hw
  · rfl

/-- A run that is not empty consists of at least one character. -/
theorem take_run_mem_many (h : run test cs ≠ 0) : cs.take (run test cs) ∈ many test := by
  cases cs with
  | nil => exact absurd rfl h
  | cons c cs =>
    cases hc : test c with
    | false => exact absurd (run_cons_of_neg hc) h
    | true =>
      rw [run_cons_of_pos hc, List.take_succ_cons]
      exact (counts_kstar test).cons_mem hc

theorem length_le_of_mem_many (hw : w ∈ many test) (hstart : w <+: cs) :
    w.length ≤ run test cs ∧ run test cs ≠ 0 := by
  cases w with
  | nil => exact absurd hw nil_not_mem_one_mul
  | cons c w =>
    obtain ⟨rest, rfl⟩ := hstart
    have hc := (cons_mem_one_mul.1 hw).1
    have hlength := (counts_kstar test).le_of_cons hw (List.prefix_append w rest)
    rw [List.cons_append, run_cons_of_pos hc, List.length_cons]
    omega

/-! ## Numbers -/

/-- An exponent is an `e`, a minus sign if there is one, and digits. -/
theorem cons_mem_exponent : c :: w ∈ exponent ↔
    c = 'e' ∧ ((∃ v, w = '-' :: v ∧ v ∈ many Char.isDigit) ∨ w ∈ many Char.isDigit) := by
  have hsign : w ∈ one (· == '-') * many Char.isDigit ↔
      ∃ v, w = '-' :: v ∧ v ∈ many Char.isDigit := by
    cases w with
    | nil => simp [nil_not_mem_one_mul]
    | cons d w => simp [cons_mem_one_mul]
  rw [exponent, Language.mem_add, mul_assoc, cons_mem_one_mul, add_mul, one_mul, Language.mem_add,
    hsign, beq_iff_eq, Language.mem_one]
  simp

theorem nil_mem_exponent : [] ∈ exponent := .inr rfl

/-- The length of an exponent is that of the longest one, or zero. -/
theorem counts_exponent : Counts exponent exponentLength := by
  constructor
  · intro cs
    unfold exponentLength
    split
    · split
      · exact nil_mem_exponent
      · rename_i cs hrun
        rw [Nat.add_comm, List.take_succ_cons, List.take_succ_cons]
        exact cons_mem_exponent.2 ⟨rfl, .inl ⟨_, rfl, take_run_mem_many hrun⟩⟩
    · split
      · exact nil_mem_exponent
      · rename_i cs _ hrun
        rw [Nat.add_comm, List.take_succ_cons]
        exact cons_mem_exponent.2 ⟨rfl, .inr (take_run_mem_many hrun)⟩
    · exact nil_mem_exponent
  · intro cs w hw hstart
    cases w with
    | nil => exact Nat.zero_le _
    | cons c w =>
      obtain ⟨rest, rfl⟩ := hstart
      obtain ⟨rfl, ⟨v, rfl, hv⟩ | hdigits⟩ := cons_mem_exponent.1 hw
      · obtain ⟨hlength, hrun⟩ := length_le_of_mem_many hv (List.prefix_append v rest)
        simp only [List.cons_append, exponentLength, if_neg hrun, List.length_cons]
        omega
      · obtain ⟨hlength, hrun⟩ := length_le_of_mem_many hdigits (List.prefix_append w rest)
        have hsign : ∀ cs, w ++ rest ≠ '-' :: cs := by
          rintro cs heq
          rw [heq] at hrun
          exact hrun (run_cons_of_neg rfl)
        rw [List.cons_append, exponentLength, if_neg hrun, List.length_cons]
        · omega
        · exact hsign

/-- The digits of a number after its first one or after its point, and the exponent. -/
def digitsLength (cs : List Char) : Nat :=
  run Char.isDigit cs + exponentLength (cs.drop (run Char.isDigit cs))

theorem counts_digits : Counts ((one Char.isDigit)∗ * exponent) digitsLength := by
  refine counts_exponent.after_run fun c w hw => ?_
  rw [(cons_mem_exponent.1 hw).1]
  rfl

/-- The length of a fraction is that of the longest one, or zero. -/
theorem counts_fraction :
    Counts (one (· == '.') * ((one Char.isDigit)∗ * exponent) + exponent) fractionLength := by
  constructor
  · intro cs
    unfold fractionLength
    split
    · rename_i cs
      dsimp only
      rw [Nat.add_assoc, Nat.add_comm, List.take_succ_cons]
      exact .inl (counts_digits.cons_mem rfl)
    · exact .inr (counts_exponent.mem _)
  · intro cs w hw hstart
    cases w with
    | nil => exact Nat.zero_le _
    | cons c w =>
      obtain ⟨rest, rfl⟩ := hstart
      rcases hw with hw | hw
      · obtain rfl : c = '.' := beq_iff_eq.1 (cons_mem_one_mul.1 hw).1
        have hlength := counts_digits.le_of_cons hw (List.prefix_append w rest)
        unfold digitsLength at hlength
        simp only [List.cons_append, fractionLength, List.length_cons]
        omega
      · have hlength := counts_exponent.le _ _ hw (List.prefix_append (c :: w) rest)
        obtain rfl := (cons_mem_exponent.1 hw).1
        exact hlength

/-- The length of a number after its first digit is that of the longest one. -/
theorem counts_number : Counts ((one Char.isDigit)∗ *
    (one (· == '.') * ((one Char.isDigit)∗ * exponent) + exponent)) numberLength := by
  refine counts_fraction.after_run fun c w hw => ?_
  rw [Language.mem_add, cons_mem_one_mul, beq_iff_eq, cons_mem_exponent] at hw
  rcases hw with ⟨rfl, -⟩ | ⟨rfl, -⟩
  · rfl
  · rfl

/-- The pattern of a number by its first character. -/
theorem pattern_number : TokenKind.pattern .number =
    one Char.isDigit * ((one Char.isDigit)∗ *
        (one (· == '.') * ((one Char.isDigit)∗ * exponent) + exponent)) +
      one (· == '.') * (one Char.isDigit * ((one Char.isDigit)∗ * exponent)) := by
  have hdigits (l : Language Char) :
      (one Char.isDigit)∗ * ((one Char.isDigit)∗ * l) = (one Char.isDigit)∗ * l := by
    rw [← mul_assoc, kstar_mul_kstar]
  simp only [TokenKind.pattern, many, mul_assoc, add_mul, one_mul, mul_add, hdigits]

/-- A point starts a number if a digit follows it. -/
theorem classify_point : classify '.' (c :: cs) =
    if c.isDigit then (.number, digitsLength cs + 1) else (.symbol, 0) := by
  have hblank : isBlank '.' = false := by decide
  cases hc : c.isDigit with
  | false => simp [classify, hblank, pointLength?, run_cons_of_neg hc]
  | true =>
    simp [classify, hblank, pointLength?, run_cons_of_pos hc, digitsLength, Nat.add_right_comm]

/-! ## The first token -/

theorem mem_pattern_single (hline : c ≠ '\n') : [c] ∈ (single c).pattern := by
  unfold single
  split
  case h_15 => exact cons_mem_one.2 ⟨bne_iff_ne.2 hline, rfl⟩
  all_goals exact cons_mem_one.2 ⟨rfl, rfl⟩

/-- What the tokenizer takes is matched by the pattern of its kind. -/
theorem mem_pattern_classify (c : Char) (cs : List Char) :
    c :: cs.take (classify c cs).2 ∈ (classify c cs).1.pattern := by
  by_cases hblank : isBlank c = true
  · rw [classify, if_pos hblank]
    exact (counts_kstar isBlank).cons_mem hblank
  by_cases halpha : c.isAlpha = true
  · rw [classify_of_isAlpha halpha, TokenKind.pattern, mul_assoc]
    exact counts_name.cons_mem halpha
  by_cases hdigit : c.isDigit = true
  · rw [classify_of_isDigit hdigit, pattern_number]
    exact .inl (counts_number.cons_mem hdigit)
  by_cases hpoint : c = '.'
  · subst hpoint
    have hsymbol : ['.'] ∈ TokenKind.symbol.pattern := cons_mem_one.2 ⟨rfl, rfl⟩
    cases cs with
    | nil => exact hsymbol
    | cons d cs =>
      rw [classify_point]
      cases hd : d.isDigit with
      | false => exact hsymbol
      | true =>
        rw [if_pos rfl, pattern_number]
        exact .inr (cons_mem_one_mul.2 ⟨rfl, counts_digits.cons_mem hd⟩)
  · rw [classify, if_neg hblank, if_neg halpha, if_neg hdigit, if_neg (by simpa using hpoint)]
    refine mem_pattern_single ?_
    rintro rfl
    exact hblank rfl

/-- A pattern that matches a prefix of a text is the one of the kind that the tokenizer finds, and
it matches no more than what the tokenizer takes. -/
theorem classify_of_mem_pattern {kind : TokenKind} (hkind : kind ≠ .symbol)
    (hw : c :: w ∈ kind.pattern) (hstart : w <+: cs) :
    kind = (classify c cs).1 ∧ w.length ≤ (classify c cs).2 := by
  cases kind with
  | blank =>
    have hblank := (cons_mem_one_mul.1 hw).1
    rw [classify, if_pos hblank]
    exact ⟨rfl, (counts_kstar isBlank).le_of_cons hw hstart⟩
  | name =>
    rw [TokenKind.pattern, mul_assoc] at hw
    rw [classify_of_isAlpha (cons_mem_one_mul.1 hw).1]
    exact ⟨rfl, counts_name.le_of_cons hw hstart⟩
  | number =>
    rw [pattern_number, Language.mem_add] at hw
    rcases hw with hw | hw
    · rw [classify_of_isDigit (cons_mem_one_mul.1 hw).1]
      exact ⟨rfl, counts_number.le_of_cons hw hstart⟩
    · obtain ⟨hpoint, hdigits⟩ := cons_mem_one_mul.1 hw
      obtain rfl : c = '.' := by simpa using hpoint
      cases w with
      | nil => exact absurd hdigits nil_not_mem_one_mul
      | cons d w =>
        obtain ⟨rest, rfl⟩ := hstart
        have hlength := counts_digits.le_of_cons hdigits (List.prefix_append w rest)
        have hd := (cons_mem_one_mul.1 hdigits).1
        rw [List.cons_append, classify_point, if_pos hd]
        exact ⟨rfl, Nat.succ_le_succ hlength⟩
  | symbol => exact absurd rfl hkind
  | operator op =>
    obtain ⟨hc, rfl⟩ := cons_mem_one.1 hw
    obtain rfl : c = op.symbol := by simpa using hc
    cases op <;> exact ⟨rfl, Nat.le_refl _⟩
  | _ =>
    obtain ⟨hc, rfl⟩ := cons_mem_one.1 hw
    obtain rfl := beq_iff_eq.1 hc
    exact ⟨rfl, Nat.le_refl _⟩

theorem ne_nil_of_mem_pattern {kind : TokenKind} (hw : w ∈ kind.pattern) : w ≠ [] := by
  rintro rfl
  cases kind with
  | blank => exact nil_not_mem_one_mul hw
  | name =>
    rw [TokenKind.pattern, mul_assoc] at hw
    exact nil_not_mem_one_mul hw
  | number =>
    rw [pattern_number] at hw
    exact hw.elim nil_not_mem_one_mul nil_not_mem_one_mul
  | _ => exact nil_not_mem_one hw

/-- No pattern matches more of the text than the first token does. -/
theorem longestMatch_classify (c : Char) (cs : List Char) :
    LongestMatch (classify c cs).1 (c :: cs.take (classify c cs).2) (c :: cs) := by
  have hbound {other : TokenKind} (hother : other ≠ .symbol) {w : List Char}
      (hw : w ∈ other.pattern) (hstart : w <+: c :: cs) :
      other = (classify c cs).1 ∧ w.length ≤ (c :: cs.take (classify c cs).2).length := by
    obtain ⟨d, w, rfl⟩ := List.exists_cons_of_ne_nil (ne_nil_of_mem_pattern hw)
    obtain ⟨rfl, hrest⟩ := List.cons_prefix_cons.1 hstart
    obtain ⟨hkind, hlength⟩ := classify_of_mem_pattern hother hw hrest
    refine ⟨hkind, Nat.succ_le_succ ?_⟩
    rw [List.length_take]
    exact Nat.le_min.2 ⟨hlength, hrest.length_le⟩
  have hstart : c :: cs.take (classify c cs).2 <+: c :: cs :=
    List.cons_prefix_cons.2 ⟨rfl, List.take_prefix _ _⟩
  refine ⟨mem_pattern_classify c cs, fun other w hw hw' => ?_,
    fun other hother hw => (hbound hother hw hstart).1, fun hsymbol => ⟨?_, ?_⟩⟩
  · by_cases hother : other = .symbol
    · subst hother
      obtain ⟨d, -, rfl⟩ := hw
      exact Nat.succ_le_succ (Nat.zero_le _)
    · exact (hbound hother hw hw').2
  · have hfits := mem_pattern_classify c cs
    rw [hsymbol] at hfits
    rw [(cons_mem_one.1 hfits).2]
    rfl
  · intro other hother w hw hw'
    exact hother ((hbound hother hw hw').1.trans hsymbol)

end

/-! ## All tokens -/

theorem size_of_take (c : Char) (cs : List Char) (n : Nat) :
    (String.ofList (c :: cs)).utf8ByteSize =
      (String.ofList (c :: cs.take n)).utf8ByteSize + (String.ofList (cs.drop n)).utf8ByteSize := by
  rw [← String.utf8ByteSize_append, ← String.ofList_append, List.cons_append,
    List.take_append_drop]

theorem size_cons_pos (c : Char) (cs : List Char) : 0 < (String.ofList (c :: cs)).utf8ByteSize := by
  rw [Nat.pos_iff_ne_zero, Ne, String.utf8ByteSize_eq_zero_iff]
  simp

/-- The tokens lie next to each other from the start to the end of the text. -/
theorem tiles_scanFrom (start : Nat) (cs : List Char) :
    Tiles start (start + (String.ofList cs).utf8ByteSize) (scanFrom start cs) := by
  fun_induction scanFrom start cs with
  | case1 start => exact rfl
  | case2 start c cs kind more heq lexeme stop ih =>
    refine ⟨rfl, Nat.lt_add_of_pos_right (size_cons_pos c _), ?_⟩
    rwa [size_of_take c cs more, ← Nat.add_assoc]

/-- Each token stands at its offset in the text, where it is the longest match. -/
theorem longestMatch_scanFrom (start : Nat) (cs : List Char) :
    ∀ t ∈ scanFrom start cs, ∃ before after : List Char,
      cs = before ++ t.lexeme.toList ++ after ∧
      t.span.start = start + (String.ofList before).utf8ByteSize ∧
      t.span.stop = t.span.start + t.lexeme.utf8ByteSize ∧
      LongestMatch t.kind t.lexeme.toList (t.lexeme.toList ++ after) := by
  fun_induction scanFrom start cs with
  | case1 start => intro t ht; cases ht
  | case2 start c cs kind more heq lexeme stop ih =>
    have hchars : lexeme.toList = c :: cs.take more := String.toList_ofList
    have htext : c :: cs = lexeme.toList ++ cs.drop more := by
      rw [hchars, List.cons_append, List.take_append_drop]
    rw [List.forall_mem_cons]
    refine ⟨⟨[], cs.drop more, htext, rfl, rfl, ?_⟩, fun t ht => ?_⟩
    · have hmatch := longestMatch_classify c cs
      rw [heq] at hmatch
      rwa [← htext, hchars]
    · obtain ⟨before, after, hcut, hstart, hstop, hmatch⟩ := ih t ht
      refine ⟨lexeme.toList ++ before, after, ?_, ?_, hstop, hmatch⟩
      · rw [htext, hcut]
        simp only [List.append_assoc]
      · rw [hstart, String.ofList_append, String.utf8ByteSize_append, String.ofList_toList,
          Nat.add_assoc]

/-- The tokens of a text cover it without gaps and overlaps, and each of them is the longest match
at its place. -/
theorem scan_longest_match (source : String) :
    Tiles 0 source.utf8ByteSize (scan source) ∧
      ∀ t ∈ scan source, t.lexeme ≠ "" ∧ ∃ before after : String,
        source = before ++ t.lexeme ++ after ∧
        t.span = ⟨before.utf8ByteSize, (before ++ t.lexeme).utf8ByteSize⟩ ∧
        LongestMatch t.kind t.lexeme.toList (t.lexeme ++ after).toList := by
  refine ⟨?_, fun t ht => ?_⟩
  · have htiles := tiles_scanFrom 0 source.toList
    rwa [Nat.zero_add, String.ofList_toList] at htiles
  · obtain ⟨before, after, hcut, hstart, hstop, hmatch⟩ := longestMatch_scanFrom 0 source.toList t ht
    refine ⟨fun hempty => ?_, String.ofList before, String.ofList after, ?_, ?_, ?_⟩
    · exact ne_nil_of_mem_pattern hmatch.fits (by rw [hempty]; rfl)
    · rw [← String.ofList_toList (s := source), hcut, String.ofList_append, String.ofList_append,
        String.ofList_toList]
    · rw [Nat.zero_add] at hstart
      rw [String.utf8ByteSize_append, ← hstart, ← hstop]
    · rwa [String.toList_append, String.toList_ofList]

end Token

end Formulary
