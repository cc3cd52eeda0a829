import Formulary.Proofs.Reading.Literal
import Formulary.Token

/-!
# Lexemes

The canonical text of an expression is put together from lexemes: operators, names, whole numbers
and the characters that group. Between a name or a number and the next name or number there is
always another lexeme, and that is what the tokenizer needs to find them again: the longest token
at the front of the text is the next lexeme (`scanFrom_lexeme`).
-/

namespace Formulary

namespace Token

/-- The text is a single name token. -/
def IsName (name : String) : Prop := scan name = [⟨.name, ⟨0, name.utf8ByteSize⟩, name⟩]

instance (name : String) : Decidable (IsName name) := inferInstanceAs (Decidable (_ = _))

/-- The text cannot go on with a name or a number in front of it. -/
def Breaks (cs : List Char) : Prop :=
  ∀ c ∈ cs.head?, isNamePart c = false ∧ c ≠ Names.prime ∧ c ≠ '.'

/-! ## Runs -/

theorem run_le (test : Char → Bool) (cs : List Char) : run test cs ≤ cs.length :=
  (List.takeWhile_sublist test).length_le

theorem run_append {test : Char → Bool} {rest : List Char} (h : ∀ c ∈ rest.head?, test c = false)
    (cs : List Char) : run test (cs ++ rest) = run test cs := by
  induction cs with
  | nil =>
    cases rest with
    | nil => rfl
    | cons c rest => simp [run, h c rfl]
  | cons c cs ih =>
    by_cases hc : test c = true
    · simpa [run, hc] using ih
    · simp [run, hc]

theorem nameLength_append {rest : List Char} (h : Breaks rest) (cs : List Char) :
    nameLength (cs ++ rest) = nameLength cs := by
  have hpart : run isNamePart (cs ++ rest) = run isNamePart cs :=
    run_append (fun c hc => (h c hc).1) cs
  have hmark : ∀ c ∈ rest.head?, (c == '\x27') = false :=
    fun c hc => beq_eq_false_iff_ne.2 (h c hc).2.1
  have hprime := run_append hmark (cs.drop (run isNamePart cs))
  rw [nameLength, hpart, List.drop_append_of_le_length (run_le _ _), hprime]
  rfl

theorem nameLength_le (cs : List Char) : nameLength cs ≤ cs.length := by
  have hpart := run_le isNamePart cs
  have hprime := run_le (· == '\x27') (cs.drop (run isNamePart cs))
  rw [List.length_drop] at hprime
  unfold nameLength
  dsimp only
  omega

/-- A whole number ends before what cannot be part of one. -/
theorem numberLength_append {rest cs : List Char} (h : Breaks rest)
    (hcs : ∀ c ∈ cs, c.isDigit = true) : numberLength (cs ++ rest) = cs.length := by
  have hdigit : ∀ c ∈ rest.head?, c.isDigit = false := by
    intro c hc
    have hpart := (h c hc).1
    simp only [isNamePart, Char.isAlphanum, Bool.or_eq_false_iff] at hpart
    exact hpart.1.2
  have hrun : run Char.isDigit (cs ++ rest) = cs.length := by
    rw [run_append hdigit, run, List.takeWhile_eq_self_iff.2 hcs]
  have hfraction : fractionLength rest = 0 := by
    cases rest with
    | nil => rfl
    | cons c rest =>
      obtain ⟨hpart, -, hpoint⟩ := h c rfl
      have he : c ≠ 'e' := by
        rintro rfl
        revert hpart
        decide
      unfold fractionLength
      split
      · simp_all
      · unfold exponentLength
        split
        · simp_all
        · simp_all
        · rfl
  rw [numberLength, hrun, List.drop_left, hfraction, Nat.add_zero]

/-! ## Single tokens -/

/-- The first token is as long as its kind says, and the next one starts behind it. -/
theorem scanFrom_of_classify {c : Char} {cs : List Char} {kind : TokenKind} {more : Nat}
    (h : classify c cs = (kind, more)) (start : Nat) :
    scanFrom start (c :: cs) =
      ⟨kind, ⟨start, start + (String.ofList (c :: cs.take more)).utf8ByteSize⟩,
        String.ofList (c :: cs.take more)⟩ ::
      scanFrom (start + (String.ofList (c :: cs.take more)).utf8ByteSize) (cs.drop more) := by
  rw [scanFrom, h]

theorem classify_of_isAlpha {c : Char} (h : c.isAlpha = true) (cs : List Char) :
    classify c cs = (.name, nameLength cs) := by
  have hblank : isBlank c = false := by
    by_contra hb
    simp only [isBlank, Bool.not_eq_false, Bool.or_eq_true, beq_iff_eq] at hb
    rcases hb with ((rfl | rfl) | rfl) | rfl <;> revert h <;> decide
  rw [classify, hblank, h]
  rfl

theorem classify_of_isDigit {c : Char} (h : c.isDigit = true) (cs : List Char) :
    classify c cs = (.number, numberLength cs) := by
  have hblank : isBlank c = false := by
    by_contra hb
    simp only [isBlank, Bool.not_eq_false, Bool.or_eq_true, beq_iff_eq] at hb
    rcases hb with ((rfl | rfl) | rfl) | rfl <;> revert h <;> decide
  have halpha : c.isAlpha = false := by
    simp only [Char.isDigit, Char.isAlpha, Char.isUpper, Char.isLower, Bool.and_eq_true,
      decide_eq_true_eq, Bool.or_eq_false_iff, decide_eq_false_iff_not, ge_iff_le,
      Bool.and_eq_false_iff, not_and] at *
    exact ⟨fun hA _ => absurd (UInt32.le_trans hA h.2) (by decide),
      Or.inl fun ha => absurd (UInt32.le_trans ha h.2) (by decide)⟩
  rw [classify, hblank, halpha, h]
  rfl

theorem isAlpha_of_classify {c : Char} {cs : List Char} (h : (classify c cs).1 = .name) :
    c.isAlpha = true := by
  by_contra halpha
  have hsingle (c : Char) : single c ≠ .name := by
    unfold single
    split <;> simp
  unfold classify at h
  rw [if_neg halpha] at h
  split at h
  · cases h
  · split at h
    · cases h
    · split at h
      · split at h <;> cases h
      · exact hsingle c h

/-- The characters of a name: a letter, and then what goes on with it. -/
theorem IsName.chars {name : String} (h : IsName name) :
    ∃ c cs, name.toList = c :: cs ∧ c.isAlpha = true ∧ nameLength cs = cs.length := by
  unfold IsName scan at h
  cases hchars : name.toList with
  | nil => simp [hchars, scanFrom] at h
  | cons c cs =>
    have hclass : classify c cs = ((classify c cs).1, (classify c cs).2) := rfl
    rw [hchars, scanFrom_of_classify hclass] at h
    obtain ⟨htoken, hrest⟩ := List.cons.inj h
    have halpha := isAlpha_of_classify (congrArg Token.kind htoken)
    rw [classify_of_isAlpha halpha] at hrest
    have hdrop : cs.drop (nameLength cs) = [] := by
      cases hd : cs.drop (nameLength cs) with
      | nil => rfl
      | cons d ds => simp [hd, scanFrom] at hrest
    exact ⟨c, cs, rfl, halpha, Nat.le_antisymm (nameLength_le cs) (List.drop_eq_nil_iff.1 hdrop)⟩

end Token

namespace Reading

open Token

/-- A lexeme of a canonical text. -/
inductive Lexeme where
  | operator (op : BinaryOp)
  | name (text : String)
  | number (n : Nat)
  | comma
  | openParen
  | closeParen
  | openBracket
  | closeBracket
deriving DecidableEq

namespace Lexeme

/-- The kind of the token that a lexeme is. -/
def kind : Lexeme → TokenKind
  | operator op => .operator op
  | name _ => .name
  | number _ => .number
  | comma => .comma
  | openParen => .openParen
  | closeParen => .closeParen
  | openBracket => .openBracket
  | closeBracket => .closeBracket

/-- The characters of a lexeme. -/
def chars : Lexeme → List Char
  | operator op => [op.symbol]
  | name text => text.toList
  | number n => Nat.toDigits 10 n
  | comma => [',']
  | openParen => ['(']
  | closeParen => [')']
  | openBracket => ['[']
  | closeBracket => [']']

/-- The length of a lexeme in bytes. -/
def size (w : Lexeme) : Nat := (String.ofList w.chars).utf8ByteSize

/-- The token of a lexeme at an offset. -/
def token (start : Nat) (w : Lexeme) : Token :=
  ⟨w.kind, ⟨start, start + w.size⟩, String.ofList w.chars⟩

/-- The lexeme is a name or a number. -/
def isWord : Lexeme → Bool
  | name _ | number _ => true
  | _ => false

/-- A name lexeme is a name for the tokenizer. -/
def WellFormed : Lexeme → Prop
  | name text => IsName text
  | _ => True

end Lexeme

/-- The tokens of lexemes that follow one another from an offset on. -/
def place (start : Nat) : List Lexeme → List Token
  | [] => []
  | w :: ws => w.token start :: place (start + w.size) ws

/-- The characters of lexemes that follow one another. -/
def spell (ws : List Lexeme) : List Char := ws.flatMap Lexeme.chars

/-- The length in bytes of lexemes that follow one another. -/
def extent (ws : List Lexeme) : Nat := (ws.map Lexeme.size).sum

/-- A name or a number is never followed by another one, and the names are names. -/
def Separated (ws : List Lexeme) : Prop :=
  (∀ w ∈ ws, w.WellFormed) ∧ ws.IsChain fun v w => v.isWord = false ∨ w.isWord = false

theorem place_append (start : Nat) (vs ws : List Lexeme) :
    place start (vs ++ ws) = place start vs ++ place (start + extent vs) ws := by
  induction vs generalizing start with
  | nil => rfl
  | cons v vs ih => simp [place, ih, extent, Nat.add_assoc]

/-! ## Finding the lexemes again -/

/-- The first token of a text that starts with a lexeme is the lexeme. -/
theorem scanFrom_lexeme {w : Lexeme} (hw : w.WellFormed) {rest : List Char}
    (hrest : w.isWord = true → Breaks rest) (start : Nat) :
    scanFrom start (w.chars ++ rest) = w.token start :: scanFrom (start + w.size) rest := by
  have finish {c : Char} {cs : List Char} (hchars : w.chars = c :: cs)
      (hclass : classify c (cs ++ rest) = (w.kind, cs.length)) :
      scanFrom start (w.chars ++ rest) = w.token start :: scanFrom (start + w.size) rest := by
    rw [hchars, List.cons_append, scanFrom_of_classify hclass, List.take_left, List.drop_left,
      Lexeme.token, Lexeme.size, hchars]
  cases w with
  | name text =>
    obtain ⟨c, cs, hchars, halpha, hlength⟩ := hw.chars
    refine finish hchars ?_
    rw [classify_of_isAlpha halpha, nameLength_append (hrest rfl), hlength]
    rfl
  | number n =>
    have hwhole := Decimal.isWhole_toDigits n
    obtain ⟨c, cs, hchars⟩ := List.exists_cons_of_ne_nil hwhole.1
    rw [hchars] at hwhole
    refine finish hchars ?_
    rw [classify_of_isDigit (hwhole.2 c List.mem_cons_self),
      numberLength_append (hrest rfl) fun d hd => hwhole.2 d (List.mem_cons_of_mem _ hd)]
    rfl
  | operator op => cases op <;> exact finish rfl rfl
  | _ => exact finish rfl rfl

/-- Lexemes that begin with no word break off what is in front of them. -/
theorem breaks_spell {ws : List Lexeme} (h : ∀ w ∈ ws.head?, w.isWord = false) :
    Breaks (spell ws) := by
  cases ws with
  | nil => simp [Breaks, spell]
  | cons w ws =>
    have hword := h w rfl
    intro c hc
    cases w with
    | name text => cases hword
    | number n => cases hword
    | operator op =>
      cases op <;> simp [spell, Lexeme.chars, BinaryOp.symbol] at hc <;> subst hc <;> decide
    | _ => simp [spell, Lexeme.chars] at hc; subst hc; decide

/-- The tokens of a text of separated lexemes are the lexemes. -/
theorem scanFrom_spell {ws : List Lexeme} (h : Separated ws) (start : Nat) :
    scanFrom start (spell ws) = place start ws := by
  induction ws generalizing start with
  | nil => simp [spell, place, scanFrom]
  | cons w ws ih =>
    obtain ⟨hwell, hchain⟩ := h
    obtain ⟨hfirst, htail⟩ := List.isChain_cons.1 hchain
    have hbreaks : w.isWord = true → Breaks (spell ws) := by
      intro hword
      refine breaks_spell fun v hv => ?_
      rcases hfirst v hv with hno | hno
      · rw [hword] at hno
        cases hno
      · exact hno
    have hrest : Separated ws := ⟨fun v hv => hwell v (List.mem_cons_of_mem _ hv), htail⟩
    rw [show spell (w :: ws) = w.chars ++ spell ws from List.flatMap_cons,
      scanFrom_lexeme (hwell w List.mem_cons_self) hbreaks, ih hrest, place]

end Reading

end Formulary
