import Formulary.Expr.Names
import Formulary.Proofs.Reading.Lexemes
import Formulary.Writing.Canonical

/-!
# Writable expressions

An expression is writable if its canonical text can be read: its literals are small integers, its
names are names for the tokenizer, and it holds no sums or products over any number of operands.
`lexemes` are the lexemes of the text, and the tokenizer finds them again (`scan_text`).

Expressions without signs hold no unary operators and no negative literals.
-/

namespace Formulary

namespace Names

theorem toList_withPrimes (name : String) (count : Nat) :
    (withPrimes name count).toList = name.toList ++ List.replicate count prime := by
  simp [withPrimes]

theorem primes_withPrimes {name : String} (h : primes name = 0) (count : Nat) :
    primes (withPrimes name count) = count := by
  have hstop : name.toList.reverse.takeWhile (· == prime) = [] := List.length_eq_zero_iff.1 h
  rw [primes, toList_withPrimes, List.reverse_append, List.reverse_replicate,
    List.takeWhile_append_of_pos (by simp), hstop]
  simp

theorem base_withPrimes {name : String} (h : primes name = 0) (count : Nat) :
    base (withPrimes name count) = name := by
  have hstop : name.toList.reverse.takeWhile (· == prime) = [] := List.length_eq_zero_iff.1 h
  have hall : name.toList.reverse.dropWhile (· == prime) = name.toList.reverse := by
    have hsplit := List.takeWhile_append_dropWhile (p := (· == prime)) (l := name.toList.reverse)
    rwa [hstop, List.nil_append] at hsplit
  rw [base, toList_withPrimes, List.reverse_append, List.reverse_replicate,
    List.dropWhile_append_of_pos (by simp), hall]
  simp

end Names

namespace Token

/-- Letters and digits are a name if the first one is a letter. -/
theorem isName_of_chars {name : String} {c : Char} {cs : List Char} (h : name.toList = c :: cs)
    (halpha : c.isAlpha = true) (hlength : nameLength cs = cs.length) : IsName name := by
  have hclass : classify c cs = (.name, cs.length) := by rw [classify_of_isAlpha halpha, hlength]
  have hname : String.ofList (c :: cs) = name := by rw [← h, String.ofList_toList]
  rw [IsName, scan, h, scanFrom_of_classify hclass]
  simp [scanFrom, hname]

theorem run_eq_length {test : Char → Bool} {cs : List Char} :
    run test cs = cs.length ↔ ∀ c ∈ cs, test c = true := by
  rw [run, ← List.takeWhile_eq_self_iff]
  exact ⟨fun h => (List.takeWhile_sublist test).eq_of_length h, fun h => by rw [h]⟩

theorem IsName.withPrimes {name : String} (h : IsName name) (count : Nat) :
    IsName (Names.withPrimes name count) := by
  obtain ⟨c, cs, hchars, halpha, hlength⟩ := h.chars
  have hall : (Names.withPrimes name count).toList =
      c :: (cs ++ List.replicate count Names.prime) := by
    rw [Names.toList_withPrimes, hchars, List.cons_append]
  refine isName_of_chars hall halpha ?_
  have hpart : run isNamePart (cs ++ List.replicate count Names.prime) = run isNamePart cs := by
    refine run_append (fun d hd => ?_) cs
    obtain ⟨-, rfl⟩ := List.mem_replicate.1 (List.mem_of_mem_head? hd)
    decide
  have hle := run_le isNamePart cs
  have hprimes : ∀ d ∈ cs.drop (run isNamePart cs), (d == '\x27') = true := by
    refine run_eq_length.1 ?_
    rw [List.length_drop]
    simp only [nameLength] at hlength
    omega
  have hall : run (· == '\x27')
      (cs.drop (run isNamePart cs) ++ List.replicate count Names.prime) =
        (cs.drop (run isNamePart cs) ++ List.replicate count Names.prime).length := by
    refine run_eq_length.2 fun d hd => ?_
    rcases List.mem_append.1 hd with hd | hd
    · exact hprimes d hd
    · obtain ⟨-, rfl⟩ := List.mem_replicate.1 hd
      decide
  simp only [nameLength, hpart, List.drop_append_of_le_length hle, hall, List.length_append,
    List.length_drop]
  omega

end Token

namespace Expr

open Token Reading

/-- An expression whose canonical text can be read. Signs, and elements of sequences, may be left
out. -/
inductive Writable (signs : Bool) : (elements : Bool) → Expr → Prop
  | number {elements : Bool} {k : Int} (small : k.natAbs < literalBound)
      (nonneg : signs = false → 0 ≤ k) : Writable signs elements (.ofInt k)
  | var {elements : Bool} {name : String} (isName : IsName name) :
      Writable signs elements (.var name)
  | element {sequence : String} {index : Expr} (isName : IsName sequence)
      (writable : Writable signs false index) (single : index.dependencies.length ≤ 1) :
      Writable signs true (.element sequence index)
  | unary {elements : Bool} {op : UnaryOp} {operand : Expr} (signed : signs = true)
      (notPlus : op ≠ .plus) (writable : Writable signs elements operand) :
      Writable signs elements (.unary op operand)
  | binary {elements : Bool} (op : BinaryOp) {lhs rhs : Expr} (left : Writable signs elements lhs)
      (right : Writable signs elements rhs) : Writable signs elements (.binary op lhs rhs)
  | call {elements : Bool} {function : String} {primes : Nat} {argument : Expr}
      (isName : IsName function) (noPrimes : Names.primes function = 0)
      (canonical : Names.canonical function = function) (notD : function = "D" → primes ≠ 0)
      (writable : Writable signs elements argument) :
      Writable signs elements (.call function primes argument)
  | derivative {elements : Bool} {body : Expr} {name : String} (isName : IsName name)
      (writable : Writable signs elements body) : Writable signs elements (.derivative body name)
  | derivativeAt {elements : Bool} {body point : Expr} {name : String} (isName : IsName name)
      (left : Writable signs elements body) (right : Writable signs elements point) :
      Writable signs elements (.derivativeAt body name point)

/-! ## Lexemes -/

/-- Lexemes, in parentheses if `grouped`. -/
def enclose (grouped : Bool) (ws : List Lexeme) : List Lexeme :=
  if grouped then .openParen :: (ws ++ [.closeParen]) else ws

/-- The lexemes of a call. -/
def applied (name : String) (arguments : List Lexeme) : List Lexeme :=
  .name name :: .openParen :: (arguments ++ [.closeParen])

/-- The lexemes of an integer literal. -/
def literalLexemes (k : Int) : List Lexeme :=
  if k < 0 then [.operator .sub, .number k.natAbs] else [.number k.natAbs]

/-- The operator token that stands for a unary operator. -/
def signToken : UnaryOp → BinaryOp
  | .plus => .add
  | .neg => .sub
  | .recip => .div

/-- The lexemes of the canonical text of a writable expression. -/
def lexemes : Expr → List Lexeme
  | .number (.exact r) => literalLexemes r.num
  | .var name => [.name name]
  | .element sequence index =>
    .name sequence :: .openBracket :: (index.lexemes ++ [.closeBracket])
  | .unary op operand =>
    .operator (signToken op) :: enclose (operand.groupedLeft op.precedence) operand.lexemes
  | .binary op lhs rhs =>
    enclose (lhs.groupedBase op) lhs.lexemes ++
      .operator op :: enclose (rhs.groupedRight op.precedence) rhs.lexemes
  | .call function primes argument => applied (Names.withPrimes function primes) argument.lexemes
  | .derivative body name => applied "D" (body.lexemes ++ [.comma, .name name])
  | .derivativeAt body name point =>
    applied "D" (body.lexemes ++ .comma :: .name name :: .comma :: point.lexemes)
  | .number (.real _) | .nary _ _ | .invalid _ | .invalidPart _ _ => []

section

variable {signs elements : Bool} {e : Expr}

theorem spell_enclose (grouped : Bool) (ws : List Lexeme) (text : String)
    (h : text.toList = spell ws) :
    (parenthesized grouped text).toList = spell (enclose grouped ws) := by
  cases grouped
  · exact h
  · simp [parenthesized, enclose, spell, Lexeme.chars, h]

theorem toList_toString (k : Int) : (toString k).toList = spell (literalLexemes k) := by
  cases k with
  | ofNat n =>
    have htext : toString (Int.ofNat n) = n.repr := rfl
    have hneg : ¬ (Int.ofNat n < 0) := by simp
    rw [htext, Nat.toList_repr, literalLexemes, if_neg hneg]
    simp [spell, Lexeme.chars]
  | negSucc n =>
    have htext : toString (Int.negSucc n) = "-" ++ (n + 1).repr := rfl
    rw [htext, String.toList_append, Nat.toList_repr, literalLexemes,
      if_pos (Int.negSucc_lt_zero n)]
    simp [spell, Lexeme.chars, BinaryOp.symbol]

/-- The canonical text of a writable expression is made of its lexemes. -/
theorem Writable.toList_text (h : Writable signs elements e) : e.text.toList = spell e.lexemes := by
  induction h with
  | @number _ k small _ =>
    have hwrite : (Expr.ofInt k).text = toString k := by
      simp [Expr.ofInt, text, Number.write, Number.ofInt]
    rw [hwrite, toList_toString]
    rfl
  | var isName => simp [text, lexemes, spell, Lexeme.chars]
  | element isName _ _ ih => simp [text, lexemes, spell, Lexeme.chars, ih]
  | @unary _ op u _ notPlus _ ih =>
    have hop : op.symbol = (signToken op).symbol := by cases op <;> rfl
    rw [text, String.toList_append, spell_enclose _ _ _ ih, hop]
    simp [lexemes, spell, Lexeme.chars]
  | @binary _ op l r _ _ ihl ihr =>
    rw [text, String.toList_append, String.toList_append, spell_enclose _ _ _ ihl,
      spell_enclose _ _ _ ihr]
    simp [lexemes, spell, Lexeme.chars]
  | call _ _ _ _ _ ih => simp [text, lexemes, applied, spell, Lexeme.chars, ih]
  | derivative _ _ ih => simp [text, lexemes, applied, spell, Lexeme.chars, ih]
  | derivativeAt _ _ _ ihl ihr => simp [text, lexemes, applied, spell, Lexeme.chars, ihl, ihr]

/-! ## Separation -/

/-- A lexeme that is no word keeps what is on both sides of it apart. -/
theorem separated_append_cons {vs ws : List Lexeme} {w : Lexeme} (hv : Separated vs)
    (hw : Separated ws) (hwell : w.WellFormed) (hword : w.isWord = false) :
    Separated (vs ++ w :: ws) := by
  refine ⟨fun u hu => ?_, List.isChain_append.2 ⟨hv.2, List.isChain_cons.2 ⟨?_, hw.2⟩, ?_⟩⟩
  · rcases List.mem_append.1 hu with hu | hu
    · exact hv.1 u hu
    · rcases List.mem_cons.1 hu with rfl | hu
      · exact hwell
      · exact hw.1 u hu
  · exact fun _ _ => Or.inl hword
  · rintro u - v hu
    obtain rfl : w = v := by simpa using hu
    exact Or.inr hword

theorem separated_nil : Separated [] := ⟨by simp, .nil⟩

theorem separated_singleton {w : Lexeme} (hwell : w.WellFormed) : Separated [w] :=
  ⟨by simpa using hwell, .singleton w⟩

theorem separated_cons {ws : List Lexeme} {w : Lexeme} (hw : Separated ws) (hwell : w.WellFormed)
    (hword : w.isWord = false) : Separated (w :: ws) :=
  separated_append_cons separated_nil hw hwell hword

theorem separated_enclose {grouped : Bool} {ws : List Lexeme} (hw : Separated ws) :
    Separated (enclose grouped ws) := by
  cases grouped
  · exact hw
  · exact separated_cons (separated_append_cons hw separated_nil trivial rfl) trivial rfl

theorem isName_D : IsName "D" := isName_of_chars rfl rfl rfl

theorem separated_applied {name : String} {ws : List Lexeme} (hname : IsName name)
    (hw : Separated ws) : Separated (applied name ws) :=
  separated_append_cons (separated_singleton (w := .name name) hname)
    (separated_append_cons hw separated_nil (w := .closeParen) trivial rfl) (w := .openParen)
    trivial rfl

theorem separated_literal (k : Int) : Separated (literalLexemes k) := by
  unfold literalLexemes
  split
  · exact separated_cons (separated_singleton trivial) trivial rfl
  · exact separated_singleton trivial

/-- The lexemes of a writable expression are separated. -/
theorem Writable.separated (h : Writable signs elements e) : Separated e.lexemes := by
  induction h with
  | @number _ k _ _ => exact separated_literal k
  | var isName => exact separated_singleton isName
  | element isName _ _ ih =>
    have hindex := separated_append_cons ih separated_nil (w := .closeBracket) trivial rfl
    exact separated_append_cons (separated_singleton (w := .name _) isName) hindex
      (w := .openBracket) trivial rfl
  | unary _ _ _ ih => exact separated_cons (separated_enclose ih) trivial rfl
  | binary op _ _ ihl ihr =>
    exact separated_append_cons (separated_enclose ihl) (separated_enclose ihr) trivial rfl
  | call isName _ _ _ _ ih => exact separated_applied (isName.withPrimes _) ih
  | derivative isName _ ih =>
    have hname := separated_singleton (w := .name _) isName
    exact separated_applied isName_D (separated_append_cons ih hname (w := .comma) trivial rfl)
  | derivativeAt isName _ _ ihl ihr =>
    have hname := separated_append_cons (separated_singleton (w := .name _) isName) ihr
      (w := .comma) trivial rfl
    exact separated_applied isName_D (separated_append_cons ihl hname (w := .comma) trivial rfl)

/-- The tokens of a canonical text are its lexemes. -/
theorem Writable.scan_text (h : Writable signs elements e) : scan e.text = place 0 e.lexemes := by
  rw [scan, h.toList_text, scanFrom_spell h.separated]

/-! ## Parentheses -/

/-- No writable expression is a literal fraction, which would need parentheses of its own. -/
theorem Writable.isFractionUnder (h : Writable signs elements e) (parent : Precedence) :
    e.isFractionUnder parent = false := by
  cases h with
  | number _ _ => simp [Expr.ofInt, Expr.isFractionUnder, Number.ofInt, Number.isInteger]
  | _ => rfl

/-- A left operand is in parentheses if it binds less tightly than its operator. -/
theorem Writable.groupedLeft (h : Writable signs elements e) (parent : Precedence) :
    e.groupedLeft parent = decide (e.precedence < parent) := by
  rw [Expr.groupedLeft, h.isFractionUnder, Bool.or_false]
  cases h with
  | unary _ _ _ => rfl
  | binary op _ _ => rfl
  | _ => cases parent <;> rfl

/-- A right operand is in parentheses unless it binds more tightly than its operator. -/
theorem Writable.groupedRight (h : Writable signs elements e) {parent : Precedence}
    (hparent : parent ≠ .application) :
    e.groupedRight parent = decide (e.precedence ≤ parent) := by
  rw [Expr.groupedRight, h.isFractionUnder, Bool.or_false]
  cases h with
  | unary _ _ _ => rfl
  | binary op _ _ => rfl
  | _ => cases parent <;> first | rfl | exact absurd rfl hparent

end

end Expr

end Formulary
