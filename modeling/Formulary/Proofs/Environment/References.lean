import Formulary.Proofs.Environment.Operations
import Formulary.Proofs.Expr.Parts
import Formulary.Proofs.Reading.Legible
import Formulary.Proofs.Reading.Source
import Formulary.Proofs.Template

/-!
# References to the objects of an environment

Decoding puts the texts of objects in the place of references. These texts bring no braces of their
own: a declared name that can be referred to has none, numbers are written without, and expressions
come from formulas that were read, where a brace is a token of its own that no expression is made of
(`unbraced_read`). So the references that are left are those that stood in the text already
(`decode_references`).
-/

namespace Formulary

open Template (opening)

/-! ## Texts without braces -/

/-- No character of a text is an opening brace. -/
def Unbraced (text : String) : Prop := opening ∉ text.toList

instance (text : String) : Decidable (Unbraced text) := inferInstanceAs (Decidable (_ ∉ _))

theorem unbraced_append {s t : String} : Unbraced (s ++ t) ↔ Unbraced s ∧ Unbraced t := by
  simp [Unbraced]

theorem unbraced_ofList {cs : List Char} : Unbraced (String.ofList cs) ↔ opening ∉ cs := by
  rw [Unbraced, String.toList_ofList]

/-! ### Numbers -/

theorem opening_notMem_toDigits (n : Nat) : opening ∉ Nat.toDigits 10 n := fun h =>
  absurd (Nat.isDigit_of_mem_toDigits (by decide) (by decide) h) (by decide)

theorem unbraced_toString (k : Int) : Unbraced (toString k) := by
  have hrepr (n : Nat) : Unbraced n.repr := by
    rw [Unbraced, Nat.toList_repr]
    exact opening_notMem_toDigits n
  cases k with
  | ofNat n => exact hrepr n
  | negSucc n => exact unbraced_append.2 ⟨by decide, hrepr (n + 1)⟩

theorem Decimal.opening_notMem_split (d : Decimal) :
    opening ∉ d.split.1 ∧ opening ∉ d.split.2 := by
  have hdigits : opening ∉ digitChars d.digits := opening_notMem_toDigits d.digits
  have hzeros (n : Nat) : opening ∉ List.replicate n '0' := fun h =>
    absurd (List.eq_of_mem_replicate h) (by decide)
  unfold split
  dsimp only
  split
  · exact ⟨List.not_mem_append hdigits (hzeros _), List.not_mem_nil⟩
  · split
    · exact ⟨fun h => hdigits (List.mem_of_mem_take h),
        fun h => hdigits (List.mem_of_mem_drop h)⟩
    · exact ⟨hzeros 1, List.not_mem_append (hzeros _) hdigits⟩

theorem Decimal.unbraced_positional (d : Decimal) : Unbraced d.positional := by
  obtain ⟨hwhole, hfraction⟩ := opening_notMem_split d
  have hkept : opening ∉ dropTrailingZeros d.split.2 := fun h =>
    hfraction (List.mem_reverse.1 ((List.dropWhile_sublist _).subset (List.mem_reverse.1 h)))
  unfold positional
  dsimp only
  split
  · exact unbraced_ofList.2 hwhole
  · exact unbraced_ofList.2 (List.not_mem_append hwhole
      (List.not_mem_cons_of_ne_of_not_mem (by decide) hkept))

theorem Double.unbraced_write (v : Float) : Unbraced (write v) := by
  have hmagnitude : Unbraced (if v.isInf then "inf" else if v == 0 then "0"
      else (Decimal.shortest (parts v).1 (parts v).2).positional) := by
    split
    · decide
    · split
      · decide
      · exact Decimal.unbraced_positional _
  unfold write writeWith
  split
  · decide
  · dsimp only
    split
    · exact unbraced_append.2 ⟨by decide, hmagnitude⟩
    · exact hmagnitude

theorem Number.unbraced_write (n : Number) : Unbraced n.write := by
  cases n with
  | exact r =>
    rw [write]
    split
    · exact unbraced_toString _
    · have hslash : Unbraced (toString r.num ++ "/") :=
        unbraced_append.2 ⟨unbraced_toString _, by decide⟩
      exact unbraced_append.2 ⟨hslash, unbraced_toString r.den⟩
  | real v =>
    rw [write, writeDouble]
    split
    · decide
    · split
      · split <;> decide
      · split
        · decide
        · exact Double.unbraced_write _

/-! ### Names -/

theorem Token.IsName.unbraced {name : String} (h : Token.IsName name) : Unbraced name := by
  intro hmem
  rcases h.isNamePart_or_prime hmem with hpart | hprime
  · cases hpart
  · cases hprime

theorem Template.IsName.unbraced {name : String} (h : Template.IsName name) : Unbraced name :=
  fun hmem => absurd (Template.isNamePart_of_mem h hmem) (by decide)

/-- The parts of a name are pieces of it. -/
theorem Reading.unbraced_of_nameParts {scope : Scope} {name part : String} (h : Unbraced name)
    (hpart : part ∈ nameParts scope name) : Unbraced part := by
  have hself {part : String} (hpart : part ∈ [name]) : Unbraced part :=
    List.mem_singleton.1 hpart ▸ h
  unfold nameParts at hpart
  split at hpart
  · exact hself hpart
  · cases hsplit : scope.split? name with
    | none => exact hself (by rwa [hsplit] at hpart)
    | some parts =>
      rw [hsplit, Option.getD_some] at hpart
      rw [← (Scope.cut_of_split? hsplit).join] at h
      exact fun hmem => h (by simpa [String.toList_join] using ⟨part, hpart, hmem⟩)

theorem Names.unbraced_base {name : String} (h : Unbraced name) : Unbraced (base name) :=
  fun hmem => h (Names.base_append_primes name ▸ List.mem_append_left _ hmem)

theorem Names.unbraced_canonical {name : String} (h : Unbraced name) :
    Unbraced (canonical name) := by
  unfold canonical
  split
  case h_8 => exact h
  all_goals decide

theorem Names.unbraced_withPrimes {name : String} (h : Unbraced name) (count : Nat) :
    Unbraced (withPrimes name count) :=
  unbraced_append.2 ⟨h, unbraced_ofList.2 fun hmem =>
    absurd (List.eq_of_mem_replicate hmem) (by decide)⟩

/-! ### Expressions -/

namespace Expr

theorem unbraced_parenthesized {text : String} (grouped : Bool) :
    Unbraced (parenthesized grouped text) ↔ Unbraced text := by
  cases grouped with
  | false => rfl
  | true =>
    rw [parenthesized, if_pos rfl, unbraced_append, unbraced_append]
    exact ⟨fun h => h.1.2, fun h => ⟨⟨by decide, h⟩, by decide⟩⟩

theorem unbraced_text_of_child {e part : Expr} (hpart : part ∈ e.children)
    (h : Unbraced e.text) : Unbraced part.text := fun hmem => h (mem_text_of_child hpart hmem)

theorem unbraced_textRest {op : Family} {es : List Expr} (h : ∀ e ∈ es, Unbraced e.text) :
    Unbraced (textRest op es) := by
  induction es with
  | nil => exact List.not_mem_nil
  | cons e es ih =>
    obtain ⟨he, hes⟩ := List.forall_mem_cons.1 h
    have hsymbol : Unbraced op.symbol.toString := by cases op <;> decide
    rw [textRest, unbraced_append, unbraced_append, unbraced_parenthesized]
    exact ⟨⟨hsymbol, he⟩, ih hes⟩

theorem unbraced_unary (op : UnaryOp) (u : Expr) :
    Unbraced (unary op u).text ↔ Unbraced u.text := by
  have hsymbol : Unbraced op.symbol.toString := by cases op <;> decide
  rw [text, unbraced_append, unbraced_parenthesized, and_iff_right hsymbol]

theorem unbraced_binary (op : BinaryOp) (u v : Expr) :
    Unbraced (binary op u v).text ↔ Unbraced u.text ∧ Unbraced v.text := by
  have hsymbol : Unbraced op.symbol.toString := by cases op <;> decide
  rw [text, unbraced_append, unbraced_append, unbraced_parenthesized, unbraced_parenthesized,
    and_iff_left hsymbol]

theorem unbraced_nary (op : Family) (es : List Expr) :
    Unbraced (nary op es).text ↔ ∀ e ∈ es, Unbraced e.text := by
  refine ⟨fun h e (he : e ∈ (nary op es).children) => unbraced_text_of_child he h, fun h => ?_⟩
  cases es with
  | nil => cases op <;> decide
  | cons e es =>
    obtain ⟨he, hes⟩ := List.forall_mem_cons.1 h
    rw [text, unbraced_append, unbraced_parenthesized]
    exact ⟨he, unbraced_textRest hes⟩

theorem structural_unbraced : Structural fun e => Unbraced e.text where
  zero := Number.unbraced_write _
  one := Number.unbraced_write _
  unary := unbraced_unary
  binary := unbraced_binary
  nary := unbraced_nary

theorem unbraced_element {sequence : String} {index : Expr} :
    Unbraced (element sequence index).text ↔ Unbraced sequence ∧ Unbraced index.text := by
  have hopen : Unbraced "[" := by decide
  have hclose : Unbraced "]" := by decide
  simp only [text, unbraced_append, hopen, hclose, and_true]

theorem unbraced_call {f : String} {primes : Nat} {u : Expr} :
    Unbraced (call f primes u).text ↔ Unbraced (Names.withPrimes f primes) ∧ Unbraced u.text := by
  have hopen : Unbraced "(" := by decide
  have hclose : Unbraced ")" := by decide
  simp only [text, unbraced_append, hopen, hclose, and_true]

theorem unbraced_callNamed {name : String} {u : Expr} (hname : Unbraced name)
    (hu : Unbraced u.text) : Unbraced (callNamed name u).text :=
  unbraced_call.2 ⟨Names.unbraced_withPrimes
    (Names.unbraced_canonical (Names.unbraced_base hname)) _, hu⟩

theorem unbraced_derivative {body : Expr} {name : String} :
    Unbraced (derivative body name).text ↔ Unbraced body.text ∧ Unbraced name := by
  have hopen : Unbraced "D(" := by decide
  have hcomma : Unbraced "," := by decide
  have hclose : Unbraced ")" := by decide
  simp only [text, unbraced_append, hopen, hcomma, hclose, and_true, true_and]

theorem unbraced_derivativeAt {body point : Expr} {name : String} :
    Unbraced (derivativeAt body name point).text ↔
      (Unbraced body.text ∧ Unbraced name) ∧ Unbraced point.text := by
  have hopen : Unbraced "D(" := by decide
  have hcomma : Unbraced "," := by decide
  have hclose : Unbraced ")" := by decide
  simp only [text, unbraced_append, hopen, hcomma, hclose, and_true, true_and]

/-- Flattening keeps a text without braces. -/
theorem unbraced_flatten {e : Expr} (h : Unbraced e.text) : Unbraced e.flatten.text := by
  refine (Flattened.all_flattened structural_unbraced unbraced_text_of_child
    (fun {e parts} he hlength hparts => ?_) h).whole
  have hone {u : Expr} (hchildren : e.children = [u]) :
      ∃ v, parts = [v] ∧ Unbraced v.text := by
    obtain ⟨v, rfl⟩ := List.length_eq_one_iff.1 (hlength.trans (congrArg List.length hchildren))
    exact ⟨v, rfl, hparts v List.mem_cons_self⟩
  have htwo {u u' : Expr} (hchildren : e.children = [u, u']) :
      ∃ v v', parts = [v, v'] ∧ Unbraced v.text ∧ Unbraced v'.text := by
    obtain ⟨v, v', rfl⟩ := List.length_eq_two.1 (hlength.trans (congrArg List.length hchildren))
    obtain ⟨hv, hv'⟩ := forall_mem_pair.1 hparts
    exact ⟨v, v', rfl, hv, hv'⟩
  cases e with
  | number | var | invalid =>
    obtain rfl := List.length_eq_zero_iff.1 hlength
    exact he
  | element sequence index =>
    obtain ⟨v, rfl, hv⟩ := hone rfl
    exact unbraced_element.2 ⟨(unbraced_element.1 he).1, hv⟩
  | unary op u =>
    obtain ⟨v, rfl, hv⟩ := hone rfl
    exact (unbraced_unary op v).2 hv
  | binary op u u' =>
    obtain ⟨v, v', rfl, hv⟩ := htwo rfl
    exact (unbraced_binary op v v').2 hv
  | nary op es =>
    have hfill : fill es parts = parts := fill_eq hlength.symm
    rw [withChildren, hfill]
    exact (unbraced_nary op parts).2 hparts
  | call f primes u =>
    obtain ⟨v, rfl, hv⟩ := hone rfl
    exact unbraced_call.2 ⟨(unbraced_call.1 he).1, hv⟩
  | derivative body name =>
    obtain ⟨v, rfl, hv⟩ := hone rfl
    exact unbraced_derivative.2 ⟨hv, (unbraced_derivative.1 he).2⟩
  | derivativeAt body name point =>
    obtain ⟨v, v', rfl, hv, hv'⟩ := htwo rfl
    exact unbraced_derivativeAt.2 ⟨⟨hv, (unbraced_derivativeAt.1 he).1.2⟩, hv'⟩
  | invalidPart issue part =>
    obtain ⟨v, rfl, hv⟩ := hone rfl
    exact hv

end Expr

/-! ### What is read -/

namespace Reading

/-- The reader makes expressions from numbers, names and operators only. -/
theorem kept_unbraced (settings : Settings) (scope : Scope) :
    Kept settings scope (fun t => t.kind = .name → Unbraced t.lexeme)
      (fun _ e => Unbraced e.text) where
  invalid _ _ := (by decide : Unbraced "?")
  invalidPart _ _ he := he
  number _ _ _ _ := by
    unfold Reading.number
    dsimp only
    split <;> exact Number.unbraced_write _
  negative _ _ := Number.unbraced_write _
  sign _ he := (Expr.unbraced_unary _ _).2 he
  binary op _ _ hl hr := (Expr.unbraced_binary op _ _).2 ⟨hl, hr⟩
  var _ _ _ ht hkind hname := unbraced_of_nameParts (ht hkind) hname
  absolute he := Expr.unbraced_callNamed (by decide) he
  call ht hkind hname _ he := Expr.unbraced_callNamed (unbraced_of_nameParts (ht hkind) hname) he
  element {_ name e} _ ht hkind hname he := by
    have helement : Unbraced (Expr.element name e).text :=
      Expr.unbraced_element.2 ⟨unbraced_of_nameParts (ht hkind) hname, he⟩
    unfold Reading.element
    dsimp only
    split <;> exact helement
  openElement _ ht hkind hname he :=
    Expr.unbraced_element.2 ⟨unbraced_of_nameParts (ht hkind) hname, he⟩
  byX he := Expr.unbraced_derivative.2 ⟨he, (by decide : Unbraced "x")⟩
  byXAt he hpoint := Expr.unbraced_derivativeAt.2 ⟨⟨he, (by decide : Unbraced "x")⟩, hpoint⟩
  derivative ht hkind he := Expr.unbraced_derivative.2 ⟨he, ht hkind⟩
  derivativeAt ht hkind he hpoint := Expr.unbraced_derivativeAt.2 ⟨⟨he, ht hkind⟩, hpoint⟩

theorem unbraced_read (settings : Settings) (scope : Scope) (source : String) :
    Unbraced (read settings scope source).text := by
  refine group_kept (kept_unbraced settings scope) _ _ true fun t ht => ⟨fun hkind => ?_, by simp⟩
  exact (Token.isName_of_scanFrom (List.mem_filter.1 ht).1 hkind).unbraced

end Reading

namespace Environment

variable {env : Environment}

/-! ## The objects of an environment -/

/-- A formula that is accepted has a text without braces. -/
theorem unbraced_readSound {mode : ReadingMode} (hmode : mode.constant = false) {source : String}
    {e : Expr} (h : (env.readSound mode source).1 = .ok e) : Unbraced e.text := by
  have hread : Unbraced (env.read mode source).1.text := by
    have hraw := Reading.unbraced_read
      { negativeNumbers := env.options.negativeNumbers, noDecimals := mode.noDecimals } env.names
      source
    unfold read
    dsimp only
    rw [hmode]
    split
    · exact hraw
    · split
      · exact Expr.unbraced_flatten hraw
      · exact hraw
  unfold readSound at h
  dsimp only at h
  split at h
  · cases h
  · cases h
    exact hread

/-- The texts of all expressions of an environment are without braces. -/
def UnbracedExpressions (env : Environment) : Prop :=
  ∀ entry ∈ env.expressions, Unbraced entry.2.text

theorem read_expressions (mode : ReadingMode) (source : String) :
    (env.read mode source).2.expressions = env.expressions := by
  rw [read_snd_eq]
  cases env.readable? mode (.text source) <;> rfl

theorem readSound_expressions (mode : ReadingMode) (source : String) :
    (env.readSound mode source).2.expressions = env.expressions := by
  rw [readSound_snd, read_expressions]

theorem expr_expressions (s : Substitution) : (env.expr s).2.expressions = env.expressions := by
  cases s with
  | text source => exact read_expressions {} source
  | expr e => rfl

/-- Choosing the value of a parameter leaves the registered expressions alone. -/
theorem choose_expressions (name : String) (c : Parameter.Choice) :
    (env.choose name c).2.expressions = env.expressions := by
  obtain ⟨n, r, hchoose⟩ | ⟨_, _, _, _, _, -, hchoose⟩ | ⟨source, -, hafter⟩ :=
    choose_cases env name c
  · rw [hchoose]
  · rw [hchoose]
  · rw [hafter, read_expressions]

/-- No request registers an expression with braces in its text. -/
theorem Performs.unbracedExpressions {request : Request} {answer : Except Stop Unit}
    {env' : Environment} (h : Performs env request answer env') (hbefore : env.UnbracedExpressions) :
    env'.UnbracedExpressions := by
  have hchoose {name : String} {c : Parameter.Choice} {chosen : Except Stop Number × Environment}
      (h : env.choose name c = chosen) : chosen.2.UnbracedExpressions := by
    rw [UnbracedExpressions, ← h, choose_expressions]
    exact hbefore
  have hread {source : String} {sound : Except Failure Expr × Environment}
      (h : env.readSound {} source = sound) : sound.2.UnbracedExpressions := by
    rw [UnbracedExpressions, ← h, readSound_expressions]
    exact hbefore
  cases h with
  | parameter h => exact hchoose h
  | parameterStops h => exact hchoose h
  | @expression name formula e env' h =>
    have he : Unbraced e.text := unbraced_readSound rfl (congrArg Prod.fst h)
    exact List.forall_mem_cons.2
      ⟨he, fun entry hentry => hread h entry (List.mem_of_mem_filter hentry)⟩
  | expressionFails h => exact hread h
  | function h => exact hread h
  | functionFails h => exact hread h
  | @rule catalog equation description oneWay c h => cases catalog <;> exact hbefore
  | number | numberFails | ruleFails | disable | disableFails => exact hbefore

theorem unbracedExpressions_operate (h : env.UnbracedExpressions) (op : Operation) :
    (env.operate op).UnbracedExpressions := by
  have hsame {env' : Environment} (heq : env'.expressions = env.expressions) :
      env'.UnbracedExpressions := fun entry hentry => h entry (heq ▸ hentry)
  cases op with
  | request request => exact (performs_perform env request).unbracedExpressions h
  | read mode source => exact hsame (read_expressions mode source)
  | register e => exact h
  | evaluate object values => exact hsame (expr_expressions _)
  | compare c u v => exact hsame ((expr_expressions v).trans (expr_expressions u))
  | declare name =>
    change (env.addVariable name).UnbracedExpressions
    unfold addVariable
    split <;> exact h
  | adjust o => exact h
  | drawn r => exact h

/-- Whatever is done, the registered expressions are without braces. -/
theorem unbracedExpressions_after (h : env.UnbracedExpressions) (ops : List Operation) :
    (env.after ops).UnbracedExpressions := by
  induction ops generalizing env with
  | nil => exact h
  | cons op ops ih => exact ih (unbracedExpressions_operate h op)

/-- The object with a name that can be referred to is written without braces. -/
theorem unbraced_object (h : env.UnbracedExpressions) {name : String}
    (hname : Template.IsName name) {e : Expr} (he : env.object? name = some e) :
    Unbraced e.text := by
  unfold object? at he
  split at he
  · cases he
    exact Number.unbraced_write _
  · rename_i hexpression
    cases he
    exact h (name, e) (mem_of_lookup_eq_some hexpression)
  · split at he
    · cases he
      exact hname.unbraced
    · cases he

/-- What is put in place of a reference is parenthesized and without braces. -/
theorem parenthesized_objectText (h : env.UnbracedExpressions) :
    Template.Parenthesized (env.objectText? false) := by
  intro name text hname htext
  obtain ⟨e, he, rfl⟩ := Option.map_eq_some_iff.1 htext
  refine ⟨(e.text ++ ")").toList, by simp, ?_⟩
  exact unbraced_append.2 ⟨unbraced_object h hname he, by decide⟩

/-! ## Decoding -/

/-- Decoding replaces references to objects by their canonical texts in parentheses, and copies
everything else unchanged and in order. The references to objects that are left are those that stand
directly behind an odd number of further opening braces. -/
theorem decode_references (seed : UInt64) (ops : List Operation) (statement : String) :
    Template.Replaced
        (fun name => (((ofSeed seed).after ops).object? name).map fun e => "(" ++ e.text ++ ")")
        statement.toList (((ofSeed seed).after ops).decode statement false).toList ∧
      ∀ name, Template.IsName name → (((ofSeed seed).after ops).object? name).isSome = true →
        (Template.reference name <:+: (((ofSeed seed).after ops).decode statement false).toList ↔
          Template.Shadowed name statement.toList) := by
  have hstart : (ofSeed seed).UnbracedExpressions := List.forall_mem_nil _
  have hobject := parenthesized_objectText (unbracedExpressions_after hstart ops)
  rw [decode, Template.fill, String.toList_ofList]
  refine ⟨Template.replaced_fillChars _ _, fun name hname hknown => ?_⟩
  refine Template.reference_infix_fillChars_iff hobject hname ?_ _
  rwa [objectText?, Option.isSome_map]

/-- A reference behind two further braces is found, one to an unknown object is copied, and nothing
known is left. -/
theorem decode_references_behind_pair :
    let ops := [.request (.parameter "a" ⟨.fraction (-1) 2, none⟩),
      .request (.expression "f" "sin(x)^y")]
    let env := (ofSeed 1234).after ops
    let statement := "\x7b\x7b\x7b\x7bf\x7d\x7dy+\x7b\x7bg\x7d\x7d\x7b\x7ba\x7d\x7d"
    Template.IsName "f" ∧ (env.object? "f").isSome = true ∧
      env.decode statement false = "\x7b\x7b(sin(x)^y)y+\x7b\x7bg\x7d\x7d(-1/2)" ∧
      ¬Template.Shadowed "f" statement.toList := by
  intro ops env statement
  have hname : Template.IsName "f" := by decide
  have hknown : (env.object? "f").isSome = true := by decide +kernel
  have hdecode : env.decode statement false =
      "\x7b\x7b(sin(x)^y)y+\x7b\x7bg\x7d\x7d(-1/2)" := by decide +kernel
  refine ⟨hname, hknown, hdecode, fun hshadowed => ?_⟩
  have hleft : Template.reference "f" <:+: (env.decode statement false).toList :=
    ((decode_references 1234 ops statement).2 "f" hname hknown).2 hshadowed
  rw [hdecode] at hleft
  revert hleft
  decide

/-- Behind a single further brace a reference is not found. -/
theorem decode_leaves_reference :
    let env := (ofSeed 1234).after [.request (.parameter "a" ⟨.fraction 1 2, none⟩)]
    let statement := "\x7b\x7b\x7ba\x7d\x7d"
    (env.object? "a").isSome = true ∧ env.decode statement false = statement ∧
      Template.reference "a" <:+: (env.decode statement false).toList := by
  decide +kernel

end Environment

end Formulary
