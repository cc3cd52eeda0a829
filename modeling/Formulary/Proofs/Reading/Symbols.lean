import Formulary.Proofs.Reading.Extents
import Formulary.Proofs.Reading.Leaves

/-!
# No symbol is passed over

A symbol that no formula has a use for becomes an issue wherever the reader comes upon it, and the
reader goes through all tokens of a group, of a subscript and of the argument of a function. It does
not go through all arguments of the derivative operator: beyond the expression, the variable and the
point, arguments of a closed call are dropped (`Surplus`), and a symbol in one of them leaves no
trace (`no_issue_of_surplus_symbol`). Every other symbol makes the expression one with an issue
(`hasIssue_of_symbol`).

An issue that the reader has come upon stays. It is the issue of the group, or a part of an operand,
and operands are only put together. So the induction goes backwards: a state without an issue comes
from a state without one (`Clean`).
-/

namespace Formulary.Reading

open Formulary.Expr State

variable {settings : Settings} {scope : Scope} {s : State} {ts us inner : List Token} {t u : Token}
  {g : Enclosed} {name : String}

/-! ## Dropped arguments -/

/-- The token is in an argument that is dropped: the fourth or a later one of a closed call of the
derivative operator. -/
inductive Surplus (scope : Scope) (tokens : List Token) (t : Token) : Prop
  | intro {before after part : List Token} {d u : Token} {g : Enclosed}
    (split : tokens = before ++ d :: u :: after)
    (called : d.kind = .name ∧ d.lexeme = "D" ∧ "D" ∉ scope)
    (opened : u.span.start = d.span.stop ∧ u.kind = .openParen)
    (closed : closing .openParen .closeParen 0 after = some g)
    (dropped : part ∈ (arguments 0 g.inner).drop 3) (mem : t ∈ part)

/-- Each symbol among the tokens is in an argument that is dropped. -/
def Explained (scope : Scope) (tokens : List Token) : Prop :=
  ∀ t ∈ tokens, t.kind = .symbol → Surplus scope tokens t

theorem Surplus.within (h : Surplus scope ts t) (hts : ts <:+: us) : Surplus scope us t := by
  obtain @⟨front, back, part, d, u, g, rfl, hcalled, hopened, hclosed, hdropped, hmem⟩ := h
  obtain ⟨before, after, rfl⟩ := hts
  have hsplit : before ++ (front ++ d :: u :: back) ++ after =
      (before ++ front) ++ d :: u :: (back ++ after) := by simp
  exact .intro hsplit hcalled hopened (closing_more hclosed after) hdropped hmem

theorem explained_nil : Explained scope [] := fun _ ht => nomatch ht

theorem explained_cons (ht : t.kind ≠ .symbol) (hts : Explained scope ts) :
    Explained scope (t :: ts) := by
  intro u hu hkind
  rcases List.mem_cons.1 hu with rfl | hu
  · exact absurd hkind ht
  · exact (hts u hu hkind).within (List.suffix_cons t ts).isInfix

theorem Explained.append (hts : Explained scope ts) (hus : Explained scope us) :
    Explained scope (ts ++ us) := by
  intro t ht hkind
  rcases List.mem_append.1 ht with ht | ht
  · exact (hts t ht hkind).within (List.prefix_append ts us).isInfix
  · exact (hus t ht hkind).within (List.suffix_append ts us).isInfix

/-! ## States without an issue -/

/-- Neither the group nor one of its operands has an issue. -/
structure Clean (s : State) : Prop where
  issue : s.issue = none
  operands : Sound s.operands

theorem not_clean_note (issue : Issue) : ¬ Clean (s.note issue) := by
  intro h
  have hnone := h.issue
  cases hissue : s.issue <;> simp [State.note, hissue] at hnone

theorem Clean.of_wait {negativeNumbers : Bool} {p : Pending}
    (h : Clean (s.wait negativeNumbers p)) : Clean s :=
  ⟨h.issue, (settles_reduceUntil _ _ _ _).sound h.operands⟩

/-- A state that is clean with an operand was so without, and the operand has no issue. -/
theorem Clean.of_pushOperand {negativeNumbers : Bool} {e : Expr} {start : Nat}
    (h : Clean (s.pushOperand negativeNumbers e start)) : Clean s ∧ e.hasIssue = false := by
  have push {s : State} (h : Clean { s with operands := e :: s.operands, afterOperand := true }) :
      Clean s ∧ e.hasIssue = false := by
    obtain ⟨he, hrest⟩ := List.forall_mem_cons.1 h.operands
    exact ⟨⟨h.issue, hrest⟩, he⟩
  unfold State.pushOperand at h
  split at h
  · obtain ⟨hwait, he⟩ := push h
    exact ⟨hwait.of_wait, he⟩
  · exact push h

theorem Clean.of_pushOperator {negativeNumbers : Bool} {op : BinaryOp} {span : Span}
    (h : Clean (s.pushOperator negativeNumbers op span)) : Clean s := by
  have waiting {s : State} {p : Pending}
      (h : Clean { s.wait negativeNumbers p with afterOperand := false }) : Clean s :=
    Clean.of_wait ⟨h.issue, h.operands⟩
  unfold State.pushOperator at h
  split at h
  · exact waiting h
  · split at h
    · exact waiting h
    · exact waiting h
    · exact absurd (waiting h) (not_clean_note _)

theorem Clean.of_closeImplicit {negativeNumbers : Bool}
    (h : Clean (s.closeImplicit negativeNumbers)) : Clean s := by
  unfold State.closeImplicit at h
  dsimp only at h
  split at h
  · exact ⟨h.issue, (settles_reduceUntil _ _ _ _).sound h.operands⟩
  · exact ⟨h.issue, (settles_reduceUntil _ _ _ _).sound h.operands⟩

/-- A group that becomes an expression without an issue had none at its end. -/
theorem Clean.of_finish {negativeNumbers : Bool} {outer : Span} (henough : Enough s)
    (h : (s.finish negativeNumbers outer).hasIssue = false) : Clean s := by
  have hlength := henough.reduceAll negativeNumbers
  unfold State.finish at h
  dsimp only at h
  cases hissue : s.issue with
  | some issue => simp [hissue] at h
  | none =>
    rw [hissue] at h
    refine ⟨hissue, (settles_reduceUntil negativeNumbers (fun _ => false) s.pending _).sound ?_⟩
    change Sound (s.reduceAll negativeNumbers).operands
    match hoperands : (s.reduceAll negativeNumbers).operands with
    | [] => exact List.forall_mem_nil _
    | [e] =>
      rw [hoperands] at h
      exact List.forall_mem_singleton.2 h
    | _ :: _ :: _ =>
      rw [hoperands] at hlength
      simp at hlength

/-! ## Names -/

/-- A part of a name that is not bound is all of the name. -/
theorem eq_of_mem_nameParts {lexeme : String} (h : name ∈ nameParts scope lexeme)
    (hname : name ∉ scope) : name = lexeme := by
  unfold nameParts at h
  split at h
  · exact List.mem_singleton.1 h
  · cases hsplit : Scope.split? scope lexeme with
    | none =>
      rw [hsplit] at h
      exact List.mem_singleton.1 h
    | some parts =>
      rw [hsplit] at h
      exact absurd ((Scope.cut_of_split? hsplit).bound name h) hname

section

variable {negativeNumbers : Bool} {start : Nat} {part : String} {parts : List String}

theorem pushParts_cons (hparts : parts ≠ []) :
    pushParts negativeNumbers s start (part :: parts) =
      pushParts negativeNumbers (s.pushOperand negativeNumbers (.var part) start)
        (start + part.utf8ByteSize) parts := by
  rw [pushParts]
  exact hparts

/-- The last part of a name is handed back. -/
theorem mem_pushParts (negativeNumbers : Bool) (s : State) (start : Nat) (hparts : parts ≠ []) :
    (pushParts negativeNumbers s start parts).2.1 ∈ parts := by
  induction parts generalizing s start with
  | nil => exact absurd rfl hparts
  | cons part parts ih =>
    by_cases hrest : parts = []
    · subst hrest
      exact List.mem_cons_self
    · rw [pushParts_cons hrest]
      exact List.mem_cons_of_mem _ (ih _ _ hrest)

/-- The parts of a name that become operands have no issue. -/
theorem clean_of_pushParts (negativeNumbers : Bool) (start : Nat) (hparts : parts ≠ [])
    (henough : Enough s) :
    Enough (pushParts negativeNumbers s start parts).1 ∧
      (Clean (pushParts negativeNumbers s start parts).1 → Clean s) := by
  induction parts generalizing s start with
  | nil => exact absurd rfl hparts
  | cons part parts ih =>
    by_cases hrest : parts = []
    · subst hrest
      exact ⟨henough, id⟩
    · rw [pushParts_cons hrest]
      obtain ⟨henough', hclean⟩ :=
        ih _ hrest (henough.pushOperand negativeNumbers (.var part) start)
      exact ⟨henough', fun h => (hclean h).of_pushOperand.1⟩

end

/-! ## Reading on -/

/-- From one state to another the symbols among the tokens are accounted for, unless there is an
issue. -/
def Accounts (scope : Scope) (tokens : List Token) (s s' : State) : Prop :=
  Enough s → Enough s' ∧ (Clean s' → Clean s ∧ Explained scope tokens)

section

variable {negativeNumbers : Bool} {s₁ s' : State} {e : Expr} {start : Nat}

theorem Accounts.trans (h : Accounts scope ts s s₁) (h' : Accounts scope us s₁ s') :
    Accounts scope (ts ++ us) s s' := by
  intro hs
  obtain ⟨hs₁, hclean⟩ := h hs
  obtain ⟨hs', hclean'⟩ := h' hs₁
  refine ⟨hs', fun hend => ?_⟩
  obtain ⟨hmiddle, hus⟩ := hclean' hend
  obtain ⟨hbegin, hts⟩ := hclean hmiddle
  exact ⟨hbegin, hts.append hus⟩

theorem accounts_nil (s : State) : Accounts scope [] s s :=
  fun hs => ⟨hs, fun h => ⟨h, explained_nil⟩⟩

/-- What is read from tokens becomes an operand. -/
theorem accounts_pushOperand (h : e.hasIssue = false → Explained scope ts) :
    Accounts scope ts s (s.pushOperand negativeNumbers e start) := by
  intro hs
  refine ⟨hs.pushOperand negativeNumbers e start, fun hclean => ?_⟩
  obtain ⟨hbefore, he⟩ := hclean.of_pushOperand
  exact ⟨hbefore, h he⟩

theorem accounts_issue (h : e.hasIssue = true) :
    Accounts scope ts s (s.pushOperand negativeNumbers e start) := by
  apply accounts_pushOperand
  intro hissue
  rw [h] at hissue
  cases hissue

theorem accounts_pushOperator (op : BinaryOp) (hkind : t.kind ≠ .symbol) :
    Accounts scope [t] s (s.pushOperator negativeNumbers op t.span) :=
  fun hs => ⟨hs.pushOperator negativeNumbers op t.span,
    fun h => ⟨h.of_pushOperator, explained_cons hkind explained_nil⟩⟩

theorem accounts_closeImplicit (hkind : t.kind ≠ .symbol) :
    Accounts scope [t] s (s.closeImplicit negativeNumbers) :=
  fun hs => ⟨hs.closeImplicit negativeNumbers,
    fun h => ⟨h.of_closeImplicit, explained_cons hkind explained_nil⟩⟩

theorem accounts_note (issue : Issue) : Accounts scope ts s (s.note issue) :=
  fun hs => ⟨hs.note issue, fun h => absurd h (not_clean_note issue)⟩

/-- The parts of a name become operands, but for the last one. -/
theorem accounts_parts
    (hparts : pushParts negativeNumbers s t.span.start (nameParts scope t.lexeme) =
      (s', name, start)) :
    Accounts scope [] s s' ∧ (name ∉ scope → name = t.lexeme) := by
  have hne := nameParts_ne_nil scope t.lexeme
  constructor
  · intro hs
    obtain ⟨henough, hclean⟩ :=
      clean_of_pushParts negativeNumbers t.span.start hne hs
    rw [hparts] at henough hclean
    exact ⟨henough, fun h => ⟨hclean h, explained_nil⟩⟩
  · have hmem := mem_pushParts negativeNumbers s t.span.start hne
    rw [hparts] at hmem
    exact eq_of_mem_nameParts hmem

/-- A name that stands for itself. -/
theorem accounts_var (hkind : t.kind = .name)
    (hparts : pushParts negativeNumbers s t.span.start (nameParts scope t.lexeme) =
      (s', name, start)) :
    Accounts scope [t] s (s'.pushOperand negativeNumbers (.var name) start) := by
  have hoperand : Accounts scope [t] s' (s'.pushOperand negativeNumbers (.var name) start) :=
    accounts_pushOperand fun _ => explained_cons (by simp [hkind]) explained_nil
  exact (accounts_parts hparts).1.trans hoperand

end

/-! ## Groups -/

/-- The symbols of a closed group are those inside it. -/
theorem explained_enclosed (ht : t.kind ≠ .symbol) (hu : u.kind ≠ .symbol)
    (h : Explained scope ts) : Explained scope (t :: (ts ++ [u])) :=
  explained_cons ht (h.append (explained_cons hu explained_nil))

/-- After a closed group the reader goes on behind the token that closes it. -/
theorem Accounts.enclosed (before : List Token) {s' : State}
    (h : Accounts scope (before ++ g.inner ++ [g.close]) s s')
    {s'' : State} (h' : Accounts scope g.rest s' s'') (hts : ts = g.inner ++ g.close :: g.rest) :
    Accounts scope (before ++ ts) s s'' := by
  have hsplit : before ++ ts = (before ++ g.inner ++ [g.close]) ++ g.rest := by
    rw [hts]
    simp
  rw [hsplit]
  exact h.trans h'

theorem explained_of_strip (outer : Span) (h : Explained scope (strip ts outer).1) :
    Explained scope ts := by
  intro t ht hkind
  have hstrip : t ∈ (strip ts outer).1 := mem_strip ht (by simp [hkind]) (by simp [hkind])
  exact (h t hstrip hkind).within (infix_of_strip ts outer)

/-- A symbol in the arguments of a call is in an argument that is dropped, of this call or of one
further inside. -/
def ArgumentsExplained (scope : Scope) (name : String) (tokens : List Token) : Prop :=
  ∀ t ∈ tokens, t.kind = .symbol → Surplus scope tokens t ∨
    (name = "D" ∧ ∃ part ∈ (arguments 0 tokens).drop 3, t ∈ part)

/-- The symbols of a closed call are those of its arguments. -/
theorem explained_call (ht : t.kind = .name)
    (hcall : u.span.start = t.span.stop ∧ u.kind = .openParen ∧ name ∉ scope)
    (hname : name = t.lexeme) (hg : closing .openParen .closeParen 0 ts = some g)
    (hinner : ArgumentsExplained scope name g.inner) :
    Explained scope (t :: u :: (g.inner ++ [g.close])) := by
  have hclose := (closing_eq_some hg).2
  intro v hv hkind
  have hmem : v ∈ g.inner := by
    simp only [List.mem_cons, List.mem_append, List.not_mem_nil, or_false] at hv
    rcases hv with rfl | rfl | hv | rfl
    · rw [ht] at hkind
      cases hkind
    · rw [hcall.2.1] at hkind
      cases hkind
    · exact hv
    · rw [hclose] at hkind
      cases hkind
  rcases hinner v hmem hkind with hsurplus | ⟨rfl, part, hpart, hvpart⟩
  · exact hsurplus.within ⟨[t, u], [g.close], by simp⟩
  · have hsplit : t :: u :: (g.inner ++ [g.close]) =
        [] ++ t :: u :: (g.inner ++ g.close :: []) := rfl
    exact .intro hsplit ⟨ht, hname.symm, hcall.2.2⟩ ⟨hcall.1, hcall.2.1⟩
      (closing_rest hg []) hpart hvpart

/-- A symbol in one of the arguments that are read is accounted for there. -/
theorem explained_arguments (h : ∀ part ∈ (arguments 0 ts).take 3, Explained scope part) :
    ArgumentsExplained scope "D" ts := by
  intro t ht hkind
  obtain ⟨part, hpart, htpart⟩ := exists_argument 0 ht (by simp [hkind])
  rw [← List.take_append_drop 3 (arguments 0 ts)] at hpart
  rcases List.mem_append.1 hpart with hread | hdropped
  · left
    have hnear := infix_of_mem_arguments (List.mem_of_mem_take hread)
    exact (h part hread t htpart hkind).within hnear
  · right
    exact ⟨rfl, part, hdropped, htpart⟩

/-- A derivative without an issue is one by a name. -/
theorem explained_variable (scope : Scope) {body : Expr} {span : Span} {point : Option Expr}
    (h : (derivativeBy body ts span point).hasIssue = false) :
    Explained scope ts ∧ body.hasIssue = false ∧ ∀ e ∈ point, e.hasIssue = false := by
  unfold derivativeBy at h
  dsimp only at h
  split at h
  · split at h
    · rename_i hkind
      refine ⟨explained_cons (by simp [hkind]) explained_nil, ?_⟩
      cases point with
      | none => exact ⟨by simpa using h, nofun⟩
      | some e => simpa using h
    · simp at h
  · simp at h

/-- Each step of the reader accounts for the symbols that it reads, unless there is an issue. -/
theorem steps_accounts (settings : Settings) (scope : Scope) :
    Steps settings scope (fun tokens _ e => e.hasIssue = false → Explained scope tokens)
      (fun _ tokens s last => Accounts scope tokens s last)
      (fun name tokens _ e => e.hasIssue = false → ArgumentsExplained scope name tokens) where
  empty _ hissue := by simp at hissue
  group {_ outer _} _ inside hissue := by
    obtain ⟨henough, hclean⟩ := inside (Nat.zero_le _)
    exact explained_of_strip outer (hclean (.of_finish henough hissue)).2
  nil _ s := accounts_nil s
  closeParen ht rest := (accounts_closeImplicit (by simp [ht])).trans rest
  parentheses {_ _ _ t _ _ _} ht hg inside rest := by
    obtain ⟨hts, hclose⟩ := closing_eq_some hg
    refine Accounts.enclosed [t] (accounts_pushOperand fun hissue => ?_) rest hts
    exact explained_enclosed (by simp [ht]) (by simp [hclose]) (inside hissue)
  openParen _ _ _ := accounts_issue (hasIssue_invalidPart _ _)
  bars {_ _ _ t _ _ _} ht hg inside rest := by
    obtain ⟨hts, hclose⟩ := closingBar_eq_some hg
    refine Accounts.enclosed [t] (accounts_pushOperand fun hissue => ?_) rest hts
    rw [callNamed, hasIssue_call] at hissue
    exact explained_enclosed (by simp [ht]) (by simp [hclose]) (inside hissue)
  openBar _ _ _ := by
    apply accounts_issue
    rw [callNamed, hasIssue_call]
    exact hasIssue_invalidPart _ _
  number {_ _ _ t _} ht rest := by
    have hliteral : Explained scope [t] := explained_cons (by simp [ht]) explained_nil
    exact (accounts_pushOperand fun _ => hliteral).trans rest
  lastName ht hparts := accounts_var ht hparts
  name ht hparts _ _ rest := (accounts_var ht hparts).trans rest
  call {_ _ _ _ t u _ _ _ _ _} ht hparts hcall hg inside rest := by
    obtain ⟨hparted, hname⟩ := accounts_parts hparts
    refine Accounts.enclosed [t, u] ?_ rest (closing_eq_some hg).1
    refine hparted.trans (accounts_pushOperand fun hissue => ?_)
    exact explained_call ht hcall (hname hcall.2.2) hg (inside hissue)
  openCall _ hparts _ _ _ :=
    (accounts_parts hparts).1.trans (accounts_issue (hasIssue_invalidPart _ _))
  subscript {_ _ _ _ t u _ _ _ _ _} ht hparts hbracket hg _ inside rest := by
    obtain ⟨hts, hclose⟩ := closing_eq_some hg
    refine Accounts.enclosed [t, u] ?_ rest hts
    refine (accounts_parts hparts).1.trans (accounts_pushOperand fun hissue => ?_)
    rw [element_eq hissue, hasIssue_element] at hissue
    exact explained_cons (by simp [ht])
      (explained_enclosed (by simp [hbracket.2]) (by simp [hclose]) (inside hissue))
  nestedSubscript {_ _ _ _ t u _ _ _ _} _ hparts _ hg rest := by
    refine Accounts.enclosed [t, u] ?_ rest (closing_eq_some hg).1
    exact (accounts_parts hparts).1.trans (accounts_issue (hasIssue_invalidPart _ _))
  openSubscript _ hparts _ _ _ _ :=
    (accounts_parts hparts).1.trans (accounts_issue (hasIssue_invalidPart _ _))
  openNestedSubscript _ hparts _ _ :=
    (accounts_parts hparts).1.trans (accounts_issue (hasIssue_invalidPart _ _))
  operator ht rest := (accounts_pushOperator _ (by simp [ht])).trans rest
  unrecognized {_ _ _ t _} _ rest := (accounts_note _ : Accounts scope [t] _ _).trans rest
  derivative harguments inside hissue := by
    rw [hasIssue_derivative] at hissue
    apply explained_arguments
    rw [harguments]
    exact List.forall_mem_singleton.2 (inside hissue)
  derivativeByName harguments inside hissue := by
    obtain ⟨hx, hbody, -⟩ := explained_variable scope hissue
    apply explained_arguments
    rw [harguments]
    exact forall_mem_pair.2 ⟨inside hbody, hx⟩
  derivativeAtPoint harguments inside insidePoint hissue := by
    obtain ⟨hx, hbody, hpoint⟩ := explained_variable scope hissue
    apply explained_arguments
    rw [harguments]
    exact List.forall_mem_cons.2
      ⟨inside hbody, forall_mem_pair.2 ⟨hx, insidePoint (hpoint _ rfl)⟩⟩
  function _ inside hissue t ht hkind := by
    rw [callNamed, hasIssue_call] at hissue
    exact .inl (inside hissue t ht hkind)

theorem elements_accounts (settings : Settings) (scope : Scope) (outer : Span)
    (tokens : List Token) (s : State) :
    Accounts scope tokens s (elements settings scope outer tokens s) :=
  (steps_accounts settings scope).reads.2.1 outer tokens s

theorem explained_of_group {outer : Span} (h : (group settings scope ts outer).hasIssue = false) :
    Explained scope ts :=
  (steps_accounts settings scope).reads.1 ts outer h

/-- A symbol makes an expression one with an issue, unless it is in an argument that is dropped. -/
theorem hasIssue_of_symbol (settings : Settings) (scope : Scope) (source : String)
    (ht : t ∈ Token.scan source) (hkind : t.kind = .symbol) :
    (read settings scope source).hasIssue = true ∨ Surplus scope (tokensOf source) t := by
  cases hissue : (read settings scope source).hasIssue with
  | true => exact .inl rfl
  | false =>
    right
    have hmem : t ∈ tokensOf source := List.mem_filter.2 ⟨ht, by simp [hkind]⟩
    exact explained_of_group hissue t hmem hkind

/-- The symbol stands in a subscript between bars, and the name of the sequence is bound. Nothing is
dropped, since no derivative operator is called. -/
theorem hasIssue_of_symbol_nested :
    ∃ t ∈ Token.scan "2|a[k#]|", t.kind = .symbol ∧ ¬Surplus ["a"] (tokensOf "2|a[k#]|") t ∧
      (read {} ["a"] "2|a[k#]|").hasIssue = true := by
  have hscan : (Token.scan "2|a[k#]|")[5]? = some ⟨.symbol, ⟨5, 6⟩, "#"⟩ := by decide +kernel
  have hmem := List.mem_of_getElem? hscan
  have hcalls : ∀ d ∈ tokensOf "2|a[k#]|", d.lexeme ≠ "D" := by decide +kernel
  have hkept : ¬Surplus ["a"] (tokensOf "2|a[k#]|") ⟨.symbol, ⟨5, 6⟩, "#"⟩ := by
    rintro ⟨hsplit, ⟨-, hname, -⟩, -, -, -, -⟩
    exact hcalls _ (hsplit ▸ List.mem_append_right _ List.mem_cons_self) hname
  exact ⟨_, hmem, rfl, hkept, (hasIssue_of_symbol {} ["a"] _ hmem rfl).resolve_right hkept⟩

/-- A symbol in an argument that is dropped leaves no issue. -/
theorem no_issue_of_surplus_symbol :
    (∃ t ∈ Token.scan "D(x,x,1,#)", t.kind = .symbol) ∧
      (read {} [] "D(x,x,1,#)").hasIssue = false := by
  constructor
  · decide +kernel
  · decide +kernel

end Formulary.Reading
