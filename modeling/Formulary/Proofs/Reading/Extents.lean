import Formulary.Proofs.Reading.Groups
import Formulary.Proofs.Reading.Invariant

/-!
# How far groups and arguments reach

A group does not depend on what comes after the token that closes it. Arguments are neighbouring
tokens, and together they take in everything but the commas between them. Taking off the parentheses
around a text leaves out nothing but parentheses.
-/

namespace Formulary.Reading

variable {opens closes : TokenKind} {ts us part : List Token} {t : Token} {g : Enclosed}

/-- The group is the same whatever comes after it. -/
theorem closing_rest {depth : Nat} (h : closing opens closes depth ts = some g)
    (rest : List Token) :
    closing opens closes depth (g.inner ++ g.close :: rest) = some { g with rest } := by
  induction ts generalizing depth g with
  | nil => cases h
  | cons t ts ih =>
    have step {d : Nat} (h : (closing opens closes d ts).map (Enclosed.cons t) = some g) :
        ∃ inner, g.inner = t :: inner ∧
          (closing opens closes d (inner ++ g.close :: rest)).map (Enclosed.cons t) =
            some ⟨t :: inner, g.close, rest⟩ := by
      obtain ⟨g', hg', rfl⟩ := Option.map_eq_some_iff.1 h
      refine ⟨g'.inner, rfl, ?_⟩
      rw [show (g'.cons t).close = g'.close from rfl, ih hg']
      rfl
    by_cases hopens : t.kind = opens
    · rw [closing_open hopens] at h
      obtain ⟨inner, hinner, hstep⟩ := step h
      rw [hinner, List.cons_append, closing_open hopens]
      exact hstep
    · by_cases hcloses : t.kind = closes
      · cases depth with
        | zero =>
          rw [closing_end hopens hcloses] at h
          obtain rfl := Option.some.inj h
          rw [List.nil_append, closing_end hopens hcloses]
        | succ depth =>
          rw [closing_close hopens hcloses] at h
          obtain ⟨inner, hinner, hstep⟩ := step h
          rw [hinner, List.cons_append, closing_close hopens hcloses]
          exact hstep
      · rw [closing_other hopens hcloses] at h
        obtain ⟨inner, hinner, hstep⟩ := step h
        rw [hinner, List.cons_append, closing_other hopens hcloses]
        exact hstep

theorem closing_more {depth : Nat} (h : closing opens closes depth ts = some g)
    (more : List Token) :
    closing opens closes depth (ts ++ more) = some { g with rest := g.rest ++ more } := by
  rw [(closing_eq_some h).1, List.append_assoc, List.cons_append]
  exact closing_rest h (g.rest ++ more)

/-! ## Arguments -/

theorem prependArgument_nil {parts : List (List Token)} (hparts : parts ≠ []) :
    prependArgument [] parts = parts := by
  cases parts with
  | nil => exact absurd rfl hparts
  | cons part parts => rfl

theorem arguments_separator {depth : Int} (h : t.kind = .comma ∧ depth = 0) :
    arguments depth (t :: ts) = [] :: arguments depth ts := by
  rw [arguments, if_pos h]

/-- The first token is a comma that separates arguments, or it is in the first argument. -/
theorem arguments_cases (depth : Int) (t : Token) (ts : List Token) :
    (t.kind = .comma ∧ arguments depth (t :: ts) = [] :: arguments depth ts) ∨
      ∃ d first others, arguments d ts = first :: others ∧
        arguments depth (t :: ts) = (t :: first) :: others := by
  by_cases hcomma : t.kind = .comma ∧ depth = 0
  · exact .inl ⟨hcomma.1, arguments_separator hcomma⟩
  · obtain ⟨first, others, hparts⟩ := List.exists_cons_of_ne_nil
      (arguments_ne_nil (depthAfter depth t.kind) ts)
    refine .inr ⟨_, first, others, hparts, ?_⟩
    rw [arguments_cons hcomma, hparts]
    rfl

/-- Each argument is a part of the tokens without gaps. -/
theorem infix_of_arguments {depth : Int} {first : List Token} {others : List (List Token)}
    (h : arguments depth ts = first :: others) :
    first <+: ts ∧ ∀ part ∈ others, part <:+: ts := by
  induction ts generalizing depth first others with
  | nil =>
    obtain ⟨rfl, rfl⟩ := List.cons.inj h
    exact ⟨List.nil_prefix, List.forall_mem_nil _⟩
  | cons t ts ih =>
    rcases arguments_cases depth t ts with ⟨-, hcons⟩ | ⟨d, part, parts, htail, hcons⟩
    · obtain ⟨rfl, rfl⟩ := List.cons.inj (hcons.symm.trans h)
      refine ⟨List.nil_prefix, fun part hpart => ?_⟩
      obtain ⟨next, more, hmore⟩ := List.exists_cons_of_ne_nil (arguments_ne_nil depth ts)
      obtain ⟨hnext, hothers⟩ := ih hmore
      rw [hmore] at hpart
      rcases List.mem_cons.1 hpart with rfl | hpart
      · exact hnext.isInfix.trans (List.suffix_cons t ts).isInfix
      · exact (hothers part hpart).trans (List.suffix_cons t ts).isInfix
    · obtain ⟨rfl, rfl⟩ := List.cons.inj (hcons.symm.trans h)
      obtain ⟨hfirst, hothers⟩ := ih htail
      refine ⟨(List.prefix_cons_inj t).2 hfirst, fun part hpart => ?_⟩
      exact (hothers part hpart).trans (List.suffix_cons t ts).isInfix

/-- The tokens of an argument stand next to each other. -/
theorem infix_of_mem_arguments {depth : Int} (h : part ∈ arguments depth ts) : part <:+: ts := by
  obtain ⟨first, others, hcons⟩ := List.exists_cons_of_ne_nil (arguments_ne_nil depth ts)
  obtain ⟨hfirst, hothers⟩ := infix_of_arguments hcons
  rw [hcons] at h
  rcases List.mem_cons.1 h with rfl | h
  · exact hfirst.isInfix
  · exact hothers part h

/-- A token that is no comma is in one of the arguments. -/
theorem exists_argument (depth : Int) (ht : t ∈ ts) (hkind : t.kind ≠ .comma) :
    ∃ part ∈ arguments depth ts, t ∈ part := by
  induction ts generalizing depth with
  | nil => cases ht
  | cons u ts ih =>
    rcases arguments_cases depth u ts with ⟨hcomma, hcons⟩ | ⟨d, first, others, htail, hcons⟩
    · rcases List.mem_cons.1 ht with rfl | ht
      · exact absurd hcomma hkind
      · obtain ⟨part, hpart, htpart⟩ := ih depth ht
        rw [hcons]
        exact ⟨part, List.mem_cons_of_mem _ hpart, htpart⟩
    · rw [hcons]
      rcases List.mem_cons.1 ht with rfl | ht
      · exact ⟨_, List.mem_cons_self, List.mem_cons_self⟩
      · obtain ⟨part, hpart, htpart⟩ := ih d ht
        rw [htail] at hpart
        rcases List.mem_cons.1 hpart with rfl | hpart
        · exact ⟨_, List.mem_cons_self, List.mem_cons_of_mem _ htpart⟩
        · exact ⟨part, List.mem_cons_of_mem _ hpart, htpart⟩

/-! ## Redundant parentheses -/

/-- Only parentheses are taken off. -/
theorem mem_strip {outer : Span} (ht : t ∈ ts) (hopen : t.kind ≠ .openParen)
    (hclose : t.kind ≠ .closeParen) : t ∈ (strip ts outer).1 := by
  fun_induction strip ts outer with
  | case1 => exact ht
  | case2 outer u us hu inner close hclosing ih =>
    obtain ⟨rfl, hkind⟩ := closing_eq_some hclosing
    apply ih
    rcases List.mem_cons.1 ht with rfl | ht
    · exact absurd hu hopen
    · rcases List.mem_append.1 ht with ht | ht
      · exact ht
      · rw [List.mem_singleton.1 ht] at hclose
        exact absurd hkind hclose
  | case3 => exact ht
  | case4 => exact ht

end Formulary.Reading
