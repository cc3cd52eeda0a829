import Formulary.Scope
import Mathlib.Data.List.Lex

/-!
# Cutting names into bound names

A name is cut by trying the bound names that it begins with, the longest first, and cutting what is
left in the same way (`search`). What is left is shorter, so the search comes to an end.

`Longest` says what it should give, without saying how: of all ways to put the name together from
bound names the one whose lengths are lexicographically greatest, or nothing if there is no way. If
this is given for what is left behind each beginning, the first beginning that works gives it for the
whole name (`longest_findSome?`). There is at most one such answer, since parts of equal lengths
are equal (`Longest.unique`), so it does not matter in which way the beginnings are enumerated.
-/

namespace Formulary.Scope

variable {scope : Scope} {text part rest : String} {parts other : List String} {cs : List Char}

/-! ## What a name is put together from -/

/-- A text is put together from bound names: it is bound itself, or it is a sequence of bound names of
which none is empty. -/
structure Cut (scope : Scope) (text : String) (parts : List String) : Prop where
  bound : ∀ part ∈ parts, part ∈ scope
  join : String.join parts = text
  shape : parts = [text] ∨ parts ≠ [] ∧ ∀ part ∈ parts, part ≠ ""

/-- The numbers of bytes of some texts. -/
def sizes (parts : List String) : List Nat := parts.map String.utf8ByteSize

/-- Of all ways to put a text together from bound names this is the one with the lexicographically
greatest lengths, or there is none. -/
def Longest (scope : Scope) (text : String) : Option (List String) → Prop
  | some parts => scope.Cut text parts ∧
    ∀ other, scope.Cut text other → ¬ List.Lex (· < ·) (sizes parts) (sizes other)
  | none => ∀ other, ¬ scope.Cut text other

theorem cut_singleton (h : text ∈ scope) : scope.Cut text [text] :=
  ⟨List.forall_mem_singleton.2 h, by rw [String.join_cons, String.join_nil, String.append_empty],
    .inl rfl⟩

theorem Cut.ne_nil (h : scope.Cut text parts) : parts ≠ [] := by
  rcases h.shape with rfl | ⟨hne, -⟩
  · exact List.cons_ne_nil text []
  · exact hne

/-- A text that is not bound begins with one of its parts, and is put together from the others
behind it. -/
theorem Cut.exists_cons (h : scope.Cut text parts) (htext : text ∉ scope) :
    ∃ part rest others, parts = part :: others ∧ part ∈ scope ∧ part ≠ "" ∧ text = part ++ rest ∧
      scope.Cut rest others := by
  obtain ⟨hbound, hjoin, rfl | ⟨hne, hparts⟩⟩ := h
  · exact absurd (hbound text List.mem_cons_self) htext
  obtain ⟨part, others, rfl⟩ := List.exists_cons_of_ne_nil hne
  obtain ⟨hpart, hothers⟩ := List.forall_mem_cons.1 hbound
  obtain ⟨hnonempty, hrest⟩ := List.forall_mem_cons.1 hparts
  rw [String.join_cons] at hjoin
  refine ⟨part, _, others, rfl, hpart, hnonempty, hjoin.symm, hothers, rfl, .inr ⟨?_, hrest⟩⟩
  rintro rfl
  rw [String.join_nil, String.append_empty] at hjoin
  exact htext (hjoin ▸ hpart)

theorem Cut.cons (h : scope.Cut rest parts) (hpart : part ∈ scope) (hnonempty : part ≠ "")
    (hrest : rest ≠ "") : scope.Cut (part ++ rest) (part :: parts) := by
  refine ⟨List.forall_mem_cons.2 ⟨hpart, h.bound⟩, by rw [String.join_cons, h.join],
    .inr ⟨List.cons_ne_nil _ _, List.forall_mem_cons.2 ⟨hnonempty, ?_⟩⟩⟩
  rcases h.shape with rfl | ⟨-, hparts⟩
  · exact List.forall_mem_singleton.2 hrest
  · exact hparts

/-! ## Beginnings and lengths -/

/-- Two beginnings of a text that have the same length are the same. -/
theorem append_inj_of_size {p q r s : String} (h : p ++ r = q ++ s)
    (hsize : p.utf8ByteSize = q.utf8ByteSize) : p = q ∧ r = s := by
  have hp : p = q := by
    have hlists := congrArg String.toList h
    rw [String.toList_append, String.toList_append, List.append_eq_append_iff] at hlists
    -- one of them is the other with some more characters, which have no bytes
    rcases hlists with ⟨more, hmore, -⟩ | ⟨more, hmore, -⟩
    all_goals
      have hlonger := congrArg String.ofList hmore
      rw [String.ofList_append, String.ofList_toList, String.ofList_toList] at hlonger
      rw [hlonger, String.utf8ByteSize_append] at hsize
      have hempty : (String.ofList more).utf8ByteSize = 0 := by omega
      rw [String.utf8ByteSize_eq_zero_iff.1 hempty, String.append_empty] at hlonger
    · exact hlonger.symm
    · exact hlonger
  exact ⟨hp, (String.append_right_inj p).1 (hp ▸ h)⟩

/-- Parts with the same lengths that make the same text are the same. -/
theorem eq_of_sizes (hjoin : String.join parts = String.join other)
    (hsizes : sizes parts = sizes other) : parts = other := by
  induction parts generalizing other with
  | nil => exact (List.map_eq_nil_iff.1 hsizes.symm).symm
  | cons part parts ih =>
    cases other with
    | nil => cases hsizes
    | cons q other =>
      obtain ⟨hsize, hrest⟩ := List.cons.inj hsizes
      rw [String.join_cons, String.join_cons] at hjoin
      obtain ⟨hpart, hothers⟩ := append_inj_of_size hjoin hsize
      rw [hpart, ih hothers hrest]

/-- Only one way to cut a text prefers the longest parts. -/
theorem Longest.unique {a b : Option (List String)} (ha : scope.Longest text a)
    (hb : scope.Longest text b) : a = b := by
  cases a with
  | none =>
    cases b with
    | none => rfl
    | some parts => exact absurd hb.1 (ha parts)
  | some parts =>
    cases b with
    | none => exact absurd ha.1 (hb parts)
    | some other =>
      have hjoin := ha.1.join.trans hb.1.join.symm
      have hsizes : sizes parts = sizes other :=
        Std.Trichotomous.trichotomous _ _ (ha.2 other hb.1) (hb.2 parts ha.1)
      rw [eq_of_sizes hjoin hsizes]

/-! ## Trying the beginnings -/

/-- A name that is bound as a whole is not cut. -/
theorem longest_whole (h : text ∈ scope) : scope.Longest text (some [text]) := by
  refine ⟨cut_singleton h, fun other hother hlex => ?_⟩
  obtain ⟨-, hjoin, rfl | ⟨-, hparts⟩⟩ := hother
  · exact List.lex_irrefl (fun n => Nat.lt_irrefl n) _ hlex
  -- no part is longer than the text, and a second part leaves less for the first
  cases other with
  | nil => cases hlex
  | cons part others =>
    have hsize := congrArg String.utf8ByteSize hjoin
    rw [String.join_cons, String.utf8ByteSize_append] at hsize
    cases others with
    | nil =>
      rcases List.cons_lex_cons_iff.1 hlex with hlt | ⟨-, hnil⟩
      · omega
      · cases hnil
    | cons next others =>
      have hnext : next.utf8ByteSize ≠ 0 :=
        mt String.utf8ByteSize_eq_zero_iff.1 (hparts next (by simp))
      rw [String.join_cons, String.utf8ByteSize_append] at hsize
      rcases List.cons_lex_cons_iff.1 hlex with hlt | ⟨heq, -⟩ <;> omega

/-- The bound names that a text begins with, each with what is to be found behind it. -/
structure Begins (scope : Scope) (text : String) (found : String → Option (List String))
    (part : String) : Prop where
  bound : part ∈ scope
  nonempty : part ≠ ""
  behind : ∃ rest, text = part ++ rest ∧ scope.Longest rest (found part)

/-- The first beginning, from the longest on, that leaves something that can be cut. -/
theorem longest_findSome? {found : String → Option (List String)} {beginnings : List String}
    (htext : text ∉ scope) (hbegins : ∀ part ∈ beginnings, scope.Begins text found part)
    (hall : ∀ part rest, part ∈ scope → part ≠ "" → text = part ++ rest → part ∈ beginnings)
    (hsorted : beginnings.Pairwise fun p q => q.utf8ByteSize ≤ p.utf8ByteSize) :
    scope.Longest text (beginnings.findSome? fun part => (found part).map (part :: ·)) := by
  -- a way to put the text together starts with a beginning that leaves something
  have hcut {other : List String} (hother : scope.Cut text other) :
      ∃ part rest others, other = part :: others ∧ part ∈ beginnings ∧ text = part ++ rest ∧
        scope.Cut rest others ∧ scope.Longest rest (found part) := by
    obtain ⟨part, rest, others, rfl, hpart, hnonempty, rfl, hrest⟩ := hother.exists_cons htext
    have hmem := hall part rest hpart hnonempty rfl
    obtain ⟨behind, happend, hlongest⟩ := (hbegins part hmem).behind
    obtain rfl := (String.append_right_inj part).1 happend
    exact ⟨part, rest, others, rfl, hmem, rfl, hrest, hlongest⟩
  cases hfound : beginnings.findSome? fun part => (found part).map (part :: ·) with
  | none =>
    intro other hother
    obtain ⟨part, rest, others, rfl, hmem, -, hrest, hlongest⟩ := hcut hother
    have hnone := List.findSome?_eq_none_iff.1 hfound part hmem
    rw [Option.map_eq_none_iff.1 hnone] at hlongest
    exact hlongest others hrest
  | some parts =>
    obtain ⟨before, part, after, rfl, hpart, hbefore⟩ := List.findSome?_eq_some_iff.1 hfound
    obtain ⟨others, hothers, rfl⟩ := Option.map_eq_some_iff.1 hpart
    have hmem : part ∈ before ++ part :: after := by simp
    obtain ⟨hbound, hnonempty, rest, rfl, hlongest⟩ := hbegins part hmem
    have hrest : rest ≠ "" := by
      rintro rfl
      exact htext (by rwa [String.append_empty])
    rw [hothers] at hlongest
    refine ⟨hlongest.1.cons hbound hnonempty hrest, fun other hother hlex => ?_⟩
    obtain ⟨q, rest', qs, rfl, hq, happend, hqs, hlongest'⟩ := hcut hother
    rcases List.mem_append.1 hq with hq | hq
    · -- the beginnings before this one leave nothing that can be cut
      rw [Option.map_eq_none_iff.1 (hbefore q hq)] at hlongest'
      exact hlongest' qs hqs
    · have hle : q.utf8ByteSize ≤ part.utf8ByteSize := by
        rcases List.mem_cons.1 hq with rfl | hq
        · exact Nat.le_refl _
        · exact (List.pairwise_cons.1 (List.pairwise_append.1 hsorted).2.1).1 q hq
      rcases List.cons_lex_cons_iff.1 hlex with hlt | ⟨heq, htail⟩
      · omega
      · obtain ⟨rfl, rfl⟩ := append_inj_of_size happend heq
        exact hlongest.2 qs hqs htail

/-! ## By the numbers of characters -/

theorem ofList_take_append_drop (cs : List Char) (n : Nat) :
    String.ofList cs = String.ofList (cs.take n) ++ String.ofList (cs.drop n) := by
  rw [← String.ofList_append, List.take_append_drop]

/-- A text is cut behind a beginning by the number of characters of the beginning. -/
theorem take_drop_of_append (h : String.ofList cs = part ++ rest) :
    String.ofList (cs.take part.length) = part ∧ String.ofList (cs.drop part.length) = rest := by
  have hlists : cs = part.toList ++ rest.toList := by
    rw [← String.toList_append, ← h, String.toList_ofList]
  rw [hlists, List.take_left' String.length_toList, List.drop_left' String.length_toList,
    String.ofList_toList, String.ofList_toList]
  exact ⟨rfl, rfl⟩

theorem length_ofList_take {n : Nat} (h : n ≤ cs.length) :
    (String.ofList (cs.take n)).length = n := by
  rw [String.length_ofList, List.length_take, Nat.min_eq_left h]

theorem utf8ByteSize_take_le {m n : Nat} (h : m ≤ n) :
    (String.ofList (cs.take m)).utf8ByteSize ≤ (String.ofList (cs.take n)).utf8ByteSize := by
  have hsize := congrArg String.utf8ByteSize (ofList_take_append_drop (cs.take n) m)
  rw [List.take_take, Nat.min_eq_left h, String.utf8ByteSize_append] at hsize
  omega

/-- A bound name that a text begins with is shorter than a text that is not bound. -/
theorem length_lt_of_append (htext : String.ofList cs ∉ scope) (hpart : part ∈ scope)
    (h : String.ofList cs = part ++ rest) : part.length < cs.length := by
  have hrest := (take_drop_of_append h).2
  refine Nat.lt_of_not_le fun hle => htext ?_
  rw [List.drop_of_length_le hle] at hrest
  rwa [h, ← hrest, String.ofList_nil, String.append_empty]

/-- The beginnings of a text, by the numbers of their characters from the greatest on. -/
def byLength (scope : Scope) (cs : List Char) : List String :=
  ((List.range' 1 (cs.length - 1)).reverse.filter fun n =>
    scope.contains (String.ofList (cs.take n))).map fun n => String.ofList (cs.take n)

theorem mem_byLength :
    part ∈ byLength scope cs ↔
      ∃ n, 0 < n ∧ n < cs.length ∧ String.ofList (cs.take n) ∈ scope ∧
        String.ofList (cs.take n) = part := by
  simp only [byLength, List.mem_map, List.mem_filter, List.mem_reverse, List.mem_range'_1,
    List.contains_iff_mem]
  refine exists_congr fun n => ⟨fun ⟨⟨hn, hbound⟩, heq⟩ => ⟨by omega, by omega, hbound, heq⟩,
    fun ⟨hpos, hlt, hbound, heq⟩ => ⟨⟨by omega, hbound⟩, heq⟩⟩

theorem sorted_byLength :
    (byLength scope cs).Pairwise fun p q => q.utf8ByteSize ≤ p.utf8ByteSize := by
  refine List.pairwise_map.2 (List.Pairwise.filter _ (List.pairwise_reverse.2 ?_))
  exact (List.pairwise_lt_range' 1).imp fun hlt => utf8ByteSize_take_le (Nat.le_of_lt hlt)

theorem splitChars_succ (fuel : Nat) : scope.splitChars (fuel + 1) cs =
    if scope.contains (String.ofList cs) then some [String.ofList cs]
    else (byLength scope cs).findSome? fun part =>
      (scope.splitChars fuel (cs.drop part.length)).map (part :: ·) := by
  rw [splitChars, byLength, List.findSome?_map, ← List.head?_filterMap, ← List.head?_filterMap,
    List.filterMap_filter]
  refine congrArg (ite _ _) (congrArg List.head? (List.filterMap_congr fun n hn => ?_))
  have hle : n ≤ cs.length := by
    rw [List.mem_reverse, List.mem_range'_1] at hn
    omega
  simp only [Function.comp, length_ofList_take hle]

theorem longest_splitChars {fuel : Nat} (h : cs.length < fuel) :
    scope.Longest (String.ofList cs) (scope.splitChars fuel cs) := by
  induction fuel generalizing cs with
  | zero => cases h
  | succ fuel ih =>
    rw [splitChars_succ]
    split
    · rename_i hbound
      exact longest_whole (List.contains_iff_mem.1 hbound)
    · rename_i htext
      rw [List.contains_iff_mem] at htext
      refine longest_findSome? htext (fun part hpart => ?_) (fun part rest hbound hne happend => ?_)
        sorted_byLength
      · obtain ⟨n, hpos, hlt, hbound, rfl⟩ := mem_byLength.1 hpart
        have hlength := length_ofList_take (Nat.le_of_lt hlt)
        have hne : String.ofList (cs.take n) ≠ "" := fun hempty => by
          rw [hempty, String.length_empty] at hlength
          omega
        refine ⟨hbound, hne, _, ofList_take_append_drop cs n, ?_⟩
        rw [hlength]
        refine ih ?_
        rw [List.length_drop]
        omega
      · have htake := (take_drop_of_append happend).1
        have hpos : part.length ≠ 0 := mt String.length_eq_zero_iff.1 hne
        exact mem_byLength.2 ⟨part.length, Nat.pos_of_ne_zero hpos,
          length_lt_of_append htext hbound happend, by rwa [htake], htake⟩

/-- The program prefers the longest parts. -/
theorem longest_split? (scope : Scope) (name : String) :
    scope.Longest name (scope.split? name) := by
  have h : scope.Longest (String.ofList name.toList) (scope.splitChars _ name.toList) :=
    longest_splitChars (Nat.lt_succ_self _)
  rwa [String.ofList_toList, String.length_toList] at h

theorem cut_of_split? (h : scope.split? text = some parts) : scope.Cut text parts := by
  have hlongest := longest_split? scope text
  rw [h] at hlongest
  exact hlongest.1

/-! ## By the bound names -/

/-- The names that a text begins with, each of them once and the longest first. The empty name is
left out. -/
def beginnings (names : List String) (cs : List Char) : List String :=
  (names.filter fun name => !name.isEmpty && name.toList.isPrefixOf cs).eraseDups.mergeSort
    fun p q => q.utf8ByteSize ≤ p.utf8ByteSize

theorem mem_beginnings {names : List String} :
    part ∈ beginnings names cs ↔
      part ∈ names ∧ part ≠ "" ∧ ∃ rest, String.ofList cs = part ++ rest := by
  have hprefix : part.toList <+: cs ↔ ∃ rest, String.ofList cs = part ++ rest := by
    constructor
    · rintro ⟨more, rfl⟩
      exact ⟨String.ofList more, by rw [String.ofList_append, String.ofList_toList]⟩
    · rintro ⟨rest, h⟩
      exact ⟨rest.toList, by rw [← String.toList_append, ← h, String.toList_ofList]⟩
  simp only [beginnings, List.mem_mergeSort, List.mem_eraseDups, List.mem_filter, Bool.and_eq_true,
    Bool.not_eq_true', List.isPrefixOf_iff_prefix, hprefix, ← Bool.not_eq_true, String.isEmpty_iff,
    ne_eq]

theorem sorted_beginnings (names : List String) (cs : List Char) :
    (beginnings names cs).Pairwise fun p q => q.utf8ByteSize ≤ p.utf8ByteSize := by
  refine (List.pairwise_mergeSort (fun p q r hpq hqr => ?_) (fun p q => ?_) _).imp
    of_decide_eq_true
  · exact decide_eq_true (Nat.le_trans (of_decide_eq_true hqr) (of_decide_eq_true hpq))
  · rw [Bool.or_eq_true, decide_eq_true_iff, decide_eq_true_iff]
    exact Nat.le_total _ _

theorem length_drop_beginning {names : List String} (h : part ∈ beginnings names cs) :
    (cs.drop part.length).length < cs.length := by
  obtain ⟨-, hne, rest, happend⟩ := mem_beginnings.1 h
  have hlength := congrArg String.length happend
  rw [String.length_ofList, String.length_append] at hlength
  have hpos : part.length ≠ 0 := mt String.length_eq_zero_iff.1 hne
  rw [List.length_drop]
  omega

/-- Cuts a text into bound names: a bound text is its own single part, and otherwise the first
beginning behind which the text can be cut is the first part. -/
def search (isBound : String → Bool) (names : List String) (cs : List Char) :
    Option (List String) :=
  if isBound (String.ofList cs) then some [String.ofList cs]
  else (beginnings names cs).attach.findSome? fun ⟨part, _⟩ =>
    (search isBound names (cs.drop part.length)).map (part :: ·)
termination_by cs.length
decreasing_by exact length_drop_beginning ‹_›

theorem search_eq (isBound : String → Bool) (names : List String) (cs : List Char) :
    search isBound names cs =
      if isBound (String.ofList cs) then some [String.ofList cs]
      else (beginnings names cs).findSome? fun part =>
        (search isBound names (cs.drop part.length)).map (part :: ·) := by
  rw [search]
  refine congrArg (ite _ _) ((List.findSome?_subtype fun _ _ => rfl).trans ?_)
  rw [List.unattach_attach]
  rfl

section

variable {isBound : String → Bool} (hbound : ∀ name, isBound name = true ↔ name ∈ scope)

include hbound

/-- The search by names prefers the longest parts as well. -/
theorem longest_search (cs : List Char) :
    scope.Longest (String.ofList cs) (search isBound scope cs) := by
  induction cs using search.induct isBound scope with
  | case1 cs hwhole =>
    rw [search_eq, if_pos hwhole]
    exact longest_whole ((hbound _).1 hwhole)
  | case2 cs htext ih =>
    rw [search_eq, if_neg htext]
    rw [hbound] at htext
    refine longest_findSome? htext (fun part hpart => ?_)
      (fun part rest hpart hne happend => mem_beginnings.2 ⟨hpart, hne, rest, happend⟩)
      (sorted_beginnings scope cs)
    obtain ⟨hmem, hne, rest, happend⟩ := mem_beginnings.1 hpart
    have hrest := ih part hpart
    rw [(take_drop_of_append happend).2] at hrest
    exact ⟨hmem, hne, rest, happend, hrest⟩

/-- Whatever the scope, the search finds a way to put a name together from bound names if there is
one, and the one with the lexicographically greatest lengths. -/
theorem split?_longest_first (name : String) :
    search isBound scope name.toList = scope.split? name ∧
      ((scope.split? name).isSome ↔ name ∈ scope ∨
        ∃ parts, parts ≠ [] ∧ (∀ part ∈ parts, part ∈ scope ∧ part ≠ "") ∧
          String.join parts = name) ∧
      ∀ parts, scope.split? name = some parts ↔
        scope.Cut name parts ∧
          ∀ other, scope.Cut name other → ¬ List.Lex (· < ·) (sizes parts) (sizes other) := by
  have hsearch := longest_search hbound name.toList
  have hsplit := longest_split? scope name
  rw [String.ofList_toList] at hsearch
  refine ⟨hsearch.unique hsplit, ?_, fun parts => ?_⟩
  · cases hfound : scope.split? name with
    | none =>
      rw [hfound] at hsplit
      refine iff_of_false Bool.false_ne_true ?_
      rintro (hname | ⟨parts, hne, hparts, hjoin⟩)
      · exact hsplit _ (cut_singleton hname)
      · exact hsplit parts ⟨fun part h => (hparts part h).1, hjoin,
          .inr ⟨hne, fun part h => (hparts part h).2⟩⟩
    | some parts =>
      rw [hfound] at hsplit
      refine iff_of_true rfl ?_
      obtain ⟨hparts, hjoin, rfl | ⟨hne, hnonempty⟩⟩ := hsplit.1
      · exact .inl (hparts name List.mem_cons_self)
      · exact .inr ⟨parts, hne, fun part h => ⟨hparts part h, hnonempty part h⟩, hjoin⟩
  · refine ⟨fun h => ?_, fun h => hsplit.unique (show scope.Longest name (some parts) from h)⟩
    rwa [h] at hsplit

end

/-- Behind the longest beginning of `xyz`, which is `xy`, nothing can be found, so that `x` and `yz`
is the answer. -/
theorem split?_longest_first_backtracks :
    (∀ name, List.contains ["xy", "x", "yz"] name = true ↔ name ∈ ["xy", "x", "yz"]) ∧
      search (List.contains ["xy", "x", "yz"]) ["xy", "x", "yz"] "xyz".toList = some ["x", "yz"] ∧
      Cut ["xy", "x", "yz"] "xyz" ["x", "yz"] ∧
      ∀ other, Cut ["xy", "x", "yz"] "xyz" other → ¬ List.Lex (· < ·) [1, 2] (sizes other) := by
  have hbound (name : String) :
      List.contains ["xy", "x", "yz"] name = true ↔ name ∈ ["xy", "x", "yz"] :=
    List.contains_iff_mem
  have hsplit : split? ["xy", "x", "yz"] "xyz" = some ["x", "yz"] := by decide
  obtain ⟨hsearch, -, hlongest⟩ := split?_longest_first hbound "xyz"
  obtain ⟨hcut, hgreatest⟩ := (hlongest _).1 hsplit
  exact ⟨hbound, hsearch.trans hsplit, hcut, hgreatest⟩

end Formulary.Scope
