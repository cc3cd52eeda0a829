import Formulary.Template
import Mathlib.Data.List.Infix
import Mathlib.Data.List.TakeWhile

/-!
# Which references are replaced

Filling in a text replaces some of its references and copies the rest (`replaced_fillChars`). It
does not find all of them: two opening braces that start no reference are copied together, so after
an odd number of further braces the reference is read from its second brace on. These references,
and no others, are left (`reference_infix_fillChars_iff`), as long as the texts of the objects bring
no opening braces of their own.
-/

namespace Formulary.Template

variable {object? : String → Option String} {name : String} {c d : Char} {cs w out : List Char}

/-! ## References -/

/-- The name of a reference: a letter, followed by letters, digits and underscores. There may also
be nothing between the braces, which makes the name empty. -/
def IsName (name : String) : Prop :=
  match name.toList with
  | [] => True
  | first :: rest => first.isAlpha = true ∧ ∀ c ∈ rest, isNamePart c = true

instance (name : String) : Decidable (IsName name) :=
  decidable_of_iff ((match name.toList with
    | [] => true
    | first :: rest => first.isAlpha && rest.all isNamePart) = true) (by
      unfold IsName
      split <;> simp)

/-- What follows the opening braces of a reference. -/
def ending (name : String) : List Char := name.toList ++ [closing, closing]

/-- The reference to the object with a name. -/
def reference (name : String) : List Char := opening :: opening :: ending name

theorem isNamePart_of_mem (h : IsName name) (hc : c ∈ name.toList) : isNamePart c = true := by
  unfold IsName at h
  split at h
  · rename_i hchars
    rw [hchars] at hc
    cases hc
  · rename_i first rest hchars
    rcases List.mem_cons.1 (hchars ▸ hc) with rfl | hc
    · simp [isNamePart, Char.isAlphanum, h.1]
    · exact h.2 c hc

theorem isName_of_chars {first : Char} {rest : List Char} (h : name.toList = first :: rest)
    (hfirst : first.isAlpha = true) (hrest : ∀ c ∈ rest, isNamePart c = true) : IsName name := by
  unfold IsName
  rw [h]
  exact ⟨hfirst, hrest⟩

/-- The name at the front of a text is a name. -/
theorem isName_nameOf (cs : List Char) : IsName (String.ofList (nameOf cs)) := by
  cases cs with
  | nil => trivial
  | cons first rest =>
    rw [nameOf]
    split
    · rename_i halpha
      exact isName_of_chars String.toList_ofList halpha fun c => List.mem_takeWhile_imp
    · trivial

theorem nameOf_ending (h : IsName name) (rest : List Char) :
    nameOf (ending name ++ rest) = name.toList := by
  rw [ending, List.append_assoc]
  unfold IsName at h
  split at h
  · rename_i hchars
    rw [hchars]
    rfl
  · rename_i first others hchars
    rw [hchars, List.cons_append, nameOf, if_pos h.1, List.takeWhile_append_of_pos h.2]
    simp [isNamePart, closing]

theorem nameOf_isPrefix (cs : List Char) : nameOf cs <+: cs := by
  cases cs with
  | nil => exact List.prefix_rfl
  | cons first rest =>
    rw [nameOf]
    split
    · exact (List.prefix_cons_inj _).2 (List.takeWhile_prefix _)
    · exact List.nil_prefix

theorem afterClosing?_eq_some_iff {rest : List Char} :
    afterClosing? cs = some rest ↔ cs = closing :: closing :: rest := by
  unfold afterClosing?
  split
  · grind
  · rename_i hshort
    refine iff_of_false (by simp) ?_
    rintro rfl
    exact hshort _ _ _ rfl

/-- A reference is found behind its opening braces if and only if it stands there. -/
theorem reference?_eq_some_iff {text rest : List Char} :
    reference? object? cs = some (text, rest) ↔
      ∃ name replacement, IsName name ∧ object? name = some replacement ∧
        text = replacement.toList ∧ cs = ending name ++ rest := by
  have hfound : reference? object? cs = some (text, rest) ↔
      ∃ replacement, object? (String.ofList (nameOf cs)) = some replacement ∧
        text = replacement.toList ∧ cs.drop (nameOf cs).length = closing :: closing :: rest := by
    simp only [reference?, bind, Option.bind_eq_some_iff, pure, Option.some.injEq, Prod.mk.injEq,
      afterClosing?_eq_some_iff]
    grind
  rw [hfound]
  constructor
  · rintro ⟨replacement, hobject, htext, hrest⟩
    refine ⟨_, replacement, isName_nameOf cs, hobject, htext, ?_⟩
    have hsplit := (List.prefix_iff_eq_append.1 (nameOf_isPrefix cs)).symm
    rw [hrest] at hsplit
    simpa [ending] using hsplit
  · rintro ⟨name, replacement, hname, hobject, htext, rfl⟩
    rw [nameOf_ending hname, String.ofList_toList]
    exact ⟨replacement, hobject, htext, by simp [ending]⟩

/-! ## What filling in copies and replaces -/

/-- A text with some of its references replaced by the texts of objects, and everything else copied
in order. -/
inductive Replaced (object? : String → Option String) : List Char → List Char → Prop where
  | nil : Replaced object? [] []
  | copy (c : Char) {cs out : List Char} : Replaced object? cs out →
      Replaced object? (c :: cs) (c :: out)
  | reference {name text : String} {cs out : List Char} : IsName name →
      object? name = some text → Replaced object? cs out →
      Replaced object? (reference name ++ cs) (text.toList ++ out)

theorem replaced_fillChars (object? : String → Option String) (cs : List Char) :
    Replaced object? cs (fillChars object? cs) := by
  fun_induction fillChars object? cs with
  | case1 c d cs hopening text rest hfound ih =>
    obtain ⟨name, replacement, hname, hobject, rfl, rfl⟩ := reference?_eq_some_iff.1 hfound
    obtain ⟨rfl, rfl⟩ := hopening
    exact .reference hname hobject ih
  | case2 c d cs _ _ ih => exact .copy c (.copy d ih)
  | case3 c d cs _ ih => exact .copy c ih
  | case4 cs hshort =>
    match cs, hshort with
    | [], _ => exact .nil
    | [c], _ => exact .copy c .nil
    | c :: d :: cs, hshort => exact absurd rfl (hshort c d cs)

/-! ## What is left -/

/-- The texts of objects start with a parenthesis and contain no opening brace. -/
def Parenthesized (object? : String → Option String) : Prop :=
  ∀ name text, IsName name → object? name = some text →
    ∃ cs, text.toList = '(' :: cs ∧ opening ∉ cs

/-- A reference to a name stands directly behind an odd number of further opening braces. -/
def Shadowed (name : String) (cs : List Char) : Prop :=
  ∃ before after k, before.getLast? ≠ some opening ∧
    cs = before ++ List.replicate (2 * k + 1) opening ++ reference name ++ after

theorem ne_of_mem_ending (h : IsName name) (hc : c ∈ ending name) : c ≠ opening ∧ c ≠ '(' := by
  rcases List.mem_append.1 hc with hc | hc
  · have hpart := isNamePart_of_mem h hc
    constructor
    · rintro rfl
      cases hpart
    · rintro rfl
      cases hpart
  · obtain rfl : c = closing := by simpa using hc
    decide

theorem exists_ending_eq_cons (h : IsName name) :
    ∃ first rest, ending name = first :: rest ∧ first ≠ opening := by
  cases hending : ending name with
  | nil => simp [ending] at hending
  | cons first rest =>
    have hfirst := ne_of_mem_ending h (hending ▸ List.mem_cons_self)
    exact ⟨first, rest, rfl, hfirst.1⟩

/-! ### Filling in, by the characters in front -/

theorem fillChars_of_no_pair (h : ¬(c = opening ∧ d = opening)) :
    fillChars object? (c :: d :: cs) = c :: fillChars object? (d :: cs) := by
  rw [fillChars, if_neg h]

theorem fillChars_of_ne (h : c ≠ opening) :
    fillChars object? (c :: cs) = c :: fillChars object? cs := by
  cases cs with
  | nil => simp [fillChars]
  | cons d cs => exact fillChars_of_no_pair fun hpair => h hpair.1

/-- Behind an opening brace filling in gives an opening brace or the text of an object. -/
theorem head_fillChars (hobject : Parenthesized object?) (cs : List Char) :
    ∃ first rest, fillChars object? (opening :: cs) = first :: rest ∧
      (first = opening ∨ first = '(') := by
  match cs with
  | [] => exact ⟨opening, [], by simp [fillChars], .inl rfl⟩
  | d :: cs =>
    rw [fillChars]
    split
    · split
      · rename_i text rest hfound
        obtain ⟨name, replacement, hname, hknown, rfl, -⟩ := reference?_eq_some_iff.1 hfound
        obtain ⟨inside, htext, -⟩ := hobject name replacement hname hknown
        exact ⟨'(', _, by rw [htext]; rfl, .inr rfl⟩
      · exact ⟨opening, _, rfl, .inl rfl⟩
    · exact ⟨opening, _, rfl, .inl rfl⟩

/-- Neither opening braces nor the texts of objects are taken for the rest of a reference. -/
theorem prefix_fillChars_iff (hobject : Parenthesized object?)
    (hw : ∀ c ∈ w, c ≠ opening ∧ c ≠ '(') : w <+: fillChars object? cs ↔ w <+: cs := by
  induction w generalizing cs with
  | nil => simp
  | cons a w ih =>
    obtain ⟨ha, hw⟩ := List.forall_mem_cons.1 hw
    cases cs with
    | nil => simp [fillChars]
    | cons c cs =>
      by_cases hc : c = opening
      · subst hc
        obtain ⟨first, rest, hfill, hfirst⟩ := head_fillChars hobject cs
        rw [hfill, List.cons_prefix_cons, List.cons_prefix_cons]
        refine iff_of_false (fun h => ?_) fun h => ha.1 h.1
        rcases hfirst with rfl | rfl
        · exact ha.1 h.1
        · exact ha.2 h.1
      · rw [fillChars_of_ne hc, List.cons_prefix_cons, List.cons_prefix_cons, ih hw]

/-- The same behind one opening brace. -/
theorem opening_prefix_fillChars_iff (hobject : Parenthesized object?) (hname : IsName name) :
    opening :: ending name <+: fillChars object? cs ↔ opening :: ending name <+: cs := by
  have hchars : ∀ c ∈ ending name, c ≠ opening ∧ c ≠ '(' := fun c => ne_of_mem_ending hname
  match cs with
  | [] => simp [fillChars]
  | [c] => simp [fillChars]
  | c :: d :: cs =>
    by_cases hpair : c = opening ∧ d = opening
    · obtain ⟨rfl, rfl⟩ := hpair
      obtain ⟨first, rest, hending, hfirst⟩ := exists_ending_eq_cons hname
      refine iff_of_false (fun h => ?_) fun h => ?_
      · rw [hending, fillChars, if_pos ⟨rfl, rfl⟩] at h
        split at h
        · rename_i text after hfound
          obtain ⟨known, replacement, hknown, hfill, rfl, -⟩ := reference?_eq_some_iff.1 hfound
          obtain ⟨inside, htext, -⟩ := hobject known replacement hknown hfill
          rw [htext] at h
          exact absurd (List.cons_prefix_cons.1 h).1 (by decide)
        · exact hfirst (List.cons_prefix_cons.1 (List.cons_prefix_cons.1 h).2).1
      · rw [hending] at h
        exact hfirst (List.cons_prefix_cons.1 (List.cons_prefix_cons.1 h).2).1
    · rw [fillChars_of_no_pair hpair, List.cons_prefix_cons, List.cons_prefix_cons,
        prefix_fillChars_iff hobject hchars]

/-! ### References and shadowed references, by the characters in front -/

theorem reference_infix_cons_of_ne (h : c ≠ opening) :
    reference name <:+: c :: cs ↔ reference name <:+: cs := by
  rw [List.infix_cons_iff, or_iff_right]
  exact fun hprefix => h (List.cons_prefix_cons.1 hprefix).1.symm

theorem reference_infix_append (h : opening ∉ w) :
    reference name <:+: w ++ cs ↔ reference name <:+: cs := by
  induction w with
  | nil => rfl
  | cons c w ih =>
    obtain ⟨hc, hw⟩ := not_or.1 (List.mem_cons.not.1 h)
    rw [List.cons_append, reference_infix_cons_of_ne (Ne.symm hc), ih hw]

theorem shadowed_cons_of_ne (h : c ≠ opening) : Shadowed name (c :: cs) ↔ Shadowed name cs := by
  constructor
  · rintro ⟨before, after, k, hlast, heq⟩
    cases before with
    | nil =>
      rw [Nat.add_comm, List.nil_append, List.replicate_add] at heq
      exact absurd (List.cons.inj heq).1 h
    | cons b before =>
      refine ⟨before, after, k, ?_, (List.cons.inj heq).2⟩
      cases before with
      | nil => simp
      | cons => simpa using hlast
  · rintro ⟨before, after, k, hlast, rfl⟩
    refine ⟨c :: before, after, k, ?_, rfl⟩
    cases before with
    | nil => simpa using h
    | cons => simpa using hlast

theorem shadowed_append (h : opening ∉ w) : Shadowed name (w ++ cs) ↔ Shadowed name cs := by
  induction w with
  | nil => rfl
  | cons c w ih =>
    obtain ⟨hc, hw⟩ := not_or.1 (List.mem_cons.not.1 h)
    rw [List.cons_append, shadowed_cons_of_ne (Ne.symm hc), ih hw]

/-- What shadows a reference and the reference itself start with two opening braces. -/
theorem exists_front (name : String) (k : Nat) (after : List Char) :
    ∃ rest, List.replicate (2 * k + 1) opening ++ reference name ++ after =
      opening :: opening :: rest := by
  cases k <;> exact ⟨_, rfl⟩

/-- A single opening brace shadows nothing. -/
theorem shadowed_single (h : d ≠ opening) :
    Shadowed name (opening :: d :: cs) ↔ Shadowed name (d :: cs) := by
  constructor
  · rintro ⟨before, after, k, hlast, heq⟩
    match before with
    | [] =>
      obtain ⟨rest, hfront⟩ := exists_front name k after
      rw [List.nil_append, hfront] at heq
      exact absurd (List.cons.inj (List.cons.inj heq).2).1 h
    | [b] => exact absurd (congrArg some (List.cons.inj heq).1.symm) hlast
    | b :: b' :: before =>
      exact ⟨b' :: before, after, k, by simpa using hlast, (List.cons.inj heq).2⟩
  · rintro ⟨before, after, k, hlast, heq⟩
    cases before with
    | nil =>
      obtain ⟨rest, hfront⟩ := exists_front name k after
      rw [List.nil_append, hfront] at heq
      exact absurd (List.cons.inj heq).1 h
    | cons b before =>
      rw [heq]
      exact ⟨opening :: b :: before, after, k, by simpa using hlast, rfl⟩

/-- Two opening braces shadow what one brace behind them begins. -/
theorem shadowed_pair :
    Shadowed name (opening :: opening :: cs) ↔
      opening :: ending name <+: cs ∨ Shadowed name cs := by
  constructor
  · rintro ⟨before, after, k, hlast, heq⟩
    match before, k with
    | [], 0 =>
      left
      refine ⟨after, ?_⟩
      simpa [reference] using heq.symm
    | [], k + 1 =>
      right
      refine ⟨[], after, k, by simp, ?_⟩
      simpa [Nat.mul_succ, List.replicate_succ] using heq
    | [b], _ => exact absurd (congrArg some (List.cons.inj heq).1.symm) hlast
    | b :: b' :: before, k =>
      right
      refine ⟨before, after, k, ?_, (List.cons.inj (List.cons.inj heq).2).2⟩
      cases before with
      | nil => simp
      | cons => simpa using hlast
  · rintro (⟨after, rfl⟩ | ⟨before, after, k, hlast, rfl⟩)
    · exact ⟨[], after, 0, by simp, rfl⟩
    · cases before with
      | nil => exact ⟨[], after, k + 1, by simp, by simp [Nat.mul_succ, List.replicate_succ]⟩
      | cons b before =>
        exact ⟨opening :: opening :: b :: before, after, k, by simpa using hlast, rfl⟩

/-- The references to an object that filling in leaves are those behind an odd number of further
opening braces. -/
theorem reference_infix_fillChars_iff (hobject : Parenthesized object?) (hname : IsName name)
    (hknown : (object? name).isSome = true) (cs : List Char) :
    reference name <:+: fillChars object? cs ↔ Shadowed name cs := by
  fun_induction fillChars object? cs with
  | case1 c d cs hopening text after hfound ih =>
    obtain ⟨known, replacement, hknownName, hreplacement, rfl, rfl⟩ :=
      reference?_eq_some_iff.1 hfound
    obtain ⟨rfl, rfl⟩ := hopening
    obtain ⟨inside, htext, hinside⟩ := hobject known replacement hknownName hreplacement
    have hreplaced : opening ∉ replacement.toList := by
      rw [htext]
      exact List.not_mem_cons_of_ne_of_not_mem (by decide) hinside
    have hrest : opening ∉ ending known := fun hmem => (ne_of_mem_ending hknownName hmem).1 rfl
    have hstart : ¬opening :: ending name <+: ending known ++ after := by
      obtain ⟨first', rest', hending', hfirst'⟩ := exists_ending_eq_cons hknownName
      rw [hending']
      exact fun h => hfirst' (List.cons_prefix_cons.1 h).1.symm
    rw [reference_infix_append hreplaced, ih, shadowed_pair, or_iff_right hstart,
      shadowed_append hrest]
  | case2 c d cs hopening hmissing ih =>
    obtain ⟨rfl, rfl⟩ := hopening
    have hfront : ¬ending name <+: cs := by
      rintro ⟨after, rfl⟩
      obtain ⟨text, htext⟩ := Option.isSome_iff_exists.1 hknown
      have hfound : reference? object? (ending name ++ after) = some (text.toList, after) :=
        reference?_eq_some_iff.2 ⟨name, text, hname, htext, rfl, rfl⟩
      cases hmissing.symm.trans hfound
    have hpair : ¬reference name <+: opening :: opening :: fillChars object? cs := by
      rwa [reference, List.prefix_cons_inj, List.prefix_cons_inj,
        prefix_fillChars_iff hobject fun c => ne_of_mem_ending hname]
    have hsingle : reference name <+: opening :: fillChars object? cs ↔
        opening :: ending name <+: cs := by
      rw [reference, List.prefix_cons_inj, opening_prefix_fillChars_iff hobject hname]
    rw [List.infix_cons_iff, or_iff_right hpair, List.infix_cons_iff, hsingle, ih, shadowed_pair]
  | case3 c d cs hpair ih =>
    by_cases hc : c = opening
    · subst hc
      have hd : d ≠ opening := fun h => hpair ⟨rfl, h⟩
      rw [shadowed_single hd, List.infix_cons_iff, ih, or_iff_right]
      rw [fillChars_of_ne hd, reference, List.cons_prefix_cons, List.cons_prefix_cons]
      exact fun h => hd h.2.1.symm
    · rw [shadowed_cons_of_ne hc, reference_infix_cons_of_ne hc, ih]
  | case4 cs hshort =>
    have hlength : cs.length < 2 := by
      match cs, hshort with
      | [], _ => decide
      | [c], _ => exact Nat.lt_succ_self 1
      | c :: d :: cs, hshort => exact absurd rfl (hshort c d cs)
    have hlong : 2 ≤ (reference name).length := by simp [reference]
    constructor
    · intro h
      have := h.length_le
      omega
    · rintro ⟨before, after, k, -, rfl⟩
      simp only [List.length_append] at hlength
      omega

end Formulary.Template
