import Formulary.Proofs.MathML.Content
import Formulary.Proofs.Matching.Text
import Formulary.Proofs.Reading.Source

/-!
# Content MathML is unambiguous

Two expressions with the same content MathML have the same content (`content_eq_of_mathML_eq`), and
with that the same value under every assignment (`value_eq_of_mathML_eq`).

The markup is cut into its blocks at the angle brackets, which stand in no name and in no fraction.
Of the blocks, the first one tells what kind of content they start with, and a head can be read back
from its blocks (`read?_blocks`). So no content is the beginning of another one, and the operands of
an application are found one after the other, up to the tag that closes it.
-/

namespace Formulary

namespace MathML

open Token

variable {b c : Block} {bs cs s t : List Block}

/-! ## The blocks of a markup -/

/-- The brackets of a tag stand neither in the tag nor in the text behind it. -/
def Block.Proper (b : Block) : Prop := '>' ∉ b.tag.toList ∧ '<' ∉ b.text.toList

instance (b : Block) : Decidable b.Proper := inferInstanceAs (Decidable (_ ∧ _))

/-- A text is cut off where the first stop is. -/
theorem append_inj_of_stop {stop : Char} {as as' rest rest' : List Char} (has : stop ∉ as)
    (has' : stop ∉ as') (hrest : ∀ c ∈ rest.head?, c = stop) (hrest' : ∀ c ∈ rest'.head?, c = stop)
    (h : as ++ rest = as' ++ rest') : as = as' ∧ rest = rest' := by
  have cut {as rest : List Char} (has : stop ∉ as) (hrest : ∀ c ∈ rest.head?, c = stop) :
      (as ++ rest).takeWhile (· != stop) = as := by
    have hall : ∀ c ∈ as, (c != stop) = true := by
      rintro c hc
      exact bne_iff_ne.2 (ne_of_mem_of_not_mem hc has)
    rw [List.takeWhile_append_of_pos hall]
    cases rest with
    | nil => exact List.append_nil as
    | cons c rest => simp [hrest c rfl]
  obtain rfl : as = as' := by rw [← cut has hrest, h, cut has' hrest']
  exact ⟨rfl, List.append_cancel_left h⟩

theorem head?_markup (bs : List Block) : ∀ c ∈ (markup bs).head?, c = '<' := by
  cases bs with
  | nil => simp [markup]
  | cons b bs => simp [markup, Block.chars, eq_comm]

theorem markup_injective (hbs : ∀ b ∈ bs, b.Proper) (hcs : ∀ c ∈ cs, c.Proper)
    (h : markup bs = markup cs) : bs = cs := by
  induction bs generalizing cs with
  | nil =>
    cases cs with
    | nil => rfl
    | cons c cs => simp [markup, Block.chars] at h
  | cons b bs ih =>
    cases cs with
    | nil => simp [markup, Block.chars] at h
    | cons c cs =>
      obtain ⟨hb, hbs⟩ := List.forall_mem_cons.1 hbs
      obtain ⟨hc, hcs⟩ := List.forall_mem_cons.1 hcs
      have hchars : b.tag.toList ++ '>' :: (b.text.toList ++ markup bs) =
          c.tag.toList ++ '>' :: (c.text.toList ++ markup cs) := by
        simpa [markup, Block.chars] using h
      obtain ⟨htag, hbehind⟩ := append_inj_of_stop hb.1 hc.1 (by simp) (by simp) hchars
      obtain ⟨htext, hrest⟩ := append_inj_of_stop hb.2 hc.2 (head?_markup bs) (head?_markup cs)
        (List.cons.inj hbehind).2
      rw [ih hbs hcs hrest, Block.ext (String.toList_inj.1 htag) (String.toList_inj.1 htext)]

/-! ## Heads -/

/-- The names of a head are names of formulas, and the name of a function has no primes. -/
def Head.Proper : Head → Prop
  | operator _ => True
  | selector name | derivative name => IsName name
  | function name _ => IsName name ∧ Names.primes name = 0

/-- The heads that are a single tag. -/
def singleTags : List (String × Head) :=
  [BinaryOp.add, .sub, .mul, .div, .pow, .eq, .and, .or].map
      (fun op => (operatorTag op, .operator op)) ++
    elements.map (fun name => (name ++ "/", .function name 0)) ++ [("root/", .function "sqrt" 0)]

/-- Reads the head that stands in front of blocks. -/
def Head.read? : List Block → Option (Head × List Block)
  | [] => none
  | b :: bs =>
    let text (bs : List Block) : String := bs.head?.elim "" Block.text
    if b.tag = "ci" then
      some (.function (Names.base b.text) (Names.primes b.text), bs.drop 1)
    else if b.tag = "selector/" then some (.selector (text bs), bs.drop 2)
    else if b.tag = "log/" then some (.function "log10" 0, bs.drop 4)
    else if b.tag = "diff/" then some (.derivative (text (bs.drop 1)), bs.drop 4)
    else (singleTags.lookup b.tag).map fun head => (head, bs)

theorem Head.read?_nameBlocks {name : String} (h : Names.primes name = 0) (count : Nat)
    (s : List Block) :
    Head.read? (nameBlocks (Names.withPrimes name count) ++ s) = some (.function name count, s) := by
  have hread : Head.read? (nameBlocks (Names.withPrimes name count) ++ s) =
      some (.function (Names.base (Names.withPrimes name count))
        (Names.primes (Names.withPrimes name count)), s) := rfl
  rw [hread, Names.base_withPrimes h, Names.primes_withPrimes h]

/-- A head is read back from its blocks. -/
theorem Head.read?_blocks {head : Head} (h : head.Proper) (s : List Block) :
    Head.read? (head.blocks ++ s) = some (head, s) := by
  cases head with
  | operator op => cases op <;> rfl
  | selector name => rfl
  | derivative name => rfl
  | function name primes =>
    obtain ⟨-, hprimes⟩ := h
    rw [Head.blocks]
    split_ifs with hzero hsqrt hlog helement
    · rw [hzero, hsqrt]
      rfl
    · rw [hzero, hlog]
      rfl
    · have hread : ∀ name ∈ elements, name ++ "/" ∉ ["ci", "selector/", "log/", "diff/"] ∧
          singleTags.lookup (name ++ "/") = some (.function name 0) := by decide
      obtain ⟨hother, hlookup⟩ := hread name helement
      simp only [List.mem_cons, not_or] at hother
      rw [hzero, List.singleton_append, Head.read?]
      simp [hother, hlookup]
    · have hplain : Names.withPrimes name 0 = name := String.append_empty
      rw [hzero, ← hplain, Head.read?_nameBlocks hprimes, hplain]
    · exact Head.read?_nameBlocks hprimes primes s

/-- No head begins with the blocks of another one. -/
theorem Head.blocks_inj {head head' : Head} (h : head.Proper) (h' : head'.Proper)
    (heq : head.blocks ++ s = head'.blocks ++ t) : head = head' ∧ s = t := by
  have hread := Head.read?_blocks h s
  rw [heq, Head.read?_blocks h' t] at hread
  simpa [eq_comm] using hread

/-! ## Contents -/

/-- The literals of a content are fractions, and its names are names of formulas. -/
inductive Content.Proper : Content → Prop
  | number (r : ℚ) : Proper (.number (.exact r))
  | name {name : String} (isName : IsName name) : Proper (.name name)
  | apply {head : Head} {operands : List Content} (proper : head.Proper)
      (all : ∀ c ∈ operands, Proper c) : Proper (.apply head operands)
  | error : Proper .error

/-- The blocks of a content do not start with the tag that closes an application. -/
theorem Content.exists_cons (c : Content) :
    ∃ b bs, c.blocks = b :: bs ∧ b ≠ ⟨"/apply", ""⟩ := by
  cases c with
  | number n => exact ⟨_, _, rfl, by simp⟩
  | name x => exact ⟨_, _, rfl, by simp⟩
  | apply head operands => exact ⟨_, _, rfl, by simp⟩
  | error => exact ⟨_, _, rfl, by simp⟩

/-- Operands are told apart up to the tag that closes the application. -/
theorem blocksList_inj {cs ds : List Content}
    (hcs : ∀ c ∈ cs, ∀ d, d.Proper → ∀ s t, c.blocks ++ s = d.blocks ++ t → c = d ∧ s = t)
    (hds : ∀ d ∈ ds, d.Proper)
    (h : Content.blocksList cs ++ ⟨"/apply", ""⟩ :: s =
      Content.blocksList ds ++ ⟨"/apply", ""⟩ :: t) : cs = ds ∧ s = t := by
  induction cs generalizing ds with
  | nil =>
    cases ds with
    | nil => exact ⟨rfl, (List.cons.inj h).2⟩
    | cons d ds =>
      obtain ⟨b, bs, hd, hne⟩ := d.exists_cons
      rw [Content.blocksList, Content.blocksList, hd] at h
      exact absurd (List.cons.inj h).1.symm hne
  | cons c cs ih =>
    cases ds with
    | nil =>
      obtain ⟨b, bs, hc, hne⟩ := c.exists_cons
      rw [Content.blocksList, Content.blocksList, hc] at h
      exact absurd (List.cons.inj h).1 hne
    | cons d ds =>
      obtain ⟨hfirst, hothers⟩ := List.forall_mem_cons.1 hcs
      obtain ⟨hd, hproper⟩ := List.forall_mem_cons.1 hds
      rw [Content.blocksList, Content.blocksList, List.append_assoc, List.append_assoc] at h
      obtain ⟨rfl, hrest⟩ := hfirst d hd _ _ h
      obtain ⟨rfl, rfl⟩ := ih hothers hproper hrest
      exact ⟨rfl, rfl⟩

/-- A content is not the beginning of another one. -/
theorem Content.Proper.blocks_inj {c d : Content} (hc : c.Proper) (hd : d.Proper)
    (h : c.blocks ++ s = d.blocks ++ t) : c = d ∧ s = t := by
  induction hc generalizing d s t with
  | number r =>
    cases hd with
    | number q =>
      obtain ⟨hnumber, hrest⟩ := List.cons.inj h
      have hwrite := congrArg String.toList (congrArg Block.text hnumber)
      exact ⟨by rw [Number.write_injective hwrite], (List.cons.inj hrest).2⟩
    | _ => simp [Content.blocks, nameBlocks] at h
  | name isName =>
    cases hd with
    | name isName' =>
      obtain ⟨hname, hrest⟩ := List.cons.inj h
      exact ⟨congrArg Content.name (congrArg Block.text hname), (List.cons.inj hrest).2⟩
    | _ => simp [Content.blocks, nameBlocks] at h
  | apply proper all ih =>
    cases hd with
    | apply proper' all' =>
      simp only [Content.blocks, List.cons_append, List.append_assoc, List.nil_append] at h
      obtain ⟨rfl, hrest⟩ := Head.blocks_inj proper proper' (List.cons.inj h).2
      obtain ⟨rfl, rfl⟩ :=
        blocksList_inj (fun c hc d hd s t => ih c hc hd) all' hrest
      exact ⟨rfl, rfl⟩
    | _ => simp [Content.blocks, nameBlocks] at h
  | error =>
    cases hd with
    | error => exact ⟨rfl, (List.cons.inj h).2⟩
    | _ => simp [Content.blocks, nameBlocks] at h

/-! ### Their blocks -/

theorem proper_nameBlocks {name : String} (h : IsName name) : ∀ b ∈ nameBlocks name, b.Proper := by
  have htag : '>' ∉ "ci".toList := by decide
  refine List.forall_mem_cons.2 ⟨⟨htag, fun hmem => ?_⟩, by decide⟩
  rcases h.isNamePart_or_prime hmem with hpart | hprime
  · cases hpart
  · cases hprime

theorem Head.Proper.blocks {head : Head} (h : head.Proper) : ∀ b ∈ head.blocks, b.Proper := by
  cases head with
  | operator op => cases op <;> decide
  | selector name => exact List.forall_mem_cons.2 ⟨by decide, proper_nameBlocks h⟩
  | derivative name =>
    refine List.forall_mem_cons.2 ⟨by decide, List.forall_mem_cons.2 ⟨by decide, ?_⟩⟩
    exact List.forall_mem_append.2 ⟨proper_nameBlocks h, by decide⟩
  | function name primes =>
    rw [Head.blocks]
    split_ifs with hzero hsqrt hlog helement
    · decide
    · decide
    · have hproper : ∀ name ∈ elements, Block.Proper ⟨name ++ "/", ""⟩ := by decide
      exact List.forall_mem_singleton.2 (hproper name helement)
    · exact proper_nameBlocks h.1
    · exact proper_nameBlocks (h.1.withPrimes primes)

theorem blocksList_eq_flatMap (cs : List Content) :
    Content.blocksList cs = cs.flatMap Content.blocks := by
  induction cs with
  | nil => rfl
  | cons c cs ih => rw [Content.blocksList, ih, List.flatMap_cons]

/-- No angle bracket stands inside the blocks of a content. -/
theorem Content.Proper.blocks {c : Content} (hc : c.Proper) : ∀ b ∈ c.blocks, b.Proper := by
  induction hc with
  | number r =>
    have htag : '>' ∉ "cn".toList := by decide
    refine List.forall_mem_cons.2 ⟨⟨htag, fun hmem => ?_⟩, by decide⟩
    exact absurd (Number.isNumeral_of_mem_write hmem) (by decide)
  | name isName => exact proper_nameBlocks isName
  | apply proper all ih =>
    rw [Content.blocks, blocksList_eq_flatMap]
    refine List.forall_mem_append.2 ⟨List.forall_mem_append.2 ⟨?_, ?_⟩, by decide⟩
    · exact List.forall_mem_cons.2 ⟨by decide, proper.blocks⟩
    · exact List.forall_mem_flatMap.2 ih
  | error => decide

end MathML

open MathML

namespace Expr

/-- The literal of the node is a fraction, and its names are names of formulas, without primes if
they are names of functions. -/
def Spelled : Expr → Prop
  | number n => n.isExact = true
  | var name | element name _ | derivative _ name | derivativeAt _ name _ => Token.IsName name
  | call function _ _ => Token.IsName function ∧ Names.primes function = 0
  | _ => True

instance : (e : Expr) → Decidable e.Spelled
  | number n => inferInstanceAs (Decidable (n.isExact = true))
  | var name | element name _ | derivative _ name | derivativeAt _ name _ =>
    inferInstanceAs (Decidable (Token.IsName name))
  | call function _ _ =>
    inferInstanceAs (Decidable (Token.IsName function ∧ Names.primes function = 0))
  | unary _ _ | binary _ _ _ | nary _ _ | invalid _ | invalidPart _ _ => .isTrue trivial

variable {a b e : Expr}

/-- The content of a spelled expression is proper. -/
theorem proper_content (h : ∀ node ∈ e.nodes, node.Spelled) : e.content.Proper := by
  induction e using induction_children with
  | step e ih =>
    obtain ⟨hspelled, hnodes⟩ := forall_mem_nodes.1 h
    have hparts : ∀ part ∈ e.children, part.content.Proper :=
      fun part hpart => ih part hpart (hnodes part hpart)
    cases e with
    | number n =>
      cases n with
      | exact r => exact .number r
      | real v => cases hspelled
    | var name => exact .name hspelled
    | element sequence index =>
      have hindex := List.forall_mem_singleton.1 hparts
      exact .apply hspelled (List.forall_mem_singleton.2 hindex)
    | unary op u =>
      have hu := List.forall_mem_singleton.1 hparts
      cases op with
      | plus => exact hu
      | neg => exact .apply trivial (List.forall_mem_singleton.2 hu)
      | recip => exact .apply trivial (forall_mem_pair.2 ⟨.number 1, hu⟩)
    | binary op u v =>
      obtain ⟨hu, hv⟩ := forall_mem_pair.1 hparts
      exact .apply trivial (forall_mem_pair.2 ⟨hu, hv⟩)
    | nary op es =>
      have hes : ∀ c ∈ contentList es, c.Proper := by
        rw [contentList_eq_map]
        exact List.forall_mem_map.2 hparts
      exact .apply trivial hes
    | call f primes u =>
      have hu := List.forall_mem_singleton.1 hparts
      refine .apply ?_ (List.forall_mem_singleton.2 hu)
      split
      · exact ⟨by decide +kernel, by decide⟩
      · exact hspelled
    | derivative body name =>
      have hbody := List.forall_mem_singleton.1 hparts
      exact .apply hspelled (List.forall_mem_singleton.2 hbody)
    | derivativeAt body name point =>
      obtain ⟨hbody, hpoint⟩ := forall_mem_pair.1 hparts
      have heval : (Head.function "eval" 0).Proper := ⟨by decide +kernel, by decide⟩
      have hderivative : (Content.apply (.derivative name) [body.content]).Proper :=
        .apply hspelled (List.forall_mem_singleton.2 hbody)
      have hequation : (Content.apply (.operator .eq) [.name name, point.content]).Proper :=
        .apply trivial (forall_mem_pair.2 ⟨.name hspelled, hpoint⟩)
      exact .apply heval (forall_mem_pair.2 ⟨hderivative, hequation⟩)
    | invalid issue => exact .error
    | invalidPart issue part =>
      have hpart := List.forall_mem_singleton.1 hparts
      exact hpart

/-- Expressions with the same markup have the same content. -/
theorem content_eq_of_mathML_eq (ha : ∀ node ∈ a.nodes, node.Spelled)
    (hb : ∀ node ∈ b.nodes, node.Spelled) (h : a.mathML = b.mathML) : a.content = b.content := by
  have hproper := proper_content ha
  have hproper' := proper_content hb
  have hmarkup : markup a.content.blocks = markup b.content.blocks := by
    rw [← toList_mathML, ← toList_mathML, h]
  have hblocks := markup_injective hproper.blocks hproper'.blocks hmarkup
  exact (hproper.blocks_inj hproper' (congrArg (· ++ []) hblocks)).1

open Exact

/-- Expressions with the same content MathML have the same exact value under every assignment,
whatever the functions and the sequences stand for, as long as both exponential functions are the
same. -/
theorem value_eq_of_mathML_eq (ha : ∀ node ∈ a.nodes, node.Spelled ∧ node.isPlain = true)
    (hb : ∀ node ∈ b.nodes, node.Spelled ∧ node.isPlain = true) (h : a.mathML = b.mathML)
    {I : Interpretation} (hexp : I.function "expb" 0 = I.function "exp" 0) (ρ : Assignment) :
    value I a ρ = value I b ρ := by
  rw [value_content hexp fun node hnode => (ha node hnode).2,
    value_content hexp fun node hnode => (hb node hnode).2,
    content_eq_of_mathML_eq (fun node hnode => (ha node hnode).1)
      (fun node hnode => (hb node hnode).1) h]

/-- A reciprocal and a quotient by another spelling of the same function and the same sum. -/
theorem value_eq_of_mathML_eq_reciprocal :
    let a : Expr := .unary .recip (.call "exp" 0 (.nary .sum [.var "x", .var "y'"]))
    let b : Expr := .binary .div (.ofInt 1)
      (.call "expb" 0 (.unary .plus (.binary .add (.var "x") (.var "y'"))))
    let I : Interpretation := ⟨fun _ _ q => some (q + 1), fun _ _ => none, fun _ _ _ => none⟩
    let ρ : Assignment := fun name => if name = "x" then some (1 / 2) else some 3
    (∀ node ∈ a.nodes, node.Spelled ∧ node.isPlain = true) ∧
      (∀ node ∈ b.nodes, node.Spelled ∧ node.isPlain = true) ∧ a.mathML = b.mathML ∧
      value I a ρ = some (2 / 9) ∧ value I b ρ = some (2 / 9) := by
  intro a b I ρ
  have ha : ∀ node ∈ a.nodes, node.Spelled ∧ node.isPlain = true := by decide +kernel
  have hb : ∀ node ∈ b.nodes, node.Spelled ∧ node.isPlain = true := by decide +kernel
  have hmathML : a.mathML = b.mathML := by decide +kernel
  have hvalue : value I a ρ = some (2 / 9) := by decide +kernel
  have hsame := value_eq_of_mathML_eq ha hb hmathML (I := I) rfl ρ
  exact ⟨ha, hb, hmathML, hvalue, hsame ▸ hvalue⟩

end Expr

end Formulary
