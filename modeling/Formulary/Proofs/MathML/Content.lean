import Formulary.Proofs.Exact.Value
import Formulary.Proofs.Expr.Traversal
import Formulary.Writing.MathML

/-!
# The content of content MathML

What an expression in content MathML says: a number, a name, or the application of a head to
operands. Different expressions have the same content, as the signs of a formula are not all kept: a
plus sign is left out, and a difference and a negation have the same head, as have a quotient and a
reciprocal, or a chain of sums and a single one.

The content is written in blocks, a tag and the text behind it (`toList_mathML`), and the value of an
expression is the value of its content (`value_content`).
-/

namespace Formulary

namespace MathML

/-! ## Blocks -/

/-- A tag and the text behind it. -/
@[ext]
structure Block where
  tag : String
  text : String := ""
deriving DecidableEq

/-- The characters of a block. -/
def Block.chars (b : Block) : List Char := '<' :: b.tag.toList ++ '>' :: b.text.toList

/-- The characters of blocks, one after the other. -/
def markup (bs : List Block) : List Char := bs.flatMap Block.chars

theorem markup_append (as bs : List Block) : markup (as ++ bs) = markup as ++ markup bs :=
  List.flatMap_append

/-! ## Contents -/

/-- What is applied to operands. -/
inductive Head where
  | operator (op : BinaryOp)
  | selector (sequence : String)
  | function (name : String) (primes : Nat)
  | derivative (name : String)
deriving DecidableEq

/-- What an expression in content MathML says. -/
inductive Content where
  | number (n : Number)
  | name (x : String)
  | apply (head : Head) (operands : List Content)
  | error

/-- The tag of an operator. -/
def operatorTag : BinaryOp → String
  | .add => "plus/"
  | .sub => "minus/"
  | .mul => "times/"
  | .div => "divide/"
  | .pow => "power/"
  | .eq => "eq/"
  | .and => "and/"
  | .or => "or/"

/-- The functions whose name is their tag. -/
def elements : List String :=
  ["sin", "cos", "tan", "csc", "sec", "cot", "arcsin", "arccos", "arctan", "arcsec", "arccsc",
    "arccot", "abs", "exp", "ln"]

/-- The blocks of a name. -/
def nameBlocks (name : String) : List Block := [⟨"ci", name⟩, ⟨"/ci", ""⟩]

/-- The blocks of a head. -/
def Head.blocks : Head → List Block
  | operator op => [⟨operatorTag op, ""⟩]
  | selector sequence => ⟨"selector/", ""⟩ :: nameBlocks sequence
  | function name primes =>
    if primes = 0 then
      if name = "sqrt" then [⟨"root/", ""⟩]
      else if name = "log10" then
        [⟨"log/", ""⟩, ⟨"logbase", ""⟩, ⟨"cn", "10"⟩, ⟨"/cn", ""⟩, ⟨"/logbase", ""⟩]
      else if name ∈ elements then [⟨name ++ "/", ""⟩]
      else nameBlocks name
    else nameBlocks (Names.withPrimes name primes)
  | derivative name => ⟨"diff/", ""⟩ :: ⟨"bvar", ""⟩ :: nameBlocks name ++ [⟨"/bvar", ""⟩]

mutual

/-- The blocks of a content. -/
def Content.blocks : Content → List Block
  | .number n => [⟨"cn", n.write⟩, ⟨"/cn", ""⟩]
  | .name x => nameBlocks x
  | .apply head operands =>
    ⟨"apply", ""⟩ :: head.blocks ++ blocksList operands ++ [⟨"/apply", ""⟩]
  | .error => [⟨"merror/", ""⟩]

/-- The blocks of several contents, one after the other. -/
def Content.blocksList : List Content → List Block
  | [] => []
  | c :: cs => c.blocks ++ blocksList cs

end

end MathML

open MathML

namespace Expr

mutual

/-- What an expression says in content MathML. -/
def content : Expr → Content
  | number n => .number n
  | var name => .name name
  | element sequence index => .apply (.selector sequence) [index.content]
  | unary .plus operand => operand.content
  | unary .neg operand => .apply (.operator .sub) [operand.content]
  | unary .recip operand => .apply (.operator .div) [.number 1, operand.content]
  | binary op lhs rhs => .apply (.operator op) [lhs.content, rhs.content]
  | nary op operands => .apply (.operator op.binary) (contentList operands)
  | call function primes argument =>
    -- both exponential functions have the same element
    let name := if primes = 0 ∧ function = "expb" then "exp" else function
    .apply (.function name primes) [argument.content]
  | derivative body name => .apply (.derivative name) [body.content]
  | derivativeAt body name point =>
    .apply (.function "eval" 0) [.apply (.derivative name) [body.content],
      .apply (.operator .eq) [.name name, point.content]]
  | invalid _ => .error
  | invalidPart _ part => part.content

/-- What several expressions say. -/
def contentList : List Expr → List Content
  | [] => []
  | e :: es => e.content :: contentList es

end

theorem contentList_eq_map (es : List Expr) : contentList es = es.map content := by
  induction es with
  | nil => rfl
  | cons e es ih => rw [contentList, ih, List.map_cons]

end Expr

namespace MathML

/-! ## The markup of an expression -/

theorem toList_element (tag content : String) :
    (element tag content).toList =
      '<' :: tag.toList ++ '>' :: (content.toList ++ '<' :: '/' :: tag.toList ++ ['>']) := by
  simp [element]

theorem toList_identifier (name : String) : (identifier name).toList = markup (nameBlocks name) := by
  simp [identifier, toList_element, markup, nameBlocks, Block.chars]

theorem blocksList_singleton (c : Content) : Content.blocksList [c] = c.blocks :=
  List.append_nil _

theorem blocksList_pair (c d : Content) : Content.blocksList [c, d] = c.blocks ++ d.blocks :=
  congrArg (c.blocks ++ ·) (List.append_nil _)

/-- The markup of an application is that of the head and that of the operands. -/
theorem toList_apply {head : Head} {operands : List Content} {first rest : String}
    (h : first.toList ++ rest.toList =
      markup head.blocks ++ markup (Content.blocksList operands)) :
    (apply first rest).toList = markup (Content.apply head operands).blocks := by
  rw [apply, toList_element, String.toList_append, h, Content.blocks]
  simp [markup, Block.chars]

theorem toList_operator (op : BinaryOp) :
    (operator op).toList = markup (Head.operator op).blocks := by
  cases op <;> rfl

/-- A call is the application of the function, where both exponential functions are one. -/
theorem toList_call (name : String) (primes : Nat) {argument : String} {c : Content}
    (h : argument.toList = markup c.blocks) :
    (call name primes argument).toList = markup (Content.apply
      (.function (if primes = 0 ∧ name = "expb" then "exp" else name) primes) [c]).blocks := by
  unfold call
  by_cases hprimes : primes = 0
  · subst hprimes
    rw [if_pos rfl]
    split
    · exact toList_apply (by rw [h, blocksList_singleton]; rfl)
    · refine toList_apply ?_
      rw [String.toList_append, toList_element, h, blocksList_singleton]
      rfl
    · rename_i hsqrt hlog
      have hsqrt : name ≠ "sqrt" := hsqrt
      have hlog : name ≠ "log10" := hlog
      have hfunction : function? name =
          if name = "expb" then some "<exp/>"
          else if name ∈ elements then some ("<" ++ name ++ "/>") else none := by
        simp [function?, elements]
      refine toList_apply ?_
      rw [h, blocksList_singleton, hfunction]
      refine congrArg (· ++ markup c.blocks) ?_
      by_cases hexpb : name = "expb"
      · subst hexpb
        rfl
      · by_cases helement : name ∈ elements
        · simp [hexpb, helement, hsqrt, hlog, Head.blocks, markup, Block.chars]
        · simp [hexpb, helement, hsqrt, hlog, Head.blocks, toList_identifier]
  · rw [if_neg hprimes, if_neg fun hexpb => hprimes hexpb.1]
    refine toList_apply ?_
    rw [h, blocksList_singleton, toList_identifier, Head.blocks, if_neg hprimes]

theorem toList_derivative (name : String) {body : String} {c : Content}
    (h : body.toList = markup c.blocks) :
    (apply "<diff/>" (element "bvar" (identifier name) ++ body)).toList =
      markup (Content.apply (.derivative name) [c]).blocks := by
  refine toList_apply ?_
  rw [String.toList_append, toList_element, toList_identifier, h, blocksList_singleton]
  simp [Head.blocks, markup, Block.chars]

end MathML

open MathML

namespace Expr

/-- The content of an expression is what its markup shows. -/
theorem toList_mathML (e : Expr) : e.mathML.toList = markup e.content.blocks := by
  induction e using Expr.induction with
  | number n =>
    rw [mathML, content, Content.blocks, Number.mathML, toList_element]
    simp [markup, Block.chars]
  | var name => rw [mathML, content, Content.blocks, toList_identifier]
  | element sequence index ih =>
    rw [mathML, content]
    refine toList_apply ?_
    rw [String.toList_append, toList_identifier, ih, blocksList_singleton]
    rfl
  | unary op u ih =>
    cases op with
    | plus => rw [mathML, content, ih]
    | neg =>
      rw [mathML, content]
      exact toList_apply (by rw [ih, blocksList_singleton]; rfl)
    | recip =>
      rw [mathML, content]
      refine toList_apply ?_
      rw [String.toList_append, toList_element, ih, blocksList_pair, markup_append]
      rfl
  | binary op u v ihu ihv =>
    rw [mathML, content]
    refine toList_apply ?_
    rw [String.toList_append, toList_operator, ihu, ihv, blocksList_pair, markup_append]
  | nary op es ih =>
    have hlist : (mathMLList es).toList = markup (Content.blocksList (contentList es)) := by
      induction es with
      | nil => rfl
      | cons e es ihes =>
        obtain ⟨he, hes⟩ := List.forall_mem_cons.1 ih
        rw [mathMLList, contentList, Content.blocksList, String.toList_append, markup_append, he,
          ihes hes]
    rw [mathML, content]
    exact toList_apply (by rw [toList_operator, hlist])
  | call f primes u ih =>
    rw [mathML, content]
    exact toList_call f primes ih
  | derivative body name ih =>
    rw [mathML, content]
    exact toList_derivative name ih
  | derivativeAt body name point ihbody ihpoint =>
    have hpoint : (apply "<eq/>" (identifier name ++ point.mathML)).toList =
        markup (Content.apply (.operator .eq) [.name name, point.content]).blocks := by
      refine toList_apply ?_
      rw [String.toList_append, toList_identifier, ihpoint, blocksList_pair, markup_append]
      rfl
    rw [mathML, content]
    refine toList_apply ?_
    rw [String.toList_append, toList_derivative name ihbody, hpoint, blocksList_pair, markup_append,
      toList_identifier]
    rfl
  | invalid issue =>
    rw [mathML, content]
    rfl
  | invalidPart issue part ih => rw [mathML, content, ih]

end Expr

/-! ## The value of a content -/

namespace MathML

open Exact

/-- The value of an application. An operator with other numbers of operands than its own has none,
but sums and products have any number. -/
def Head.value (I : Interpretation) : Head → List ℚ → Option ℚ
  | operator .sub, [q] => some (-q)
  | operator .add, qs => some qs.sum
  | operator .mul, qs => some qs.prod
  | operator op, [q, r] => Exact.binary op q r
  | selector sequence, [q] => I.sequence sequence q
  | function name primes, [q] => I.function name primes q
  | _, _ => none

mutual

/-- The exact value of a content. -/
def Content.value (I : Interpretation) : Content → Assignment → Option ℚ
  | .number n, _ => literal n
  | .name x, ρ => ρ x
  | .apply head operands, ρ => do head.value I (← valuesOf I operands ρ)
  | .error, _ => none

/-- The exact values of several contents. -/
def Content.valuesOf (I : Interpretation) : List Content → Assignment → Option (List ℚ)
  | [], _ => some []
  | c :: cs, ρ => do return (← c.value I ρ) :: (← valuesOf I cs ρ)

end

variable {I : Interpretation}

theorem value_operator (op : BinaryOp) (q r : ℚ) :
    (Head.operator op).value I [q, r] = Exact.binary op q r := by
  cases op <;> simp [Head.value, Exact.binary]

theorem value_family (op : Family) (qs : List ℚ) :
    (Head.operator op.binary).value I qs = some (family op qs) := by
  cases op <;> rfl

theorem value_singleton (head : Head) (c : Content) (ρ : Assignment) :
    (Content.apply head [c]).value I ρ =
      (do head.value I [← c.value I ρ]) := by
  rw [Content.value, Content.valuesOf, Content.valuesOf]
  cases c.value I ρ <;> rfl

theorem value_pair (head : Head) (c d : Content) (ρ : Assignment) :
    (Content.apply head [c, d]).value I ρ =
      (do head.value I [← c.value I ρ, ← d.value I ρ]) := by
  rw [Content.value, Content.valuesOf, Content.valuesOf, Content.valuesOf]
  cases c.value I ρ <;> cases d.value I ρ <;> rfl

end MathML

namespace Expr

open Exact

variable {I : Interpretation}

/-- The node is neither a derivative nor something that could not be read. -/
def isPlain : Expr → Bool
  | derivative _ _ | derivativeAt _ _ _ | invalid _ | invalidPart _ _ => false
  | _ => true

theorem values_contentList {es : List Expr} {ρ : Assignment}
    (h : ∀ e ∈ es, value I e ρ = e.content.value I ρ) :
    values I es ρ = Content.valuesOf I (contentList es) ρ := by
  induction es with
  | nil => rfl
  | cons e es ih =>
    obtain ⟨he, hes⟩ := List.forall_mem_cons.1 h
    rw [values, contentList, Content.valuesOf, he, ih hes]

/-- Without derivatives, an expression has the value of its content, if both exponential functions
are the same. -/
theorem value_content (hexp : I.function "expb" 0 = I.function "exp" 0) {e : Expr}
    (h : ∀ node ∈ e.nodes, node.isPlain = true) (ρ : Assignment) :
    value I e ρ = e.content.value I ρ := by
  induction e using induction_children with
  | step e ih =>
    obtain ⟨hplain, hnodes⟩ := forall_mem_nodes.1 h
    have hparts : ∀ part ∈ e.children, value I part ρ = part.content.value I ρ :=
      fun part hpart => ih part hpart (hnodes part hpart)
    cases e with
    | number n => rw [content, value, Content.value]
    | var name => rw [content, value, Content.value]
    | element sequence index =>
      rw [content, value, value_singleton, List.forall_mem_singleton.1 hparts]
      rfl
    | unary op u =>
      have hu := List.forall_mem_singleton.1 hparts
      cases op with
      | plus =>
        rw [content, value, hu]
        exact bind_pure _
      | neg =>
        rw [content, value, value_singleton, hu]
        rfl
      | recip =>
        rw [content, value, value_pair, hu, Content.value]
        rfl
    | binary op u v =>
      obtain ⟨hu, hv⟩ := forall_mem_pair.1 hparts
      rw [content, value, value_pair, hu, hv]
      simp only [value_operator]
    | nary op es =>
      have hes : values I es ρ = Content.valuesOf I (contentList es) ρ :=
        values_contentList hparts
      rw [content, value, Content.value, hes]
      simp only [value_family]
      rfl
    | call f primes u =>
      have hfunction : I.function f primes =
          I.function (if primes = 0 ∧ f = "expb" then "exp" else f) primes := by
        split
        · rename_i hexpb
          rw [hexpb.1, hexpb.2, hexp]
        · rfl
      rw [content, value, value_singleton, List.forall_mem_singleton.1 hparts, hfunction]
      rfl
    | _ => cases hplain

end Expr

end Formulary
