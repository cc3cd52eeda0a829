/-!
# References in a text

A text may refer to objects by their names in double braces. Filling it in replaces each reference
to a known object and leaves everything else as it is, references to unknown objects included.
-/

namespace Formulary.Template

/-- An opening brace. -/
def opening : Char := '\x7b'

/-- A closing brace. -/
def closing : Char := '\x7d'

/-- A character inside a name: a letter, a digit or an underscore of ASCII. -/
def isNamePart (c : Char) : Bool := c.isAlphanum || c == '_'

/-- The name at the front of a text: a letter, followed by letters, digits and underscores. -/
def nameOf : List Char → List Char
  | [] => []
  | c :: cs => if c.isAlpha then c :: cs.takeWhile isNamePart else []

/-- What follows two closing braces at the front of a text. -/
def afterClosing? : List Char → Option (List Char)
  | c :: d :: cs => if c = closing ∧ d = closing then some cs else none
  | _ => none

/-- A reference at the front of a text, after its opening braces: the text of the object and what
follows the reference. -/
def reference? (object? : String → Option String) (cs : List Char) :
    Option (List Char × List Char) := do
  let name := nameOf cs
  let rest ← afterClosing? (cs.drop name.length)
  let text ← object? (String.ofList name)
  return (text.toList, rest)

theorem length_afterClosing {cs rest : List Char} (h : afterClosing? cs = some rest) :
    rest.length < cs.length := by
  unfold afterClosing? at h
  split at h
  · split at h
    · cases h
      simp only [List.length_cons]
      omega
    · cases h
  · cases h

theorem length_reference {object? : String → Option String} {cs text rest : List Char}
    (h : reference? object? cs = some (text, rest)) : rest.length < cs.length := by
  simp only [reference?, bind, Option.bind_eq_some_iff, Option.some.injEq, pure] at h
  obtain ⟨rest', hrest, text', -, h⟩ := h
  cases h
  have := length_afterClosing hrest
  simp only [List.length_drop] at this
  omega

/-- Replaces the references of a text. After two opening braces that start no reference, the text
goes on behind both of them. -/
def fillChars (object? : String → Option String) : List Char → List Char
  | c :: d :: cs =>
    if c = opening ∧ d = opening then
      match _h : reference? object? cs with
      | some (text, rest) => text ++ fillChars object? rest
      | none => c :: d :: fillChars object? cs
    else c :: fillChars object? (d :: cs)
  | cs => cs
termination_by cs => cs.length
decreasing_by
  · have := length_reference _h
    simp only [List.length_cons]
    omega
  · simp only [List.length_cons]
    omega
  · simp only [List.length_cons]
    omega

/-- Replaces the references of a text to objects. -/
def fill (object? : String → Option String) (text : String) : String :=
  String.ofList (fillChars object? text.toList)

end Formulary.Template
