/-!
# Scopes and composite names

A scope is the list of names that are bound while a formula is read. A name that is not bound but
is put together from bound names stands for their product. Longer parts are tried first at every
position, and a choice that leads nowhere is taken back.
-/

namespace Formulary

/-- The names bound while reading a formula. -/
abbrev Scope := List String

namespace Scope

/-- Cuts a text into bound names, longest names first. `fuel` bounds the number of parts; the length
of the text is always enough. -/
def splitChars (scope : Scope) : (fuel : Nat) → List Char → Option (List String)
  | 0, _ => none
  | fuel + 1, cs =>
    if scope.contains (String.ofList cs) then some [String.ofList cs]
    else
      (List.range' 1 (cs.length - 1)).reverse.findSome? fun n =>
        let part := String.ofList (cs.take n)
        if scope.contains part then (splitChars scope fuel (cs.drop n)).map (part :: ·) else none

/-- Cuts a name into bound names, if that is possible. A bound name is its own single part. -/
def split? (scope : Scope) (name : String) : Option (List String) :=
  splitChars scope (name.length + 1) name.toList

end Scope

end Formulary
