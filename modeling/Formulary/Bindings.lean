import Formulary.Function
import Formulary.Scope

/-!
# Bindings

What the names of an expression stand for while it is evaluated: values, sequences of values, and
functions.
-/

namespace Formulary

/-- The meanings of names; the first entry of a name counts. -/
structure Bindings where
  /-- Values of names. -/
  values : List (String × Float) := []
  /-- Sequences, whose elements are counted from one. -/
  sequences : List (String × List Float) := []
  /-- Functions that are not builtin. -/
  functions : Functions := {}
  /-- The tolerance of equations. -/
  tolerance : Float := 1e-8
deriving DecidableEq, Inhabited

namespace Bindings

/-- The value bound to a name. -/
def value? (b : Bindings) (name : String) : Option Float := b.values.lookup name

/-- The sequence bound to a name. -/
def sequence? (b : Bindings) (name : String) : Option (List Float) := b.sequences.lookup name

/-- Binds a name to a value. -/
def bind (b : Bindings) (name : String) (v : Float) : Bindings :=
  { b with values := (name, v) :: b.values }

/-- All names with a value or a sequence. -/
def names (b : Bindings) : Scope := b.values.map (·.1) ++ b.sequences.map (·.1)

end Bindings

end Formulary
