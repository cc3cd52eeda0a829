import Formulary.Expr.Traversal
import Formulary.Function.StandIn

/-!
# The functions of an environment

A function that is not builtin is defined by a formula or has a random stand-in. A stand-in is drawn
once, when the name is first called, and only a definition replaces it.
-/

namespace Formulary

/-- The meaning of a function. -/
inductive Definition where
  /-- A formula in an input. -/
  | formula (input : String) (body : Expr)
  /-- A random stand-in. -/
  | standIn (s : StandIn)
deriving DecidableEq

/-- The meanings of functions by name; the first entry of a name counts. -/
structure Functions where
  entries : List (String × Definition) := []
deriving DecidableEq, Inhabited

namespace Functions

/-- The meaning of a function. -/
def get? (fs : Functions) (name : String) : Option Definition := fs.entries.lookup name

/-- Gives a function a meaning, in place of any it had. -/
def insert (fs : Functions) (name : String) (d : Definition) : Functions :=
  ⟨(name, d) :: fs.entries.filter (·.1 != name)⟩

/-- Defines a function by a formula. -/
def define (fs : Functions) (name input : String) (body : Expr) : Functions :=
  fs.insert name (.formula input body)

/-- Draws a stand-in for a function that has no meaning yet. -/
def ensure (fs : Functions) (name : String) (r : Random) : Functions × Random :=
  match fs.get? name with
  | some _ => (fs, r)
  | none =>
    let (s, r) := StandIn.draw r
    (fs.insert name (.standIn s), r)

/-- The function that an expression calls at its root, if it is not builtin. -/
def calledBy? : Expr → Option String
  | .call function _ _ => if Names.isBuiltin function then none else some function
  | _ => none

/-- Draws stand-ins for several functions, one after another. -/
def ensureAll (fs : Functions) (names : List String) (r : Random) : Functions × Random :=
  names.foldl (fun (fs, r) name => fs.ensure name r) (fs, r)

/-- Draws stand-ins for the unknown functions that an expression calls, in the order of their first
calls. -/
def register (fs : Functions) (e : Expr) (r : Random) : Functions × Random :=
  fs.ensureAll (e.nodes.filterMap calledBy?) r

end Functions

end Formulary
