import Formulary.Comparison
import Formulary.Parameter
import Formulary.Rule.Reduction
import Formulary.Rule.Standard
import Formulary.Template

/-!
# Environments

An environment is the context of a problem. It holds the named objects that formulas refer to:
parameters, which are numbers, variables and expressions. It owns the seeded generator, the meanings
of functions and the catalogs of rules.

An operation that may change the environment gives its answer together with the environment after
it, whether the answer is a failure or not. Drawing a parameter may also trap on words; the
environment then stays as it is.
-/

namespace Formulary

/-- The context of a problem. -/
structure Environment where
  /-- Tolerances and switches. -/
  options : Options := {}
  /-- Where random values are drawn from. -/
  generator : Random
  /-- The meanings of functions that are not builtin. -/
  functions : Functions := {}
  /-- The parameters by name. -/
  parameters : List (String × Number) := []
  /-- The names that were declared as variables, in order. -/
  declared : List String := []
  /-- The expressions by name. -/
  expressions : List (String × Expr) := []
  /-- The rules that reductions work with. -/
  reductions : Catalog
  /-- The rules for sums. -/
  sums : Catalog
  /-- The rules for products and powers. -/
  products : Catalog
deriving DecidableEq

/-- The catalogs of an environment. -/
inductive CatalogName where
  | reductions
  | sums
  | products
deriving DecidableEq, Repr

/-- Why a request is not met. -/
inductive Stop where
  /-- It failed on a formula or a rule. -/
  | failed (failure : Failure)
  /-- A step on words that is not checked has no result. -/
  | trapped (trap : Word.Trap)
deriving DecidableEq, Repr

/-- How a single formula is read. -/
structure ReadingMode where
  /-- The formula has to be a number, written with parameters only. -/
  constant : Bool := false
  /-- Numbers with a decimal point are refused. -/
  noDecimals : Bool := false
  /-- The formula is flattened; without a choice the options decide. -/
  flatten : Option Bool := none
deriving DecidableEq, Repr

namespace Environment

/-- The environment at the start, with the standard catalogs. -/
def ofSeed (seed : UInt64) : Environment where
  generator := .ofSeed seed
  reductions := .reductions {}
  sums := .sums {}
  products := .products {}

instance : Inhabited Environment := ⟨ofSeed Random.defaultSeed⟩

/-- Puts an object under a name, in place of the one it had. -/
def put {α : Type} (objects : List (String × α)) (name : String) (object : α) : List (String × α) :=
  (name, object) :: objects.filter (·.1 != name)

/-! ## Looking at an environment -/

/-- The names of all objects. A name that stands for several objects is listed several times. -/
def names (env : Environment) : Scope :=
  env.parameters.map (·.1) ++ env.expressions.map (·.1) ++ env.declared

/-- The value of a parameter. -/
def parameter? (env : Environment) (name : String) : Option Number := env.parameters.lookup name

/-- The expression with a name. -/
def expression? (env : Environment) (name : String) : Option Expr := env.expressions.lookup name

/-- The object with a name: a parameter, else an expression, else a variable. -/
def object? (env : Environment) (name : String) : Option Expr :=
  match env.parameter? name, env.expression? name with
  | some n, _ => some (.number n)
  | none, some e => some e
  | none, none => if env.declared.contains name then some (.var name) else none

/-- The values of the parameters and the meanings of functions. -/
def bindings (env : Environment) : Bindings where
  values := env.parameters.map fun (name, n) => (name, n.value)
  functions := env.functions
  tolerance := env.options.absoluteTolerance

/-- A catalog of the environment. -/
def catalog (env : Environment) : CatalogName → Catalog
  | .reductions => env.reductions
  | .sums => env.sums
  | .products => env.products

/-- An object written into a formula, or into TeX for display. -/
def objectText? (env : Environment) (display : Bool) (name : String) : Option String :=
  (env.object? name).map fun e =>
    if display then Tex.group e.tex else "(" ++ e.text ++ ")"

/-- Replaces references to objects in a text. -/
def decode (env : Environment) (text : String) (display : Bool) : String :=
  Template.fill (env.objectText? display) text

/-! ## Reading formulas -/

/-- Draws stand-ins for the unknown functions of an expression. -/
def register (env : Environment) (e : Expr) : Environment :=
  let (functions, generator) := env.functions.register e env.generator
  { env with functions := functions, generator := generator }

/-- Folds an expression to a number. All its names have to be parameters. A value that is not exact
is computed on doubles. -/
def foldNumber (env : Environment) (span : Span) (e : Expr) : Expr :=
  if e.dependencies.all fun name => (env.parameter? name).isSome then
    let σ := env.parameters.map fun (name, n) => (name, Substitution.expr (.number n))
    match (e.substitute env.names σ).fold env.options with
    | .number n => .number n
    | e =>
      match e.eval env.bindings with
      | some v => .number (.ofDouble v)
      | none => .number .undefined
  else .invalidPart ⟨span, .notConstant⟩ e

/-- Reads a formula with the names of the objects bound. If it can be read, the unknown functions it
calls get stand-ins. -/
def read (env : Environment) (mode : ReadingMode) (source : String) : Expr × Environment :=
  let settings : Reading.Settings :=
    { negativeNumbers := env.options.negativeNumbers, noDecimals := mode.noDecimals }
  let e := Reading.read settings env.names source
  if e.hasIssue then (e, env)
  else
    let env := env.register e
    let e := if mode.constant then env.foldNumber ⟨0, source.utf8ByteSize⟩ e else e
    (if mode.flatten.getD env.options.flattenOnReading then e.flatten else e, env)

/-- Reads a formula that has to be free of issues. -/
def readSound (env : Environment) (mode : ReadingMode) (source : String) :
    Except Failure Expr × Environment :=
  let (e, env) := env.read mode source
  match e.firstIssue? with
  | some issue => (.error issue.toFailure, env)
  | none => (.ok e, env)

/-! ## Objects -/

/-- Adds a variable, unless it is there. -/
def addVariable (env : Environment) (name : String) : Environment :=
  if env.declared.contains name then env
  else { env with declared := env.declared ++ [name] }

/-- Adds a parameter. -/
def putParameter (env : Environment) (name : String) (n : Number) : Environment :=
  { env with parameters := put env.parameters name n }

/-- Chooses the value of a parameter. -/
def choose (env : Environment) (name : String) :
    Parameter.Choice → Except Stop Number × Environment
  | .random least greatest step nonzero =>
    match
      Parameter.draw env.options.absoluteTolerance least greatest step nonzero env.generator with
    | .ok (v, generator) => (.ok (.ofDouble v), { env with generator := generator })
    | .error trap => (.error (.trapped trap), env)
  | .formula source =>
    let (e, env) := env.read { constant := true } source
    let undefined : Stop := .failed ⟨⟨0, source.utf8ByteSize⟩, .undefinedParameter name⟩
    match e with
    | .number n => if n.isNaN then (.error undefined, env) else (.ok n, env)
    | _ => (.error undefined, env)
  | .fraction numerator denominator => (.ok (.ofRatio numerator denominator), env)
  | .fixed value => (.ok (.ofDouble value), env)

/-- Chooses the value of a parameter and adds it. -/
def addParameter (env : Environment) (name : String) (p : Parameter) :
    Except Stop Number × Environment :=
  match env.choose name p.choice with
  | (.ok n, env) =>
    let n := Parameter.round p.precision n
    (.ok n, env.putParameter name n)
  | (.error stop, env) => (.error stop, env)

/-- Adds a constant expression as a parameter. -/
def addNumber (env : Environment) (name : String) (e : Expr) :
    Except Failure Number × Environment :=
  match env.foldNumber ⟨0, 0⟩ e with
  | .number n => (.ok n, env.putParameter name n)
  | _ => (.error ⟨⟨0, 0⟩, .notANumber name⟩, env)

/-- Reads a formula, with references to objects, and adds it as an expression. -/
def addExpression (env : Environment) (name formula : String) :
    Except Failure Expr × Environment :=
  match env.readSound {} (env.decode formula false) with
  | (.ok e, env) => (.ok e, { env with expressions := put env.expressions name e })
  | (.error f, env) => (.error f, env)

/-- Defines a function by a formula in an input. -/
def define (env : Environment) (name input formula : String) : Except Failure Unit × Environment :=
  match env.readSound {} formula with
  | (.ok body, env) => (.ok (), { env with functions := env.functions.define name input body })
  | (.error f, env) => (.error f, env)

/-! ## Working with expressions -/

/-- Puts substitutions in the place of names. Texts are read with the names of the objects bound. -/
def substitute (env : Environment) (e : Expr) (σ : Substitutions) : Expr :=
  e.substitute env.names σ

/-- The derivative of an expression. Parameters are constant, and every other name depends on `x`. -/
def differentiate (env : Environment) (e : Expr) (x : String) : Expr :=
  e.differentiate x (env.parameters.map (·.1))

/-- The expression that a substitution stands for. -/
def expr (env : Environment) : Substitution → Expr × Environment
  | .text source => env.read {} source
  | .expr e => (e, env.register e)

/-- Evaluates a formula with references to objects, or an expression. The given values come before
those of the parameters. -/
def evaluate (env : Environment) (object : Substitution) (values : List (String × Float)) :
    Option Float × Environment :=
  let object :=
    match object with
    | .text source => .text (env.decode source false)
    | .expr e => .expr e
  let (e, env) := env.expr object
  let b := env.bindings
  (e.eval { b with values := values ++ b.values }, env)

/-- Compares two formulas or expressions. -/
def compare (env : Environment) (c : Comparison) (u v : Substitution) : Bool × Environment :=
  let (u, env) := env.expr u
  let (v, env) := env.expr v
  (c.equal env.bindings u v, env)

/-! ## Rules -/

/-- Puts a catalog in the place of another. -/
def putCatalog (env : Environment) (c : Catalog) : CatalogName → Environment
  | .reductions => { env with reductions := c }
  | .sums => { env with sums := c }
  | .products => { env with products := c }

/-- Adds a valid rule to a catalog. -/
def addRule (env : Environment) (catalog : CatalogName) (equation description : String)
    (oneWay : Bool) : Except Failure Unit × Environment :=
  match (env.catalog catalog).add env.options equation description true oneWay with
  | .ok c => (.ok (), env.putCatalog c catalog)
  | .error f => (.error f, env)

/-- Switches off the reductions whose pattern matches the left side of an equation, and counts
them. -/
def disableReduction (env : Environment) (equation : String) : Except Failure Nat × Environment :=
  match env.reductions.disable env.options equation with
  | .ok (count, c) => (.ok count, { env with reductions := c })
  | .error f => (.error f, env)

/-- The offers of a catalog for an expression. -/
def offers (env : Environment) (catalog : CatalogName) (e : Expr) (strict : Bool) : List Offer :=
  (env.catalog catalog).offers e strict

/-- Reduces an expression. -/
def reduce (env : Environment) (e : Expr) : Expr × List Reduction.Step :=
  e.reduce env.reductions env.options

end Environment

end Formulary
