import Formulary.Decimal.Writing
import Formulary.Environment
import Formulary.Space
import Formulary.Writing.MathML

/-!
# The shell

A line of the shell is a command, which starts with a colon, or a formula to evaluate. Commands are
run one after another in an environment; each gives a text to show.
-/

namespace Formulary

/-- A line of the shell. -/
inductive Command where
  | evaluate (source : String)
  | tex (source : String)
  | mathML (source : String)
  | differentiate (x source : String)
  | simplify (source : String)
  | flatten (source : String)
  | reduce (source : String)
  | compare (left right : String) (shape : Bool)
  | rules (source : String)
  | letNumber (name value : String)
  | declare (name : String)
  | letExpression (name formula : String)
  | help
deriving DecidableEq, Repr

namespace Shell

/-- Why a line is no command. -/
inductive Misuse where
  /-- The command lacks something; `usage` shows its form. -/
  | incomplete (usage : String)
  /-- A name has characters other than letters, digits and underscores. -/
  | invalidName (name : String)
  /-- There is no such command. -/
  | unknownCommand (name : String)
deriving DecidableEq, Repr

/-- What keeps a line from giving a text. -/
inductive Error where
  /-- The line is no command. -/
  | misuse (m : Misuse)
  /-- The command failed on a part of the line. -/
  | failed (source : String) (failure : Failure)
deriving DecidableEq, Repr

/-- The words for a misuse. -/
def Misuse.message : Misuse → String
  | incomplete usage => "usage: " ++ usage
  | invalidName name => quoted name ++ " is not a valid name"
  | unknownCommand name => "unknown command " ++ quoted (":" ++ name) ++ "; try :help"

/-- The words for a failure, each in a line: the message, what is wrong with the part of the source
it points at, and further advice. -/
def failureLines (source : String) (f : Failure) : List String :=
  let r := f.fault.report
  let line (word : String) (text : String) : String := "  " ++ word ++ ": " ++ text
  ["Error: " ++ r.message, line source r.label] ++ (r.help.map (line "Help")).toList ++
    (r.note.map (line "Note")).toList

/-- The words for an error, each in a line. -/
def Error.lines : Error → List String
  | misuse m => [m.message]
  | failed source failure => failureLines source failure

/-! ## Reading a line -/

/-- A text without the white space at both ends. -/
def trim (cs : List Char) : String := String.ofList (Space.trim cs)

/-- The characters before and after the first one that satisfies a test. -/
def cut? (test : Char → Bool) (cs : List Char) : Option (List Char × List Char) :=
  match cs.dropWhile (!test ·) with
  | [] => none
  | _ :: rest => some (cs.takeWhile (!test ·), rest)

/-- The characters before and after the first two semicolons. -/
def cutAtSemicolons? : List Char → Option (List Char × List Char)
  | ';' :: ';' :: rest => some ([], rest)
  | c :: cs => (cutAtSemicolons? cs).map fun (before, rest) => (c :: before, rest)
  | [] => none

/-- A character that may stand in a name. -/
def isNamePart (c : Char) : Bool := c.isAlphanum || c == '_'

/-- Reads a name and a value with an equals sign between them. -/
def assignment (usage : String) (cs : List Char) : Except Misuse (String × String) :=
  match cut? (· == '=') cs with
  | none => .error (.incomplete usage)
  | some (name, value) =>
    let name := Space.trim name
    if name.isEmpty || !name.all isNamePart then .error (.invalidName (String.ofList name))
    else .ok (String.ofList name, trim value)

/-- Reads two formulas with two semicolons between them. -/
def pair (cs : List Char) : Except Misuse (String × String) :=
  match cutAtSemicolons? cs with
  | none => .error (.incomplete ":compare <a> ;; <b>")
  | some (left, right) => .ok (trim left, trim right)

/-- Reads a command from its name and the rest of the line. -/
def command (name : String) (rest : List Char) : Except Misuse Command :=
  let text := String.ofList rest
  match name with
  | "tex" => .ok (.tex text)
  | "mathml" => .ok (.mathML text)
  | "d" =>
    match cut? Space.isSpace rest with
    | none => .error (.incomplete ":d <var> <expr>")
    | some (x, source) => .ok (.differentiate (String.ofList x) (trim source))
  | "simplify" => .ok (.simplify text)
  | "flatten" => .ok (.flatten text)
  | "reduce" => .ok (.reduce text)
  | "compare" => (pair rest).map fun (left, right) => .compare left right false
  | "shape" => (pair rest).map fun (left, right) => .compare left right true
  | "rules" => .ok (.rules text)
  | "let" => (assignment ":let <name> = <value>" rest).map fun (name, value) => .letNumber name value
  | "var" => if rest.isEmpty then .error (.unknownCommand name) else .ok (.declare text)
  | "expr" =>
    (assignment ":expr <name> = <expr>" rest).map fun (name, formula) => .letExpression name formula
  | "help" => .ok .help
  | _ => .error (.unknownCommand name)

/-- Reads a line. -/
def parse (line : String) : Except Misuse Command :=
  match Space.trim line.toList with
  | ':' :: cs =>
    let (name, rest) := (cut? Space.isSpace cs).getD (cs, [])
    command (String.ofList name) (Space.trim rest)
  | cs => .ok (.evaluate (String.ofList cs))

/-! ## Running a command -/

/-- The text of the help command. -/
def helpText : String :=
  "\n".intercalate [
    "<expr>                  evaluate an expression",
    ":tex <expr>             write an expression as TeX",
    ":mathml <expr>          write an expression as MathML",
    ":d <var> <expr>         differentiate with respect to a variable",
    ":simplify <expr>        fold constants",
    ":flatten <expr>         flatten sums and products",
    ":reduce <expr>          apply the reduction rules, showing each step",
    ":compare <a> ;; <b>     check whether two expressions are equivalent",
    ":shape <a> ;; <b>       same, also requiring the same shape",
    ":rules <expr>           list the rules that match an expression",
    ":let <name> = <value>   define a parameter",
    ":var <name>             declare a variable",
    ":expr <name> = <expr>   define a named expression",
    ":help                   show this message"]

/-- An answer of the shell and the environment after it. -/
abbrev Answer := Except Error String × Environment

/-- A failure on a part of the line. -/
def failOn {α : Type} (source : String) : Except Failure α → Except Error α
  | .ok a => .ok a
  | .error failure => .error (.failed source failure)

/-- Reads a formula and goes on with it. -/
def withFormula (env : Environment) (source : String)
    (run : Environment → Expr → Answer) : Answer :=
  match env.readSound {} source with
  | (.ok e, env) => run env e
  | (.error failure, env) => (.error (.failed source failure), env)

/-- A command that shows something about a formula and changes nothing more. -/
def showing (env : Environment) (source : String) (text : Environment → Expr → String) : Answer :=
  withFormula env source fun env e => (.ok (text env e), env)

/-- The value of an expression as a text. -/
def valueText (env : Environment) (e : Expr) : String :=
  match e.eval env.bindings with
  | some v => Double.write v
  | none => "undefined"

/-- The steps of a reduction, each in a line, and its result. -/
def reductionText (env : Environment) (e : Expr) : String :=
  let (result, steps) := env.reduce e
  let line (s : Reduction.Step) : String :=
    s.before ++ " => " ++ s.after ++ "    (" ++ s.rule.description ++ ")\n"
  String.join (steps.map line) ++ result.text

/-- The offers of a catalog, each in a line. -/
def offerLines (env : Environment) (e : Expr) (label : String) (name : CatalogName) :
    List String :=
  (env.offers name e true).map fun o =>
    "[" ++ label ++ " #" ++ toString o.rule.id ++ "] " ++ o.rule.description ++ ": " ++ o.text

/-- The offers of all catalogs. -/
def rulesText (env : Environment) (e : Expr) : String :=
  let lines := offerLines env e "reductions" .reductions ++ offerLines env e "sums" .sums ++
    offerLines env e "products" .products
  if lines.isEmpty then "no rules match" else "\n".intercalate lines

/-- Runs a command. -/
def run (env : Environment) : Command → Answer
  | .evaluate source =>
    showing env source fun env e => e.text ++ " = " ++ valueText env e
  | .tex source => showing env source fun _ e => e.tex
  | .mathML source => showing env source fun _ e => e.mathML
  | .differentiate x source =>
    showing env source fun env e => ((env.differentiate e x).fold env.options).text
  | .simplify source => showing env source fun env e => (e.fold env.options).text
  | .flatten source => showing env source fun _ e => e.flatten.text
  | .reduce source => showing env source reductionText
  | .compare left right shape =>
    withFormula env left fun env u =>
      withFormula env right fun env v =>
        let (equal, env) := env.compare { shape := shape } (.expr u) (.expr v)
        (.ok (if equal then "true" else "false"), env)
  | .rules source => showing env source rulesText
  | .letNumber name value =>
    match env.readSound { constant := true } value with
    | (.ok e, env) =>
      let (n, env) := env.addNumber name e
      (failOn value (n.map fun n => name ++ " = " ++ n.write), env)
    | (.error failure, env) => (.error (.failed value failure), env)
  | .declare name => (.ok (Expr.var name).text, env.addVariable name)
  | .letExpression name formula =>
    let (e, env) := env.addExpression name formula
    (failOn formula (e.map fun e => name ++ " = " ++ e.text), env)
  | .help => (.ok helpText, env)

/-- Reads and runs a line. -/
def runLine (env : Environment) (line : String) : Answer :=
  match parse line with
  | .ok c => run env c
  | .error m => (.error (.misuse m), env)

/-- A line of a script that is left out: it is blank or a comment. -/
def isSkipped (line : String) : Bool :=
  match Space.trim line.toList with
  | [] => true
  | c :: _ => c == '#'

end Shell

end Formulary
