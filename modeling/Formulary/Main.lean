import Formulary.Random.Seed
import Formulary.Shell

/-!
# The shell as a program

Runs the lines of a script file, or those of the standard input. A terminal gets a prompt before
each line. Blank lines and comments are skipped; a line that fails is reported, and the next one
goes on from where it left the environment.
-/

namespace Formulary.Program

/-- The arguments of the program. -/
structure Arguments where
  /-- The seed of the generator, as a text. -/
  seed : Option String := none
  /-- The file with the lines to run. -/
  script : Option String := none

/-- The arguments that a command line gives: options come in any order, and there is at most one
script. -/
def Arguments.read? (a : Arguments) : List String → Option Arguments
  | [] => some a
  | "--seed" :: seed :: rest => { a with seed := some seed }.read? rest
  | ["--seed"] => none
  | word :: rest =>
    if word.startsWith "--seed=" then
      { a with seed := some (String.ofList (word.toList.drop 7)) }.read? rest
    else if word.startsWith "-" || a.script.isSome then none
    else { a with script := some word }.read? rest

/-- The environment to start with. -/
def Arguments.environment (a : Arguments) : Environment :=
  .ofSeed ((a.seed.map Seed.ofText).getD Random.defaultSeed)

/-- Runs a line and shows its text, or what is wrong with it. -/
def runLine (env : Environment) (line : String) : IO Environment := do
  if Shell.isSkipped line then return env
  let (answer, env) := Shell.runLine env line
  match answer with
  | .ok text => IO.println text
  | .error e => e.lines.forM (IO.eprintln ·)
  return env

/-- Runs the lines of a script. -/
def runScript (env : Environment) (script : String) : IO Unit := do
  let _ ← (script.splitOn "\n").foldlM runLine env

/-- Reads and runs lines until the input ends. -/
partial def interact (input : IO.FS.Stream) (env : Environment) : IO Unit := do
  IO.print "> "
  (← IO.getStdout).flush
  let line ← input.getLine
  unless line.isEmpty do interact input (← runLine env line)

/-- All that is left to read of an input. -/
partial def readAll (input : IO.FS.Stream) (text : String) : IO String := do
  let line ← input.getLine
  if line.isEmpty then return text else readAll input (text ++ line)

/-- Runs the script, or the standard input if there is none. -/
def start (a : Arguments) : IO UInt32 := do
  match a.script with
  | some path =>
    try
      runScript a.environment (← IO.FS.readFile path)
      return 0
    catch e =>
      IO.eprintln (path ++ ": " ++ toString e)
      return 1
  | none =>
    let input ← IO.getStdin
    if ← input.isTty then interact input a.environment
    else runScript a.environment (← readAll input "")
    return 0

end Formulary.Program

/-- The program. -/
def main (words : List String) : IO UInt32 := do
  match Formulary.Program.Arguments.read? {} words with
  | some a => Formulary.Program.start a
  | none =>
    IO.eprintln "usage: [--seed <seed>] [<script>]"
    return 2
