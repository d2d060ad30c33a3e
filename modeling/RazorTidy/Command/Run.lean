import RazorTidy.Command.Invocation
import RazorTidy.Format
import RazorTidy.Node.Outline
import RazorTidy.StyleFile.Lookup

/-!
# Running the command

The command settles the style, then formats the standard input or the given files in order. A file
that cannot be read ends the run; what was done before it stays done.
-/

set_option autoImplicit false

namespace RazorTidy

/-- Why a run fails. -/
inductive Failure where
  /-- An outline can neither be written nor checked. -/
  | outlineConflict
  /-- The style cannot be loaded. -/
  | load (cause : StyleError)
  /-- The style is wrong after the widths of the invocation. -/
  | invalid (cause : StyleError)
  /-- There is no file to write. -/
  | nothingToWrite
  /-- The standard input cannot be read. -/
  | input (cause : ReadError)
  /-- A file cannot be read. -/
  | file (path : Text) (cause : ReadError)
  deriving DecidableEq, Repr

/-- The failure and its causes in words. -/
def Failure.chain : Failure → List Text
  | .outlineConflict => ["--emit ast cannot be combined with --write or --check".toList]
  | .load cause => "Failed to load config".toList :: cause.chain
  | .invalid cause => cause.chain
  | .nothingToWrite => ["--write needs at least one file".toList]
  | .input cause => ["Failed to read stdin".toList, cause.message]
  | .file path cause => ["Failed to read ".toList ++ path, cause.message]

/-- The message of a failed run. -/
def Failure.message (failure : Failure) : Text :=
  "Error: ".toList ++ Text.joinWith ": ".toList failure.chain

namespace Command

/-- The line that names the command and its version. -/
def versionLine : Text := "razorfmt 0.1.0\n".toList

/-- The text that explains the command. -/
def helpText : Text :=
  "Canonical formatter for Razor templates\n\n".toList ++
  "Usage: razorfmt [OPTIONS] [FILES]...\n\n".toList ++
  "Arguments:\n".toList ++
  "  [FILES]...  Files to format. Reads stdin when none are given\n\n".toList ++
  "Options:\n".toList ++
  "      --write             Format files in place\n".toList ++
  "      --check             List files whose formatting would change\n".toList ++
  "      --config <PATH>     Config file to use\n".toList ++
  "      --indent-width <N>  Spaces per indentation level\n".toList ++
  "      --print-width <N>   Target line width\n".toList ++
  "      --emit <EMIT>       What to print [possible values: formatted, ast]\n".toList ++
  "  -h, --help              Print help\n".toList ++
  "  -V, --version           Print version\n".toList

/-- A style with the widths of an invocation. -/
def overridden (inv : Invocation) (style : Style) : Style :=
  { style with
    indentWidth := inv.indentWidth.getD style.indentWidth
    printWidth := inv.printWidth.getD style.printWidth }

/-- What an invocation prints of a template. -/
def output (inv : Invocation) (style : Style) (source : Text) : Text :=
  match inv.emission.getD .formatted with
  | .formatted => style.format source
  | .outline => (Outline.list (Node.outlines (style.parse source))).spread 0 ++ ['\n']

variable {m : Type → Type} [Monad m]

/-- The style of an invocation: the loaded one with the widths of the invocation, if they are in
their ranges. -/
def settle (host : Host m) (around : Surroundings) (inv : Invocation) :
    ExceptT Failure m Style := do
  match ← ExceptT.lift (StyleFile.load host around inv.config) with
  | .error cause => throw (.load cause)
  | .ok style =>
    match (overridden inv style).validate with
    | .error cause => throw (.invalid cause)
    | .ok style => return style

/-- Formats the standard input. Answers whether it was checked and would change. -/
def runInput (host : Host m) (inv : Invocation) (style : Style) : ExceptT Failure m Bool := do
  if inv.write then throw .nothingToWrite
  match ← host.input with
  | .error cause => throw (.input cause)
  | .ok source =>
    let result := output inv style source
    if inv.check then
      let changed := result != source
      if changed then host.print "<stdin>\n".toList
      return changed
    else
      host.print result
      return false

/-- Formats a file. Answers whether it differs from its formatted text. -/
def runFile (host : Host m) (inv : Invocation) (style : Style) (path : Text) :
    ExceptT Failure m Bool := do
  match ← ExceptT.lift (host.read path) with
  | .error cause => throw (.file path cause)
  | .ok source =>
    let result := output inv style source
    let changed := result != source
    if inv.check then
      if changed then host.print (path ++ ['\n'])
    else if inv.write then
      if changed then
        host.replace path result
        host.log ("formatted ".toList ++ path)
    else host.print result
    return changed

/-- Formats files in order. Answers whether one of them differs from its formatted text. -/
def runFiles (host : Host m) (inv : Invocation) (style : Style) :
    List Text → ExceptT Failure m Bool
  | [] => return false
  | path :: rest => do
    let changed ← runFile host inv style path
    return (← runFiles host inv style rest) || changed

/-- Runs an invocation. Answers whether a check found something to change. -/
def run (host : Host m) (around : Surroundings) (inv : Invocation) : ExceptT Failure m Bool := do
  if inv.emission = some .outline ∧ (inv.write ∨ inv.check) then throw .outlineConflict
  let style ← settle host around inv
  if inv.files.isEmpty then runInput host inv style
  else return (← runFiles host inv style inv.files) && inv.check

/-- The exit code of a run. -/
def exitCode : Except Failure Bool → Nat
  | .ok false => 0
  | .ok true => 1
  | .error _ => 1

end Command

end RazorTidy
