import RazorTidy.StyleFile.Toml

/-!
# Invocations

What the arguments of the command ask for. Arguments are read from left to right. Options may stand
between files, give their value after an equals sign or as the next argument, and occur once at
most; after `--` everything is a file. The first argument that is wrong, or asks for the version or
for help, decides.
-/

set_option autoImplicit false

namespace RazorTidy

/-- What the command prints of a template. -/
inductive Emission where
  /-- The formatted template. -/
  | formatted
  /-- The outline of its forest. -/
  | outline
  deriving DecidableEq, Repr

/-- What the arguments ask for. -/
structure Invocation where
  /-- The paths of the files, in order; without any, the standard input is formatted. -/
  files : List Text := []
  /-- Whether files are to be replaced by their formatted text. -/
  write : Bool := false
  /-- Whether files are to be listed that formatting would change. -/
  check : Bool := false
  /-- The path of the style file. -/
  config : Option Text := none
  /-- The indentation width, instead of that of the style. -/
  indentWidth : Option Nat := none
  /-- The line width, instead of that of the style. -/
  printWidth : Option Nat := none
  /-- What is printed. -/
  emission : Option Emission := none
  deriving DecidableEq, Repr

/-- Why arguments do not give an invocation. -/
inductive Refusal where
  /-- They ask for the version. -/
  | version
  /-- They ask for help. -/
  | help
  /-- They are wrong. -/
  | misuse
  deriving DecidableEq, Repr

namespace Invocation

/-- A number in base ten with an optional plus sign, of 64 bits. -/
def number? (s : Text) : Option Nat := do
  let ds ← (Text.stripFirst '+' s).mapM fun c => if c.isDigit then Toml.digit? c else none
  if ds.isEmpty then none else Option.filter (· < UInt64.size) (some (Toml.ofDigits 10 ds))

/-- What the value of `--emit` asks for. -/
def emission? (s : Text) : Option Emission :=
  if s = "formatted".toList then some .formatted
  else if s = "ast".toList then some .outline
  else none

/-- The invocation with a file. -/
def addFile (inv : Invocation) (path : Text) : Except Refusal Invocation :=
  if path.isEmpty then .error .misuse else .ok { inv with files := inv.files ++ [path] }

/-- An option without a value. -/
inductive Switch where
  | write
  | check
  | version
  | help
  deriving DecidableEq, Repr

/-- An option with a value. -/
inductive Setting where
  | config
  | indentWidth
  | printWidth
  | emit
  deriving DecidableEq, Repr

/-- The names of the options without a value. -/
def switches : List (Text × Switch) :=
  [("write".toList, .write), ("check".toList, .check), ("version".toList, .version),
   ("help".toList, .help)]

/-- The names of the options with a value. -/
def settings : List (Text × Setting) :=
  [("config".toList, .config), ("indent-width".toList, .indentWidth),
   ("print-width".toList, .printWidth), ("emit".toList, .emit)]

/-- The invocation with an option without a value. -/
def turnOn (inv : Invocation) : Switch → Except Refusal Invocation
  | .write => if inv.write then .error .misuse else .ok { inv with write := true }
  | .check => if inv.check then .error .misuse else .ok { inv with check := true }
  | .version => .error .version
  | .help => .error .help

/-- A new value for an option that has none so far. -/
def once {α : Type} (old new : Option α) : Except Refusal (Option α) :=
  match old, new with
  | none, some a => .ok (some a)
  | _, _ => .error .misuse

/-- The invocation with an option and its value. -/
def give (inv : Invocation) (setting : Setting) (value : Text) : Except Refusal Invocation := do
  match setting with
  | .config =>
    let path? := if value.isEmpty then none else some value
    return { inv with config := ← once inv.config path? }
  | .indentWidth => return { inv with indentWidth := ← once inv.indentWidth (number? value) }
  | .printWidth => return { inv with printWidth := ← once inv.printWidth (number? value) }
  | .emit => return { inv with emission := ← once inv.emission (emission? value) }

/-- Whether an argument looks like an option, so that it is no value of the option before it. -/
def looksLikeOption : Text → Bool
  | '-' :: _ :: _ => true
  | _ => false

/-- The name of an option and the value given with an equals sign. -/
def nameAndValue (body : Text) : Text × Option Text :=
  let name := body.takeWhile (· != '=')
  (name, if name.length = body.length then none else some (body.drop (name.length + 1)))

/-- The invocation after its last argument. Files cannot be both written and checked. -/
def finish (inv : Invocation) : Except Refusal Invocation :=
  if inv.write && inv.check then .error .misuse else .ok inv

/-- The invocation after arguments, an option in front of them still waiting for its value. -/
def parseFrom (waiting? : Option Setting) (inv : Invocation) :
    List Text → Except Refusal Invocation
  | [] => if waiting?.isSome then .error .misuse else inv.finish
  | arg :: rest =>
    match waiting?, arg with
    | some setting, _ =>
      if looksLikeOption arg then .error .misuse
      else do parseFrom none (← inv.give setting arg) rest
    | none, ['-', '-'] => do (← rest.foldlM addFile inv).finish
    | none, '-' :: '-' :: body =>
      let (name, value?) := nameAndValue body
      match switches.lookup name, settings.lookup name, value? with
      | some switch, _, none => do parseFrom none (← inv.turnOn switch) rest
      | none, some setting, some value => do parseFrom none (← inv.give setting value) rest
      | none, some setting, none => parseFrom (some setting) inv rest
      | _, _, _ => .error .misuse
    | none, '-' :: c :: _ =>
      if c = 'V' then .error .version else if c = 'h' then .error .help else .error .misuse
    | none, _ => do parseFrom none (← inv.addFile arg) rest

/-- The invocation that arguments ask for. -/
def parse (args : List Text) : Except Refusal Invocation := parseFrom none {} args

end Invocation

end RazorTidy
