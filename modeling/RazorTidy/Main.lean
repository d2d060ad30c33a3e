import RazorTidy.Command.Run

/-!
# The command on a real machine

The host of a real machine, and the entry point of the command.
-/

set_option autoImplicit false

namespace RazorTidy.Main

/-- The reason why a path cannot be looked at. -/
def readError (e : IO.Error) : ReadError :=
  match e with
  | .noFileOrDirectory _ _ _ => .missing
  | .inappropriateType _ 21 _ => .isDirectory
  | .inappropriateType _ 20 _ => .notDirectory
  | e => .other e.toString.toList

/-- Bytes as a text. -/
def textOf (bytes : ByteArray) : Except ReadError Text :=
  match String.fromUTF8? bytes with
  | some s => .ok s.toList
  | none => .error .notText

/-- What has a path. -/
def look (path : Text) : IO (Except ReadError Entry) := do
  try
    let bytes ← IO.FS.readBinFile (String.ofList path)
    match textOf bytes with
    | .ok s => return .ok (.text s)
    | .error _ => return .ok (.binary bytes.toList)
  catch e =>
    match readError e with
    | .isDirectory => return .ok .directory
    | cause => return .error cause

/-- The bytes of a stream up to its end. -/
partial def readAll (stream : IO.FS.Stream) (bytes : ByteArray) : IO ByteArray := do
  let more ← stream.read 65536
  if more.isEmpty then return bytes else readAll stream (bytes ++ more)

/-- The host of the machine. -/
def host : Host IO where
  look := look
  replace path content := IO.FS.writeFile (String.ofList path) (String.ofList content)
  input := do return textOf (← readAll (← IO.getStdin) ByteArray.empty)
  print s := IO.print (String.ofList s)
  log line := IO.eprintln (String.ofList line)

/-- The variables with these names that are set. -/
def variablesNamed (names : List Text) : IO (List (Text × Text)) :=
  names.filterMapM fun name => do
    return (← IO.getEnv (String.ofList name)).map fun value => (name, value.toList)

/-- What the command knows of its surroundings for an invocation. -/
def surroundings (inv : Invocation) : IO Surroundings := do
  let names := "HOME".toList :: Expansion.variableNames (inv.config.getD [])
  return ⟨(← IO.currentDir).toString.toList, ← variablesNamed names⟩

/-- Runs the command with arguments and answers its exit code. -/
def command (args : List String) : IO Nat := do
  match Invocation.parse (args.map String.toList) with
  | .error .version => host.print Command.versionLine; return 0
  | .error .help => host.print Command.helpText; return 0
  | .error .misuse => IO.eprint (String.ofList Command.helpText); return 2
  | .ok inv =>
    let result ← (Command.run host (← surroundings inv) inv).run
    if let .error failure := result then IO.eprintln (String.ofList failure.message)
    return Command.exitCode result

end RazorTidy.Main

/-- The entry point of the command. -/
def main (args : List String) : IO UInt32 := do
  return (← RazorTidy.Main.command args).toUInt32
