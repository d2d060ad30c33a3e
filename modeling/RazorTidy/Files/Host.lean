import RazorTidy.Text.Basic

/-!
# Hosts

What the command needs of the machine it runs on: files, a standard input, a standard output and a
log. A host gives these in some monad, so that the same command runs on the file tree of
`Files.Tree` and on a real machine.
-/

set_option autoImplicit false

namespace RazorTidy

/-- Why a file cannot be read as text. -/
inductive ReadError where
  /-- Nothing has the path. -/
  | missing
  /-- A part of the path that has to be a directory is none. -/
  | notDirectory
  /-- The path is that of a directory. -/
  | isDirectory
  /-- The content is not a text. -/
  | notText
  /-- Another reason, in words. -/
  | other (description : Text)
  deriving DecidableEq, Repr

/-- The reason in words. -/
def ReadError.message : ReadError → Text
  | .missing => "No such file or directory (os error 2)".toList
  | .notDirectory => "Not a directory (os error 20)".toList
  | .isDirectory => "Is a directory (os error 21)".toList
  | .notText => "stream did not contain valid UTF-8".toList
  | .other description => description

/-- What has a path. -/
inductive Entry where
  | directory
  /-- A file with a text. -/
  | text (content : Text)
  /-- A file whose bytes are not a text. -/
  | binary (content : List UInt8)
  deriving DecidableEq, Repr

namespace Entry

/-- Whether an entry is a file. -/
def isFile : Entry → Bool
  | .directory => false
  | .text _ => true
  | .binary _ => true

/-- The text of an entry. -/
def read : Entry → Except ReadError Text
  | .directory => .error .isDirectory
  | .text content => .ok content
  | .binary _ => .error .notText

end Entry

/-- A machine to run on. -/
structure Host (m : Type → Type) where
  /-- What has a path. -/
  look : Text → m (Except ReadError Entry)
  /-- Replaces the content of the file with a path. -/
  replace : (path content : Text) → m Unit
  /-- The text of the standard input. -/
  input : m (Except ReadError Text)
  /-- Writes a text to the standard output. -/
  print : Text → m Unit
  /-- Writes a line to the log. -/
  log : Text → m Unit

/-- The text of the file with a path. -/
def Host.read {m : Type → Type} [Monad m] (host : Host m) (path : Text) :
    m (Except ReadError Text) := do
  return (← host.look path) >>= Entry.read

/-- Whether a path is that of a file. -/
def Host.isFile {m : Type → Type} [Monad m] (host : Host m) (path : Text) : m Bool := do
  match ← host.look path with
  | .ok entry => return entry.isFile
  | .error _ => return false

/-- What a command knows of its surroundings when it starts. -/
structure Surroundings where
  /-- The path of the working directory. -/
  directory : Text
  /-- The environment variables. -/
  environment : List (Text × Text)
  deriving DecidableEq, Repr

/-- The value of an environment variable. -/
def Surroundings.valueOf? (around : Surroundings) (name : Text) : Option Text :=
  around.environment.lookup name

/-- The path of the home directory. -/
def Surroundings.home? (around : Surroundings) : Option Text :=
  (around.valueOf? "HOME".toList).filter (!·.isEmpty)

end RazorTidy
