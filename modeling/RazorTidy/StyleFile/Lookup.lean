import RazorTidy.Files.Host
import RazorTidy.Files.Path
import RazorTidy.StyleFile.Expansion
import RazorTidy.StyleFile.Toml

/-!
# Looking up the style

The style comes from one file. A path given by hand names it; otherwise it is the project file in
the nearest directory from the working directory upwards, or the file of the user. Where there is
none, the usual style holds. A file that is chosen and cannot be used is an error, and no other file
is tried.
-/

set_option autoImplicit false

namespace RazorTidy

/-- A setting that has to be in a range. -/
inductive RangedSetting where
  | indentWidth
  | printWidth
  deriving DecidableEq, Repr

/-- The name of a setting in style files. -/
def RangedSetting.name : RangedSetting → Text
  | .indentWidth => "indent_width".toList
  | .printWidth => "print_width".toList

/-- The range of a setting in words. -/
def RangedSetting.rule : RangedSetting → Text
  | .indentWidth => "must be between 1 and 16".toList
  | .printWidth => "must be at least 20".toList

/-- Why there is no style. -/
inductive StyleError where
  /-- The file cannot be read. -/
  | unreadable (path : Text) (cause : ReadError)
  /-- The file is no style file. -/
  | malformed (path : Text)
  /-- A setting is out of its range. -/
  | outOfRange (setting : RangedSetting) (value : Nat)
  deriving DecidableEq, Repr

namespace StyleError

/-- The error in words. -/
def message : StyleError → Text
  | .unreadable path cause =>
    "Failed to read config file at ".toList ++ path ++ ": ".toList ++ cause.message
  | .malformed path => "Failed to parse config file at ".toList ++ path
  | .outOfRange setting value =>
    "Invalid ".toList ++ setting.name ++ " = ".toList ++ Nat.toDigits 10 value ++ ": ".toList ++
      setting.rule

/-- The error and its causes in words, the cause of a failed read being named once more. -/
def chain : StyleError → List Text
  | .unreadable path cause => [(StyleError.unreadable path cause).message, cause.message]
  | e => [e.message]

end StyleError

/-- The style itself if its widths are in their ranges. -/
def Style.validate (style : Style) : Except StyleError Style :=
  if style.indentWidth < 1 ∨ 16 < style.indentWidth then
    .error (.outOfRange .indentWidth style.indentWidth)
  else if style.printWidth < 20 then .error (.outOfRange .printWidth style.printWidth)
  else .ok style

namespace StyleFile

/-- The name of project files. -/
def projectName : Text := "razorfmt.toml".toList

/-- The path of the file of the user. -/
def userPath (around : Surroundings) : Text :=
  Path.join (Expansion.expandHome around.home? "~/.config/razorfmt".toList) "config.toml".toList

/-- The style that the content of a file gives. -/
def decode (path : Text) : Except ReadError Text → Except StyleError Style
  | .error cause => .error (.unreadable path cause)
  | .ok content =>
    match Toml.style? content with
    | none => .error (.malformed path)
    | some style => style.validate

variable {m : Type → Type} [Monad m]

/-- The style of the file with a path. -/
def read (host : Host m) (path : Text) : m (Except StyleError Style) := do
  return decode path (← host.read path)

/-- The style of the file with a path, or nothing where there is no such file. -/
def read? (host : Host m) (path : Text) : m (Except StyleError (Option Style)) := do
  match ← host.look path with
  | .error _ => return .ok none
  | .ok _ => return (← read host path).map some

/-- The first path that is that of a file. -/
def firstFile? (host : Host m) : List Text → m (Option Text)
  | [] => return none
  | path :: rest => do if ← host.isFile path then return some path else firstFile? host rest

/-- The project file of a directory: in the directory itself or its nearest ancestor that has one.
-/
def discover? (host : Host m) (directory : Text) : m (Option Text) :=
  firstFile? host ((Path.ancestors directory).map (Path.join · projectName))

/-- The first style that the files with these paths give, or the usual one. -/
def firstStyle (host : Host m) : List Text → m (Except StyleError Style)
  | [] => return .ok {}
  | path :: rest => do
    match ← read? host path with
    | .error e => return .error e
    | .ok (some style) => return .ok style
    | .ok none => firstStyle host rest

/-- The style to use, where `explicit?` is a path given by hand. -/
def load (host : Host m) (around : Surroundings) (explicit? : Option Text) :
    m (Except StyleError Style) := do
  match explicit? with
  | some path => read host (Expansion.expand around path)
  | none =>
    let project? ← discover? host around.directory
    firstStyle host (project?.toList ++ [userPath around])

end StyleFile

end RazorTidy
