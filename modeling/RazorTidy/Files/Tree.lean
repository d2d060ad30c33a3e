import RazorTidy.Files.Host
import RazorTidy.Files.Path

/-!
# File trees

A file tree maps locations to entries. A location is the list of names from the root; a path is a
text that leads to a location, step by step from the root or from the working directory. Two paths
are the same file when they lead to the same location.

`World` puts a tree together with a standard input and what a command has written, and is a host.
-/

set_option autoImplicit false

namespace RazorTidy

/-- The names from the root to an entry. -/
abbrev Location := List Text

/-- Entries at locations. The root is always a directory. -/
structure FileTree where
  entries : List (Location × Entry)
  deriving DecidableEq, Repr

namespace FileTree

/-- The tree of an empty root. -/
def empty : FileTree := ⟨[]⟩

/-- The entry at a location. -/
def find? (tree : FileTree) (location : Location) : Option Entry :=
  if location.isEmpty then some .directory else tree.entries.lookup location

/-- The tree with an entry at a location, in the place of the one there. -/
def set (tree : FileTree) (location : Location) (entry : Entry) : FileTree :=
  ⟨(location, entry) :: tree.entries.filter (·.1 != location)⟩

/-- The locations of the directories around a location, the outermost first, and of itself. -/
def trail : Location → List Location
  | [] => [[]]
  | name :: rest => [] :: (trail rest).map (name :: ·)

/-- The tree with a directory at a location, and directories around it. -/
def addDirectory (tree : FileTree) (location : Location) : FileTree :=
  (trail location).foldl
    (fun t l => if (t.find? l).isSome then t else t.set l .directory) tree

/-- The tree with a file at a location, and directories around it. -/
def addFile (tree : FileTree) (location : Location) (entry : Entry) : FileTree :=
  (tree.addDirectory location.dropLast).set location entry

/-- The location one part of a path further. Only a directory leads anywhere. -/
def step (tree : FileTree) (location : Location) (part : Text) : Except ReadError Location :=
  match tree.find? location with
  | none => .error .missing
  | some .directory =>
    if !Path.isSignificant part then .ok location
    else if part = ['.', '.'] then .ok location.dropLast
    else .ok (location ++ [part])
  | some _ => .error .notDirectory

/-- The location that a path leads to from a location. -/
def resolve (tree : FileTree) (start : Location) (path : Text) : Except ReadError Location :=
  if path.isEmpty then .error .missing
  else
    (Text.splitAtChar '/' path).foldlM tree.step (if Path.isAbsolute path then [] else start)

/-- What a path leads to from a location. -/
def look (tree : FileTree) (start : Location) (path : Text) : Except ReadError Entry := do
  match tree.find? (← tree.resolve start path) with
  | some entry => .ok entry
  | none => .error .missing

/-- The tree with the content of a file replaced. A path that leads to no file changes nothing. -/
def replace (tree : FileTree) (start : Location) (path content : Text) : FileTree :=
  match tree.resolve start path with
  | .ok location =>
    if (tree.find? location).any Entry.isFile then tree.set location (.text content) else tree
  | .error _ => tree

end FileTree

/-- A machine as a value: its files, its standard input, and what has been written. -/
structure World where
  tree : FileTree
  /-- The location of the working directory. -/
  directory : Location
  input : Except ReadError Text
  output : Text := []
  log : List Text := []

/-- The host that a world is. -/
def World.host : Host (StateM World) where
  look path := do return (← get).tree.look (← get).directory path
  replace path content :=
    modify fun w => { w with tree := w.tree.replace w.directory path content }
  input := do return (← get).input
  print s := modify fun w => { w with output := w.output ++ s }
  log line := modify fun w => { w with log := w.log ++ [line] }

end RazorTidy
