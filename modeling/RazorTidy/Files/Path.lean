import RazorTidy.Text.Basic

/-!
# Paths

A path is a text with slashes between its parts. The ancestors of a path are found on the text
alone, without looking at files: parts that are empty or a single dot say nothing, except that a
leading dot is itself the last ancestor before the empty one.
-/

set_option autoImplicit false

namespace RazorTidy.Path

/-- Whether a path starts at the root. -/
def isAbsolute (path : Text) : Bool := path.head? == some '/'

/-- A path with the name of an entry put after it. -/
def join (path name : Text) : Text :=
  if path.isEmpty || path.getLast? == some '/' then path ++ name else path ++ '/' :: name

/-- Whether a part of a path names something. -/
def isSignificant (part : Text) : Bool := !part.isEmpty && part != ['.']

/-- The fixed start of a path and the rest of it: the root, a leading dot, or nothing. -/
def anchored : Text → Text × Text
  | '/' :: rest => (['/'], rest)
  | ['.'] => (['.'], [])
  | '.' :: '/' :: rest => (['.'], '/' :: rest)
  | path => ([], path)

/-- The ancestors of the path with the given anchor and parts, the last part first, without the path
itself. -/
def properAncestors (anchor : Text) : List Text → List Text
  | [] => if anchor == ['.'] then [[]] else []
  | part :: outer =>
    if isSignificant part then
      let kept := outer.dropWhile (!isSignificant ·)
      (anchor ++ Text.joinWith ['/'] kept.reverse) :: properAncestors anchor outer
    else properAncestors anchor outer

/-- A path and its ancestors, innermost first. -/
def ancestors (path : Text) : List Text :=
  let (anchor, rest) := anchored path
  path :: properAncestors anchor (Text.splitAtChar '/' rest).reverse

end RazorTidy.Path
