import RazorTidy.Text.Blank
import RazorTidy.Text.Lines

/-!
# Line blocks

A text of several lines is laid out as a block: blank lines at its ends are dropped, runs of blank
lines become one, and the indentation that its lines share is taken off. Text on the very first line
stands where its surroundings put it, so that line is trimmed and has no say in the shared
indentation.
-/

set_option autoImplicit false

namespace RazorTidy.LineBlock

/-- The number of blanks at the start of a line. -/
def indentation (line : Text) : Nat := (line.takeWhile Text.isBlank).length

/-- A line without its first blanks, at most `n` of them. -/
def dedent : Nat → Text → Text
  | 0, line => line
  | _ + 1, [] => []
  | n + 1, c :: r => if Text.isBlank c then dedent n r else c :: r

/-- The least indentation of the lines that are not blank; zero if all are. -/
def sharedIndentation (ls : List Text) : Nat :=
  (((ls.filter (!Text.allBlank ·)).map indentation).min?).getD 0

/-- Lines without their shared indentation and without blanks at their ends. -/
def dedentAll (ls : List Text) : List Text :=
  let shared := sharedIndentation ls
  ls.map fun line => Text.trimEnd (dedent shared line)

/-- Lines with each run of empty ones made one; `afterEmpty` says that an empty line comes before.
-/
def squeeze (afterEmpty : Bool) : List Text → List Text
  | [] => []
  | line :: rest =>
    if line.isEmpty && afterEmpty then squeeze true rest else line :: squeeze line.isEmpty rest

/-- Lines without the blank ones at the end. -/
def dropBlankEnd (ls : List Text) : List Text := (ls.reverse.dropWhile Text.allBlank).reverse

/-- The lines of a text as a block. -/
def normalize (s : Text) : List Text :=
  match dropBlankEnd (Text.lines s) with
  | [] => []
  | first :: rest =>
    if Text.allBlank first then squeeze false (dedentAll (rest.dropWhile Text.allBlank))
    else squeeze false (Text.trim first :: dedentAll rest)

end RazorTidy.LineBlock
