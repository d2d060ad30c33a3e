import RazorTidy.Doc.Basic
import RazorTidy.Layout.LineBlock
import RazorTidy.Node.Basic

/-!
# Inline nodes

Text and inline expressions flow together in runs. Blanks at the two ends of a run are dropped;
between its pieces a run of blanks is one space.
-/

set_option autoImplicit false

namespace RazorTidy

/-- What a list of sibling nodes stands in. -/
inductive Container where
  /-- The template itself. -/
  | root
  /-- A brace block, where text is code. -/
  | block
  /-- An element. -/
  | element
  deriving DecidableEq, Repr

/-- A node that flows in a line. -/
inductive Inline where
  /-- Plain text. -/
  | text (content : Text)
  /-- An inline expression. -/
  | expression (keyword : Text)
  deriving DecidableEq, Repr

/-- The inline node that a node is, if it is one. -/
def Node.inline? : Node → Option Inline
  | .text content => some (.text content)
  | .code keyword _ _ =>
    if CodeKind.ofKeyword keyword = .expression then some (.expression keyword) else none
  | .markup _ _ _ _ => none
  | .comment _ => none

/-- Whether the last line of a text holds a line comment, which would take in whatever is put after
it on the same line. -/
def endsInLineComment (s : Text) : Bool :=
  ((Text.lines (Text.trimEnd s)).getLast?).any (Text.occurs ['/', '/'])

/-- The lines of a text as a block, laid out. -/
def blockDoc (s : Text) : Doc := Doc.ofLines (LineBlock.normalize s)

/-- The layout of a text. Blanks at an end are dropped where the text is at that end of its run, and
else become a space; after a line comment in code they become a line break. -/
def textDoc (container : Container) (atStart atEnd : Bool) (content : Text) : Doc :=
  let core := Text.trim content
  if core.isEmpty then if atStart || atEnd then .nil else Doc.ofText [' ']
  else
    let leading := if !atStart && Text.startsBlank content then Doc.ofText [' '] else .nil
    let trailing :=
      if atEnd || !Text.endsBlank content then .nil
      else if container = .block ∧ endsInLineComment core then Doc.hardLine
      else Doc.ofText [' ']
    Doc.seq [leading, blockDoc core, trailing]

namespace Inline

/-- The layout of an inline node, with whether it stands at the start and at the end of its run. -/
def doc (container : Container) (atStart atEnd : Bool) : Inline → Doc
  | .text content => textDoc container atStart atEnd content
  | .expression keyword => blockDoc keyword

/-- The layouts of the inline nodes of a run, with whether the first of them starts the run. -/
def docs (container : Container) (atStart : Bool) : List Inline → List Doc
  | [] => []
  | piece :: rest => piece.doc container atStart rest.isEmpty :: docs container false rest

/-- The layout of a run. -/
def runDoc (container : Container) (run : List Inline) : Doc := Doc.seq (docs container true run)

end Inline

end RazorTidy
