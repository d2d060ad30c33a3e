import RazorTidy.Doc.Basic
import RazorTidy.Outline

/-!
# Outlines of documents

The structure of a document as it is shown to a reader of the layout.
-/

set_option autoImplicit false

namespace RazorTidy.Doc

/-- The outline of a line kind. -/
def lineOutline : LineKind → Outline
  | .hard => .atom "Hard".toList
  | .soft => .atom "Soft".toList

mutual
/-- The outline of a document. -/
def outline : Doc → Outline
  | .nil => .atom "Nil".toList
  | .text s => .tuple "Text".toList [.ofText s]
  | .line kind => .tuple "Line".toList [lineOutline kind]
  | .concat items => .tuple "Concat".toList [.list (outlines items)]
  | .indent spaces body => .tuple "Indent".toList [.ofNat spaces, outline body]
  | .group body => .tuple "Group".toList [outline body]
/-- The outlines of a list of documents. -/
def outlines : List Doc → List Outline
  | [] => []
  | d :: rest => outline d :: outlines rest
end

end RazorTidy.Doc
