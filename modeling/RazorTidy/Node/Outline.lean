import RazorTidy.Node.Basic
import RazorTidy.Outline

/-!
# Outlines of nodes

The structure of a forest as it is shown to a reader of the tree.
-/

set_option autoImplicit false

namespace RazorTidy

/-- The outline of an attribute map: its entries as pairs. -/
def AttributeMap.outline (attributes : AttributeMap) : Outline :=
  .record "Attributes".toList
    [.field "entries".toList
      (.list (attributes.entries.map fun (name, value) =>
        .tuple [] [.ofText name, .ofText value]))]

namespace Node

mutual
/-- The outline of a node. -/
def outline : Node → Outline
  | .markup name attributes children selfClosing =>
    .tuple "Markup".toList
      [.record "MarkupElement".toList
        [.field "name".toList (.ofText name),
         .field "attributes".toList attributes.outline,
         .field "children".toList (.list (outlines children)),
         .field "self_closing".toList (.ofBool selfClosing)]]
  | .code keyword children selfClosing =>
    .tuple "Code".toList
      [.record "CodeConstruct".toList
        [.field "keyword".toList (.ofText keyword),
         .field "children".toList (.list (outlines children)),
         .field "self_closing".toList (.ofBool selfClosing)]]
  | .text content => .record "Text".toList [.field "content".toList (.ofText content)]
  | .comment content => .record "Comment".toList [.field "content".toList (.ofText content)]
/-- The outlines of a list of nodes. -/
def outlines : List Node → List Outline
  | [] => []
  | node :: rest => outline node :: outlines rest
end

end Node

end RazorTidy
