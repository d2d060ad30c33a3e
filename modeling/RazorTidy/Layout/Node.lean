import RazorTidy.Layout.Item
import RazorTidy.CodeSection

/-!
# Layouts of nodes

Elements, comments, brace blocks and directives stand on lines of their own. An element whose body
holds any of them, or text of several lines, has its body on indented lines and its closing tag on a
line of its own; otherwise the body stays between the tags.
-/

set_option autoImplicit false

namespace RazorTidy

/-! ## Elements -/

/-- An attribute as it is written: double quotes, unless the value holds some and no single ones. -/
def attributeText (name value : Text) : Text :=
  if value.isEmpty then name
  else if value.contains '"' && !value.contains '\'' then name ++ '=' :: '\'' :: value ++ ['\'']
  else name ++ '=' :: '"' :: value ++ ['"']

/-- The layout of an attribute. One of several lines keeps them, as a block. -/
def attributeDoc (name value : Text) : Doc :=
  let written := attributeText name value
  if written.contains '\n' then blockDoc written else Doc.ofText written

/-- The end of an opening tag. -/
def tagEnd (name : Text) (selfClosing : Bool) : Text :=
  if selfClosing && !isDeclarationName name then ['/', '>'] else ['>']

/-- The closing tag of an element. -/
def closingTag (name : Text) : Text := '<' :: '/' :: name ++ ['>']

/-- The layout of an opening tag: on one line if it fits, else with a line for each attribute. -/
def headDoc (indentWidth : Nat) (name : Text) (attributes : AttributeMap) (selfClosing : Bool) :
    Doc :=
  let entries := attributes.entries.map fun (n, v) => Doc.seq [Doc.softLine, attributeDoc n v]
  Doc.grouped (Doc.seq
    [Doc.ofText ('<' :: name), Doc.indentBy indentWidth (Doc.seq entries),
     Doc.ofText (tagEnd name selfClosing)])

/-- The raw text of an element that goes over several lines. -/
def rawBlock? (name : Text) : List Node → Option Text
  | [.text content] =>
    if isRawTextName name && (Text.trim content).contains '\n' then some content else none
  | _ => none

/-- The layout of an element, its children given with their layouts. -/
def elementDoc (indentWidth : Nat) (name : Text) (attributes : AttributeMap) (selfClosing : Bool)
    (children : List (Node × Doc)) : Doc :=
  let head := headDoc indentWidth name attributes selfClosing
  let close := Doc.ofText (closingTag name)
  if selfClosing then head
  else
    match rawBlock? name (children.map Prod.fst) with
    | some content =>
      Doc.seq
        [head, Doc.indentBy indentWidth (Doc.seq [Doc.hardLine, blockDoc content]), Doc.hardLine,
         close]
    | none =>
      match Item.elementBody (Item.group children) with
      | (body, true) =>
        Doc.seq
          [head, Doc.grouped (Doc.seq [Doc.indentBy indentWidth body, Doc.hardLine, close])]
      | (body, false) => Doc.seq [head, body, close]

/-! ## Code -/

/-- The layout of code, its children given with their layouts. -/
def codeDoc (indentWidth : Nat) (keyword : Text) (children : List (Node × Doc)) : Doc :=
  let body := Item.sequenceDoc .block (Item.group children)
  match CodeKind.ofKeyword keyword with
  | .block =>
    let opening := Doc.ofText (Text.trim keyword)
    let closing := Doc.ofText ['}']
    if body.isNil then Doc.seq [opening, Doc.hardLine, closing]
    else
      Doc.seq
        [opening, Doc.indentBy indentWidth (Doc.seq [Doc.hardLine, body]), Doc.hardLine, closing]
  | .directive =>
    if body.isNil then blockDoc keyword else Doc.seq [blockDoc keyword, Doc.ofText [' '], body]
  | .expression => blockDoc keyword

/-! ## Nodes and templates -/

namespace Node

mutual
/-- The layout of a node that stands alone. -/
def doc (indentWidth : Nat) : Node → Doc
  | .markup name attributes children selfClosing =>
    elementDoc indentWidth name attributes selfClosing (withDocs indentWidth children)
  | .code keyword children _ => codeDoc indentWidth keyword (withDocs indentWidth children)
  | .text content => textDoc .root true true content
  | .comment content => blockDoc content
/-- Nodes with their layouts. -/
def withDocs (indentWidth : Nat) : List Node → List (Node × Doc)
  | [] => []
  | node :: rest => (node, doc indentWidth node) :: withDocs indentWidth rest
end

end Node

/-- The layout of a code section: its lines as they stand, without blanks at their ends. -/
def sectionDoc (content : Text) : Doc :=
  Doc.ofLines ((Text.lines (Text.trimEnd content)).map Text.trimEnd)

/-- A forest without the code section at its end, and the section if there is one. -/
def splitSection (nodes : List Node) : List Node × Option Text :=
  match nodes.getLast? with
  | some (.text content) =>
    if CodeSection.opens content then (nodes.dropLast, some content) else (nodes, none)
  | _ => (nodes, none)

/-- The layout of a forest: its nodes, a blank line and the code section. It ends with a line break
unless it is empty. -/
def forestDoc (indentWidth : Nat) (nodes : List Node) : Doc :=
  let (body, codeSection) := splitSection nodes
  let bodyDoc := Item.sequenceDoc .root (Item.group (Node.withDocs indentWidth body))
  let whole :=
    match codeSection with
    | none => bodyDoc
    | some content =>
      if bodyDoc.isNil then sectionDoc content
      else Doc.seq [bodyDoc, Doc.hardLine, Doc.hardLine, sectionDoc content]
  if whole.isNil then whole else Doc.seq [whole, Doc.hardLine]

end RazorTidy
