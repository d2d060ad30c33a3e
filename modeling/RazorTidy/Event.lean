import RazorTidy.Attribute.Region
import RazorTidy.Node.Basic
import RazorTidy.Token.Basic
import RazorTidy.Text.Bytes

/-!
# Events

What a token does to the tree: it starts a node, which may close itself at once, or adds a comment,
or closes an element or a brace block.
-/

set_option autoImplicit false

namespace RazorTidy

/-- What a token does to the tree. -/
inductive Event where
  /-- A node without children so far; it stays open unless it closes itself. -/
  | start (node : Node)
  /-- A comment. -/
  | comment (content : Text)
  /-- The end of the element of this name. -/
  | closeTag (name : Text)
  /-- The end of a brace block. -/
  | closeBrace
  deriving DecidableEq, Repr

namespace Event

/-- The attribute region of a tag: what stands between its brackets, without a slash at the end,
after as many bytes as its name has. -/
def attributeRegion (tag : Text) : Text :=
  let inner := Text.stripLast '/' (Text.stripLast '>' (Text.stripFirst '<' tag))
  match Text.cut? (Text.byteLength (tagName tag)) inner with
  | some (_, region) => region
  | none => []

/-- The element that a tag starts, where `extra` names are void and `closed` says that the tag
closes itself. -/
def element (extra : List Text) (tag : Text) (closed : Bool) : Node :=
  let name := tagName tag
  .markup name (AttributeMap.ofRegion (attributeRegion tag)) []
    (closed || isDeclarationName name || isVoidWith extra name)

/-- What a token does, where `extra` names are void and `beforeBlock` says that an opening brace
comes next; a header then stays open to take the block. -/
def ofToken (extra : List Text) (token : Token) (beforeBlock : Bool) : Event :=
  match token.kind with
  | .comment => .comment token.text
  | .openTag => .start (element extra token.text false)
  | .voidTag => .start (element extra token.text true)
  | .closeTag => .closeTag (tagName token.text)
  | .braceOpen => .start (.code token.text [] false)
  | .braceClose => .closeBrace
  | .expression => .start (.code token.text [] true)
  | .directive => .start (.code token.text [] !beforeBlock)
  | .continuation => .start (.code token.text [] !beforeBlock)

end Event

end RazorTidy
