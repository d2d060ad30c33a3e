import RazorTidy.Layout.Inline

/-!
# Items

Sibling nodes are laid out as items: each maximal run of inline nodes is one, and so is each other
node. Items of the root and of brace blocks stand on lines of their own, with two exceptions: a
brace block stays on the line of the text before it, and punctuation in code stays on the line of
the brace before it.
-/

set_option autoImplicit false

namespace RazorTidy

/-- A run of inline nodes, or another node with its layout. -/
inductive Item where
  | run (pieces : List Inline)
  | single (node : Node) (doc : Doc)
  deriving Repr

namespace Item

/-- The items of sibling nodes, given with their layouts. -/
def group : List (Node × Doc) → List Item
  | [] => []
  | (node, doc) :: rest =>
    match node.inline? with
    | none => .single node doc :: group rest
    | some piece =>
      match group rest with
      | .run pieces :: items => .run (piece :: pieces) :: items
      | items => .run [piece] :: items

/-- The layout of an item. -/
def doc (container : Container) : Item → Doc
  | .run pieces => Inline.runDoc container pieces
  | .single _ doc => doc

/-- The items that have a layout, each with it. -/
def laidOut (container : Container) (items : List Item) : List (Item × Doc) :=
  (items.map fun item => (item, item.doc container)).filter (!·.2.isNil)

/-- Whether a node is a brace block without an `@`. -/
def isBareBlock : Node → Bool
  | .code keyword _ _ => Text.trim keyword == ['{']
  | _ => false

/-- Whether the layout of a node ends with a brace: it is code that does not close itself. -/
def endsWithBrace : Node → Bool
  | .code _ _ selfClosing => !selfClosing
  | _ => false

/-- Whether a run ends with a line comment. -/
def runEndsInComment (pieces : List Inline) : Bool :=
  match pieces.getLast? with
  | some (.text content) => endsInLineComment content
  | _ => false

/-- Whether a run starts with punctuation that belongs to a brace before it. -/
def startsWithPunctuation : List Inline → Bool
  | .text content :: _ =>
    match Text.trimStart content with
    | c :: _ => c == ';' || c == ',' || c == ')'
    | [] => false
  | _ => false

/-- What stands between two items with layouts. -/
def separator (container : Container) : Item → Item → Doc
  | .run pieces, .single node _ =>
    if isBareBlock node && !runEndsInComment pieces then Doc.ofText [' '] else Doc.hardLine
  | .single node _, .run pieces =>
    if container == .block && endsWithBrace node && startsWithPunctuation pieces then .nil
    else Doc.hardLine
  | _, _ => Doc.hardLine

/-- Layouts with the separators of their items between them. -/
def separated (container : Container) : List (Item × Doc) → List Doc
  | [] => []
  | [(_, d)] => [d]
  | (item, d) :: (item', d') :: rest =>
    d :: separator container item item' :: separated container ((item', d') :: rest)

/-- The layout of the items of the root or of a brace block. -/
def sequenceDoc (container : Container) (items : List Item) : Doc :=
  Doc.seq (separated container (laidOut container items))

/-- The line before an item in the body of an element. -/
def elementLine : Item → Doc
  | .single (.markup _ _ _ _) _ => Doc.hardLine
  | _ => Doc.softLine

/-- Whether an item with its layout cannot stay between the tags of an element. -/
def needsLines : Item × Doc → Bool
  | (.single _ _, _) => true
  | (.run _, d) => d.hasHardLine

/-- The layout of the items of an element, and whether it needs lines of its own. -/
def elementBody (items : List Item) : Doc × Bool :=
  let entries := laidOut .element items
  if entries.any needsLines then
    (Doc.seq (entries.flatMap fun (item, d) => [elementLine item, d]), true)
  else (Doc.seq (entries.map Prod.snd), false)

end Item

end RazorTidy
