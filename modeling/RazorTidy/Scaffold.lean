import RazorTidy.Event

/-!
# Scaffolds

A tree under construction: the finished nodes at the root, and the nodes that are still open, each
with the children it has so far. A node that closes becomes a child of the open node around it.
Closing a name or a brace that is not open does nothing, so every sequence of events builds a
forest.
-/

set_option autoImplicit false

namespace RazorTidy

/-- A tree under construction. -/
structure Scaffold where
  /-- The finished nodes at the root. -/
  root : List Node
  /-- The open nodes, innermost first. -/
  stack : List Node
  deriving DecidableEq, Repr

namespace Scaffold

/-- Nothing built yet. -/
def empty : Scaffold := ⟨[], []⟩

/-- The number of open nodes. -/
def depth (s : Scaffold) : Nat := s.stack.length

/-- The scaffold with a finished node added to the innermost open node, or to the root where no open
node takes children. -/
def attach (node : Node) (s : Scaffold) : Scaffold :=
  match s.stack with
  | [] => { s with root := s.root ++ [node] }
  | top :: below =>
    match top.push? node with
    | some top' => { s with stack := top' :: below }
    | none => { s with root := s.root ++ [node] }

/-- The scaffold with a node added, finished or open. -/
def add (node : Node) (finished : Bool) (s : Scaffold) : Scaffold :=
  if finished then s.attach node else { s with stack := node :: s.stack }

/-- The scaffold with the text between two tokens added. Blank text counts only between two inline
expressions, where it is one space. -/
def addGap (gap : Text) (betweenExpressions : Bool) (s : Scaffold) : Scaffold :=
  if gap.isEmpty then s
  else if !Text.allBlank gap then s.attach (.text gap)
  else if betweenExpressions then s.attach (.text [' '])
  else s

/-- The scaffold with its innermost open node closed. -/
def closeTop (s : Scaffold) : Scaffold :=
  match s.stack with
  | [] => s
  | top :: below => attach top { s with stack := below }

/-- The scaffold with its `n` innermost open nodes closed. -/
def closeMany : Nat → Scaffold → Scaffold
  | 0, s => s
  | n + 1, s => closeMany n s.closeTop

/-- The scaffold with the innermost open element of a name closed, and all inside it. -/
def closeTag (name : Text) (s : Scaffold) : Scaffold :=
  match s.stack.findIdx? (·.isElement name) with
  | some i => s.closeMany (i + 1)
  | none => s

/-- The scaffold with the innermost open brace block closed, all inside it, and the directive around
it. -/
def closeBrace (s : Scaffold) : Scaffold :=
  match s.stack.findIdx? (·.isCode .block) with
  | some i =>
    let s' := s.closeMany (i + 1)
    if s'.stack.head?.any (·.isCode .directive) then s'.closeTop else s'
  | none => s

/-- The scaffold after an event. -/
def apply (event : Event) (s : Scaffold) : Scaffold :=
  match event with
  | .start node => s.add node node.isSelfClosing
  | .comment content => s.add (.comment content) true
  | .closeTag name => s.closeTag name
  | .closeBrace => s.closeBrace

/-- The forest after everything still open is closed. -/
def finish (s : Scaffold) : List Node := (s.closeMany s.depth).root

end Scaffold

end RazorTidy
