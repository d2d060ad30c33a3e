import RazorTidy.Attribute.Map
import RazorTidy.Vocabulary

/-!
# Nodes

A template is a forest of nodes: elements with attributes and children, code with children, text,
and comments. Code is one construct for brace blocks, directives and inline expressions; which of
them it is follows from its keyword.
-/

set_option autoImplicit false

namespace RazorTidy

/-- What a piece of code is. -/
inductive CodeKind where
  /-- A brace block. -/
  | block
  /-- A directive or a continuation. -/
  | directive
  /-- An inline expression. -/
  | expression
  deriving DecidableEq, Repr

/-- What a piece of code with this keyword is. The keyword of a block is its opening brace; that of
a directive is its header, which starts with a directive word after an `@` or has no `@` at all. -/
def CodeKind.ofKeyword (keyword : Text) : CodeKind :=
  match Text.trim keyword with
  | ['{'] => .block
  | ['@', '{'] => .block
  | '@' :: rest => if isDirectiveWord (Text.leadingWord rest) then .directive else .expression
  | _ => .directive

/-- A node of a template. -/
inductive Node where
  /-- An element. -/
  | markup (name : Text) (attributes : AttributeMap) (children : List Node) (selfClosing : Bool)
  /-- A brace block, a directive or an inline expression. -/
  | code (keyword : Text) (children : List Node) (selfClosing : Bool)
  /-- Plain text. -/
  | text (content : Text)
  /-- A comment with its delimiters. -/
  | comment (content : Text)
  deriving Repr

namespace Node

/-! ## Parts of a node -/

/-- The children of a node; text and comments have none. -/
def children : Node → List Node
  | .markup _ _ children _ => children
  | .code _ children _ => children
  | .text _ => []
  | .comment _ => []

/-- Whether a node closes itself. -/
def isSelfClosing : Node → Bool
  | .markup _ _ _ selfClosing => selfClosing
  | .code _ _ selfClosing => selfClosing
  | .text _ => false
  | .comment _ => false

/-- The content of a text node. -/
def text? : Node → Option Text
  | .text content => some content
  | _ => none

/-- The node with one more child at the end; text and comments take none. -/
def push? (node child : Node) : Option Node :=
  match node with
  | .markup name attributes children selfClosing =>
    some (.markup name attributes (children ++ [child]) selfClosing)
  | .code keyword children selfClosing => some (.code keyword (children ++ [child]) selfClosing)
  | .text _ => none
  | .comment _ => none

/-- Whether a node is code of the given kind. -/
def isCode (kind : CodeKind) : Node → Bool
  | .code keyword _ _ => CodeKind.ofKeyword keyword == kind
  | _ => false

/-- Whether a node is an element of the given name, in any ASCII case. -/
def isElement (name : Text) : Node → Bool
  | .markup name' _ _ _ => Text.sameName name' name
  | _ => false

/-! ## Equality -/

mutual
/-- Decides whether two nodes are equal. -/
def decEq : (a b : Node) → Decidable (a = b)
  | .markup n as cs s, .markup n' as' cs' s' =>
    if h : n = n' ∧ as = as' ∧ s = s' then
      match decEqAll cs cs' with
      | .isTrue hc => .isTrue (by obtain ⟨rfl, rfl, rfl⟩ := h; rw [hc])
      | .isFalse hc => .isFalse (by simp [hc])
    else .isFalse (by simp only [markup.injEq]; exact fun e => h ⟨e.1, e.2.1, e.2.2.2⟩)
  | .code k cs s, .code k' cs' s' =>
    if h : k = k' ∧ s = s' then
      match decEqAll cs cs' with
      | .isTrue hc => .isTrue (by obtain ⟨rfl, rfl⟩ := h; rw [hc])
      | .isFalse hc => .isFalse (by simp [hc])
    else .isFalse (by simp only [code.injEq]; exact fun e => h ⟨e.1, e.2.2⟩)
  | .text c, .text c' => if h : c = c' then .isTrue (by rw [h]) else .isFalse (by simp [h])
  | .comment c, .comment c' => if h : c = c' then .isTrue (by rw [h]) else .isFalse (by simp [h])
  | .markup _ _ _ _, .code _ _ _ => .isFalse (by simp)
  | .markup _ _ _ _, .text _ => .isFalse (by simp)
  | .markup _ _ _ _, .comment _ => .isFalse (by simp)
  | .code _ _ _, .markup _ _ _ _ => .isFalse (by simp)
  | .code _ _ _, .text _ => .isFalse (by simp)
  | .code _ _ _, .comment _ => .isFalse (by simp)
  | .text _, .markup _ _ _ _ => .isFalse (by simp)
  | .text _, .code _ _ _ => .isFalse (by simp)
  | .text _, .comment _ => .isFalse (by simp)
  | .comment _, .markup _ _ _ _ => .isFalse (by simp)
  | .comment _, .code _ _ _ => .isFalse (by simp)
  | .comment _, .text _ => .isFalse (by simp)
/-- Decides whether two lists of nodes are equal. -/
def decEqAll : (as bs : List Node) → Decidable (as = bs)
  | [], [] => .isTrue rfl
  | [], _ :: _ => .isFalse (by simp)
  | _ :: _, [] => .isFalse (by simp)
  | a :: as, b :: bs =>
    match decEq a b with
    | .isTrue h =>
      match decEqAll as bs with
      | .isTrue hs => .isTrue (by rw [h, hs])
      | .isFalse hs => .isFalse (by simp [hs])
    | .isFalse h => .isFalse (by simp [h])
end

instance instDecidableEq : DecidableEq Node := decEq

end Node

end RazorTidy
