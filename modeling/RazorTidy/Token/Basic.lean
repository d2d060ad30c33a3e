import RazorTidy.Text.Basic

/-!
# Tokens

A token is a piece of a template with a meaning of its own: a comment, a tag, a brace, a header or
an inline expression.
-/

set_option autoImplicit false

namespace RazorTidy

/-- The lexical class of a token. -/
inductive TokenKind where
  /-- A markup or template comment. -/
  | comment
  /-- A tag that opens an element. -/
  | openTag
  /-- A tag that closes an element. -/
  | closeTag
  /-- A tag that closes itself, or a declaration. -/
  | voidTag
  /-- An opening brace, with or without an `@` in front. -/
  | braceOpen
  /-- A closing brace. -/
  | braceClose
  /-- An `@` with a directive word and the rest of its header. -/
  | directive
  /-- An `@` with an identifier and its chain of members, calls and indices. -/
  | expression
  /-- A continuation word after a closing brace, with the rest of its header. -/
  | continuation
  deriving DecidableEq, Repr

/-- A piece of a template with its lexical class. -/
structure Token where
  kind : TokenKind
  text : Text
  deriving DecidableEq, Repr

end RazorTidy
