import RazorTidy.Text.Basic

/-!
# Styles

What a formatted template looks like is governed by three settings.
-/

set_option autoImplicit false

namespace RazorTidy

/-- The settings of the formatter. -/
structure Style where
  /-- Spaces per nesting level. -/
  indentWidth : Nat := 4
  /-- The line width that groups try to keep. -/
  printWidth : Nat := 100
  /-- Element names that are void in addition to the built-in ones. -/
  voidElements : List Text := []
  deriving DecidableEq, Repr

end RazorTidy
