import RazorTidy.Doc.Render
import RazorTidy.Layout.Node
import RazorTidy.Style
import RazorTidy.Template

/-!
# Formatting

A template is formatted by reading it, laying out its forest and printing the layout.
-/

set_option autoImplicit false

namespace RazorTidy

/-- A layout printed in a style. -/
def Style.print (style : Style) (d : Doc) : Text := d.render style.printWidth

/-- The forest of a template in a style. -/
def Style.parse (style : Style) (source : Text) : List Node :=
  Template.parse style.voidElements source

/-- A template formatted in a style. -/
def Style.format (style : Style) (source : Text) : Text :=
  style.print (forestDoc style.indentWidth (style.parse source))

end RazorTidy
