import RazorTidy.Text.Basic

/-!
# Documents

A document describes a layout: texts, lines, and groups of them that are printed on one line if they
fit. A hard line is always a line break; a soft line is a space in a group that is printed flat and
a line break otherwise.

The functions `ofText`, `seq`, `indentBy` and `grouped` build documents without empty parts: nothing
empty is kept, sequences are not nested directly, and a sequence has at least two parts.
-/

set_option autoImplicit false

namespace RazorTidy

/-- The two kinds of lines. -/
inductive LineKind where
  /-- Always a line break. -/
  | hard
  /-- A space where the group around it is flat, else a line break. -/
  | soft
  deriving DecidableEq, Repr

/-- A layout. -/
inductive Doc where
  /-- Nothing. -/
  | nil
  /-- A text without line breaks. -/
  | text (content : Text)
  /-- A line. -/
  | line (kind : LineKind)
  /-- Documents one after the other. -/
  | concat (items : List Doc)
  /-- A document whose line breaks are followed by so many more spaces. -/
  | indent (spaces : Nat) (body : Doc)
  /-- A document that is printed flat if it fits. -/
  | group (body : Doc)
  deriving Repr

namespace Doc

/-- A line break. -/
def hardLine : Doc := .line .hard

/-- A space or a line break. -/
def softLine : Doc := .line .soft

/-- Whether a document is `nil`. -/
def isNil : Doc → Bool
  | .nil => true
  | _ => false

/-! ## Construction without empty parts -/

/-- A text, where the empty one is nothing. -/
def ofText (s : Text) : Doc := if s.isEmpty then .nil else .text s

/-- The parts that a document contributes to a sequence. -/
def parts : Doc → List Doc
  | .nil => []
  | .concat items => items
  | d => [d]

/-- Documents one after the other. -/
def seq (ds : List Doc) : Doc :=
  match ds.flatMap parts with
  | [] => .nil
  | [d] => d
  | items => .concat items

/-- A document whose line breaks are followed by so many more spaces. -/
def indentBy (spaces : Nat) (d : Doc) : Doc :=
  if spaces = 0 ∨ d.isNil then d else .indent spaces d

/-- A document that is printed flat if it fits. -/
def grouped (d : Doc) : Doc := if d.isNil then d else .group d

/-- Texts on lines of their own. An empty text gives a blank line. -/
def ofLines (ls : List Text) : Doc := seq ((ls.map ofText).intersperse hardLine)

mutual
/-- The document built anew from the bottom up, without empty parts. -/
def tidy : Doc → Doc
  | .nil => .nil
  | .text s => ofText s
  | .line kind => .line kind
  | .concat items => seq (tidyAll items)
  | .indent spaces body => indentBy spaces (tidy body)
  | .group body => grouped (tidy body)
/-- Documents built anew. -/
def tidyAll : List Doc → List Doc
  | [] => []
  | d :: rest => tidy d :: tidyAll rest
end

/-! ## Line breaks -/

mutual
/-- Whether a document always breaks the line. -/
def hasHardLine : Doc → Bool
  | .nil => false
  | .text _ => false
  | .line .hard => true
  | .line .soft => false
  | .concat items => anyHardLine items
  | .indent _ body => hasHardLine body
  | .group body => hasHardLine body
/-- Whether one of several documents always breaks the line. -/
def anyHardLine : List Doc → Bool
  | [] => false
  | d :: rest => hasHardLine d || anyHardLine rest
end

end Doc

end RazorTidy
