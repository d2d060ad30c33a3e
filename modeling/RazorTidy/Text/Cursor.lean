import RazorTidy.Text.Bytes

/-!
# Cursors

A cursor stands at a byte offset of a text. Looking at bytes is possible everywhere; looking at
characters needs the offset to be a cut of the text, so those operations give nothing inside a
character. Offsets are below `offsetLimit`, and a step that would reach it gives nothing either.
-/

set_option autoImplicit false

namespace RazorTidy.Text

/-- The number of offsets a cursor can tell apart. -/
def offsetLimit : Nat := UInt64.size

/-- A byte offset of a text. -/
structure Cursor where
  text : Text
  offset : Nat
  deriving DecidableEq, Repr

namespace Cursor

/-- The cursor at the start of a text. -/
def start (s : Text) : Cursor := ⟨s, 0⟩

/-- The offset, or the end of the text where the cursor stands beyond it. -/
def clamped (k : Cursor) : Nat := min k.offset (byteLength k.text)

/-- Whether no byte is left. -/
def atEnd (k : Cursor) : Bool := byteLength k.text ≤ k.offset

/-- The byte under the cursor. -/
def peek (k : Cursor) : Option UInt8 := (bytes k.text)[k.offset]?

/-- The byte `n` places after the cursor, unless that offset is out of bounds. -/
def peekAhead? (n : Nat) (k : Cursor) : Option (Option UInt8) :=
  if k.offset + n < offsetLimit then some (bytes k.text)[k.offset + n]? else none

/-- The text before and after the cursor. -/
def parts? (k : Cursor) : Option (Text × Text) := cut? k.clamped k.text

/-- The character before the cursor. -/
def before? (k : Cursor) : Option (Option Char) := k.parts?.map fun (front, _) => front.getLast?

/-- The text after the cursor. -/
def rest? (k : Cursor) : Option Text := k.parts?.map Prod.snd

/-- Whether the bytes after the cursor start with those of `pattern`. -/
def startsWith (pattern : Text) (k : Cursor) : Bool :=
  (bytes pattern).isPrefixOf ((bytes k.text).drop k.clamped)

/-- One character forward: the character passed, and the cursor after it. -/
def bump? (k : Cursor) : Option (Option Char × Cursor) :=
  k.rest?.map fun
    | [] => (none, k)
    | c :: _ => (some c, { k with offset := k.offset + c.utf8Size })

/-- The cursor `n` bytes further, which may be beyond the end of the text. -/
def advance? (n : Nat) (k : Cursor) : Option Cursor :=
  if k.offset + n < offsetLimit then some { k with offset := k.offset + n } else none

/-- The cursor at a given offset, or at the end of the text if that comes first. -/
def seek (offset : Nat) (k : Cursor) : Cursor :=
  { k with offset := min offset (byteLength k.text) }

end Cursor

end RazorTidy.Text
