import RazorTidy.Text.Joining
import RazorTidy.Text.Hidden

/-!
# Quoted texts

A quoted text stands between double quotes. The quote, the backslash and the common controls have
short escapes; any other character that would leave no mark, or would join the character before it,
is written as its code point.
-/

set_option autoImplicit false

namespace RazorTidy.Text

/-- The characters with a short escape, and the character that stands for each after a backslash. -/
def shortEscapes : List (Char × Char) :=
  [('\x00', '0'), ('\t', 't'), ('\r', 'r'), ('\n', 'n'), ('"', '"'), ('\\', '\\')]

/-- Whether a character is shown by itself inside quotes. -/
def isShown (c : Char) : Bool :=
  !joiningRanges.contains c.toNat && !hiddenRanges.contains c.toNat

/-- A character as it stands inside quotes. -/
def escaped (c : Char) : Text :=
  match shortEscapes.lookup c with
  | some e => ['\\', e]
  | none =>
    if isShown c then [c]
    else '\\' :: 'u' :: '{' :: Nat.toDigits 16 c.toNat ++ ['}']

/-- A text between double quotes. -/
def quoted (s : Text) : Text := '"' :: s.flatMap escaped ++ ['"']

end RazorTidy.Text
