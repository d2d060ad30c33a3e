import RazorTidy.Text.Ranges

/-!
# Blanks

A blank is a character with the Unicode property White_Space. Trimming removes blanks at the ends of
a text.
-/

set_option autoImplicit false

namespace RazorTidy.Text

/-- Code points with the property White_Space. -/
def blankRanges : Ranges :=
  [(0x9, 0xD), (0x20, 0x20), (0x85, 0x85), (0xA0, 0xA0), (0x1680, 0x1680), (0x2000, 0x200A),
   (0x2028, 0x2029), (0x202F, 0x202F), (0x205F, 0x205F), (0x3000, 0x3000)]

/-- Whether a character is a blank. -/
def isBlank (c : Char) : Bool := blankRanges.contains c.toNat

/-- Whether a character is one of the five ASCII blanks: space, tab, line feed, form feed and
carriage return. -/
def isAsciiBlank (c : Char) : Bool :=
  c == ' ' || c == '\t' || c == '\n' || c == '\x0c' || c == '\r'

/-- Every ASCII blank is a blank. -/
theorem isBlank_of_isAsciiBlank {c : Char} (h : isAsciiBlank c = true) : isBlank c = true := by
  simp only [isAsciiBlank, Bool.or_eq_true, beq_iff_eq] at h
  rcases h with (((rfl | rfl) | rfl) | rfl) | rfl <;> decide

/-- The text without its blanks in front. -/
def trimStart (s : Text) : Text := s.dropWhile isBlank

/-- The text without its blanks at the end. -/
def trimEnd (s : Text) : Text := dropEndWhile isBlank s

/-- The text without its blanks at both ends. -/
def trim (s : Text) : Text := trimEnd (trimStart s)

/-- Whether a text holds nothing but blanks. -/
def allBlank (s : Text) : Bool := s.all isBlank

/-- Whether a text starts with a blank. -/
def startsBlank : Text → Bool
  | [] => false
  | c :: _ => isBlank c

/-- Whether a text ends with a blank. -/
def endsBlank (s : Text) : Bool := startsBlank s.reverse

end RazorTidy.Text
