import RazorTidy.Text.Letter
import RazorTidy.Text.Numeral

/-!
# Words

A word is a run of letters, numerals and underscores. Words name keywords, identifiers and members
in the code parts of a template.
-/

set_option autoImplicit false

namespace RazorTidy.Text

/-- Whether a character is a letter. -/
def isLetter (c : Char) : Bool := letterRanges.contains c.toNat

/-- Whether a character is a letter or a numeral. -/
def isLetterOrNumeral (c : Char) : Bool := isLetter c || numeralRanges.contains c.toNat

/-- Whether an identifier may start with the character. -/
def isWordStart (c : Char) : Bool := isLetter c || c == '_'

/-- Whether an identifier may go on with the character. -/
def isWordChar (c : Char) : Bool := isLetterOrNumeral c || c == '_'

/-- The longest word at the start of a text. -/
def leadingWord (s : Text) : Text := s.takeWhile isWordChar

/-- Whether a text starts as an identifier does. -/
def startsWord : Text → Bool
  | [] => false
  | c :: _ => isWordStart c

/-- Whether a character is an ASCII letter. -/
def isAsciiLetter (c : Char) : Bool := ('a' ≤ c && c ≤ 'z') || ('A' ≤ c && c ≤ 'Z')

/-- Every word start is a word character. -/
theorem isWordChar_of_isWordStart {c : Char} (h : isWordStart c = true) : isWordChar c = true := by
  simp only [isWordStart, isWordChar, isLetterOrNumeral, Bool.or_eq_true] at h ⊢
  exact h.imp_left Or.inl

end RazorTidy.Text
