import RazorTidy.Text.Blank

/-!
# Code sections

A template may end with a section of code that starts with `@code` and an opening brace, blanks
allowed between the two. Everything from the first such opener to the end belongs to the section and
is not read any further.

`split_append` says that cutting the section off loses nothing.
-/

set_option autoImplicit false

namespace RazorTidy.CodeSection

/-- The word that opens a code section. -/
def opener : Text := "@code".toList

/-- Whether a text starts with the opener of a code section. -/
def opens (s : Text) : Bool :=
  opener.isPrefixOf s && ((s.drop opener.length).dropWhile Text.isBlank).head? == some '{'

/-- A template without its code section, and the section if there is one. -/
def split : Text → Text × Option Text
  | [] => ([], none)
  | c :: r =>
    if opens (c :: r) then ([], some (c :: r))
    else
      let (front, back) := split r
      (c :: front, back)

theorem split_append (s : Text) : (split s).1 ++ (split s).2.getD [] = s := by
  induction s with
  | nil => rfl
  | cons c r ih =>
    rw [split]
    split
    · rfl
    · rw [List.cons_append, ih]

end RazorTidy.CodeSection
