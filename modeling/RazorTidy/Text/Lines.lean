import RazorTidy.Text.Basic

/-!
# Lines

A line ends at a line feed; a carriage return right before the line feed belongs to the line end.
The characters after the last line feed are a line of their own if there are any.
-/

set_option autoImplicit false

namespace RazorTidy.Text

/-- The lines of a text, without their line ends. -/
def lines : Text → List Text
  | [] => []
  | '\r' :: '\n' :: r => [] :: lines r
  | '\n' :: r => [] :: lines r
  | c :: r =>
    match lines r with
    | [] => [[c]]
    | line :: rest => (c :: line) :: rest

/-- A text without line feeds is one line, or none when it is empty. -/
theorem lines_of_no_newline (s : Text) (h : '\n' ∉ s) :
    lines s = if s.isEmpty then [] else [s] := by
  induction s with
  | nil => rfl
  | cons c r ih =>
    rw [List.mem_cons, not_or] at h
    have hr := ih h.2
    rw [lines]
    · rw [hr]
      cases r <;> rfl
    · intro r' hc hr'
      exact h.2 (hr' ▸ List.mem_cons_self)
    · intro hc
      exact h.1 hc.symm

end RazorTidy.Text
