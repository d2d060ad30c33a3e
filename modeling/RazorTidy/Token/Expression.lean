import RazorTidy.Token.Literal
import RazorTidy.Text.Word

/-!
# Inline expressions

An inline expression is an identifier with a chain of members, calls and indices behind it. After
`await` one further identifier may follow on the same line.
-/

set_option autoImplicit false

namespace RazorTidy

/-- The length of the chain of members, calls and indices at the start of a text; `inside`
characters of it belong to a link already recognised. -/
def chainLength : (inside : Nat) → Text → Nat
  | _, [] => 0
  | inside + 1, _ :: r => chainLength inside r + 1
  | 0, c :: r =>
    if c = '.' then
      if Text.startsWord r then chainLength (Text.leadingWord r).length r + 1 else 0
    else
      match bracketGroup? (c :: r) with
      | some n => chainLength (n - 1) r + 1
      | none => 0

/-- The length of the operand after `await` at the start of a text: spaces or tabs, then a word;
zero if there is none. -/
def operandLength (s : Text) : Nat :=
  let gap := s.takeWhile fun c => c == ' ' || c == '\t'
  let rest := s.drop gap.length
  if gap.isEmpty || !Text.startsWord rest then 0
  else gap.length + (Text.leadingWord rest).length

/-- The length of what an expression takes of the text after its first word. -/
def expressionRest (isAwait : Bool) (s : Text) : Nat :=
  let n := if isAwait then operandLength s else 0
  n + chainLength 0 (s.drop n)

end RazorTidy
