import RazorTidy.Text.Basic

/-!
# Literals, brackets and comments in code

The parts of code whose content is hidden from the rules around them. Each function looks at the
text from its first character on and answers how many characters the part takes.

A part inside another one is passed over with a counter: the argument `hidden` is the number of
characters that still belong to a literal already recognised. This keeps every function structurally
recursive on the text.
-/

set_option autoImplicit false

namespace RazorTidy

/-- Whether a character opens a literal. -/
def isQuote (c : Char) : Bool := c == '"' || c == '\''

/-- The length of the rest of a literal after its opening quote `q`, the closing quote included. A
literal ends on its line; a backslash takes the next character with it, whatever that is. -/
def literalRest? (q : Char) : Text → Option Nat
  | [] => none
  | '\\' :: [] => none
  | '\\' :: _ :: r => (literalRest? q r).map (· + 2)
  | '\n' :: _ => none
  | c :: r => if c = q then some 1 else (literalRest? q r).map (· + 1)

/-- The number of characters that the quote `c` hides in the text after it: the rest of its literal,
or none if there is no literal. -/
def hiddenAfter (c : Char) (r : Text) : Nat :=
  if isQuote c then (literalRest? c r).getD 0 else 0

/-- The length of the text up to the bracket that brings `depth` back to zero, where only the
brackets `opening` and `closing` count and literals hide theirs. -/
def balanced? (opening closing : Char) : (hidden depth : Nat) → Text → Option Nat
  | _, _, [] => none
  | hidden + 1, depth, _ :: r => (balanced? opening closing hidden depth r).map (· + 1)
  | 0, depth, c :: r =>
    if c = opening then (balanced? opening closing 0 (depth + 1) r).map (· + 1)
    else if c = closing then
      if depth ≤ 1 then some 1 else (balanced? opening closing 0 (depth - 1) r).map (· + 1)
    else (balanced? opening closing (hiddenAfter c r) depth r).map (· + 1)

/-- The length of the balanced group in round or square brackets at the start of a text. -/
def bracketGroup? : Text → Option Nat
  | '(' :: r => (balanced? '(' ')' 0 1 r).map (· + 1)
  | '[' :: r => (balanced? '[' ']' 0 1 r).map (· + 1)
  | _ => none

/-- The length of the code comment at the start of a text: a line comment without its line end, or a
closed block comment. -/
def codeComment? : Text → Option Nat
  | '/' :: '/' :: r => some ((r.takeWhile (· != '\n')).length + 2)
  | '/' :: '*' :: r => (Text.indexOf? ['*', '/'] r).map (· + 4)
  | _ => none

/-- The length of the markup or template comment at the start of a text. A comment that is not
closed is none. -/
def comment? : Text → Option Nat
  | '<' :: '!' :: '-' :: '-' :: r => (Text.indexOf? ['-', '-', '>'] r).map (· + 7)
  | '@' :: '*' :: r => (Text.indexOf? ['*', '@'] r).map (· + 4)
  | _ => none

end RazorTidy
