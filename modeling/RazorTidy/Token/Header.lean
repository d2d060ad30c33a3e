import RazorTidy.Token.Literal
import RazorTidy.Text.Blank
import RazorTidy.Text.Word

/-!
# Headers

A header is what follows the word of a directive or of a continuation on its line: conditions,
arguments, paths. It may run over several lines inside brackets.
-/

set_option autoImplicit false

namespace RazorTidy

/-- The depth of round and square brackets after the character `c`. -/
def bracketDepth (depth : Nat) (c : Char) : Nat :=
  if c = '(' ∨ c = '[' then depth + 1 else if c = ')' ∨ c = ']' then depth - 1 else depth

/-- Whether the character `c` with the text `r` after it ends a header outside of brackets: a brace,
a line end, or the start of a closing tag. -/
def endsHeader (c : Char) (r : Text) : Bool :=
  c == '{' || c == '}' || c == '\n' || (c == '<' && r.head? == some '/')

/-- The number of characters before the end of a header; none if the text ends inside brackets. -/
def headerStop? : (hidden depth : Nat) → Text → Option Nat
  | _, depth, [] => if depth = 0 then some 0 else none
  | hidden + 1, depth, _ :: r => (headerStop? hidden depth r).map (· + 1)
  | 0, depth, c :: r =>
    if depth = 0 ∧ endsHeader c r then some 0
    else (headerStop? (hiddenAfter c r) (bracketDepth depth c) r).map (· + 1)

/-- The header at the start of a text, without the ASCII blanks at its end. A header whose brackets
stay open takes only the first line. -/
def header (s : Text) : Text :=
  Text.dropEndWhile Text.isAsciiBlank <|
    match headerStop? 0 0 s with
    | some n => s.take n
    | none => s.takeWhile (· != '\n')

/-- Whether the text after a `<` makes it the start of markup. -/
def startsMarkup : Text → Bool
  | [] => false
  | c :: _ => Text.isAsciiLetter c || c == '/' || c == '!'

/-- Where a continuation ends inside its header, outside of brackets. -/
inductive ContinuationStop where
  /-- After a semicolon, which belongs to the continuation. -/
  | semicolon
  /-- In front of markup. -/
  | markup
  deriving DecidableEq, Repr

/-- The first stop of a continuation among the `limit` characters of its header, with the number of
characters before it. A semicolon stops only the tail of a `do` loop. -/
def continuationStop? (isLoopTail : Bool) :
    (limit hidden depth : Nat) → Text → Option (Nat × ContinuationStop)
  | 0, _, _, _ => none
  | _, _, _, [] => none
  | limit + 1, hidden + 1, depth, _ :: r =>
    (continuationStop? isLoopTail limit hidden depth r).map fun (n, stop) => (n + 1, stop)
  | limit + 1, 0, depth, c :: r =>
    if depth = 0 ∧ c = ';' ∧ isLoopTail then some (0, .semicolon)
    else if depth = 0 ∧ c = '<' ∧ startsMarkup r then some (0, .markup)
    else
      (continuationStop? isLoopTail limit (hiddenAfter c r) (bracketDepth depth c) r).map
        fun (n, stop) => (n + 1, stop)

/-- The header of a continuation at the start of a text. Unlike that of a directive it also ends in
front of markup, and that of a `while` ends with its semicolon. -/
def continuationHeader (isLoopTail : Bool) (s : Text) : Text :=
  match continuationStop? isLoopTail (header s).length 0 0 s with
  | some (n, .semicolon) => s.take (n + 1)
  | some (n, .markup) => Text.dropEndWhile Text.isAsciiBlank (s.take n)
  | none => header s

end RazorTidy
