import RazorTidy.Doc.Basic

/-!
# Printing documents

A document is printed from left to right. At each group the printer measures whether the group,
printed flat, and what follows it up to the next line break fit in the width that is left on the
line; if they do, the soft lines of the group are spaces.

Indentation is written in front of the next text only, and spaces at the end of a line are taken
back, so no line ends with a space.
-/

set_option autoImplicit false

namespace RazorTidy

/-- How soft lines are printed. -/
inductive LineMode where
  /-- As spaces. -/
  | flat
  /-- As line breaks. -/
  | broken
  deriving DecidableEq, Repr

/-- What is still to be printed: lists of documents, the next one first, each with its mode. -/
abbrev Rest := List (LineMode × List Doc)

/-! ## Measuring -/

/-- The outcome of measuring a document against the width that is left. -/
inductive Measure where
  /-- The answer is known. -/
  | settled (fits : Bool)
  /-- The document takes no more than the width, and so much is left. -/
  | room (left : Nat)
  deriving DecidableEq, Repr

namespace Measure

/-- Measuring goes on with the width that is left. -/
def andThen (m : Measure) (next : Nat → Measure) : Measure :=
  match m with
  | .settled fits => .settled fits
  | .room left => next left

/-- The outcome after `n` characters on a line with `left` columns left. -/
def take (n left : Nat) : Measure := if n ≤ left then .room (left - n) else .settled false

/-- Whether everything fits when nothing more is to be printed. -/
def toBool : Measure → Bool
  | .settled fits => fits
  | .room _ => true

end Measure

namespace Doc

mutual
/-- The outcome of measuring a document with `left` columns left, where `hardFits` is the answer at
a hard line. -/
def measure (hardFits : Bool) (mode : LineMode) : Doc → (left : Nat) → Measure
  | .nil, left => .room left
  | .text s, left => .take s.length left
  | .line .hard, _ => .settled hardFits
  | .line .soft, left =>
    match mode with
    | .flat => .take 1 left
    | .broken => .settled true
  | .concat items, left => measureAll hardFits mode items left
  | .indent _ body, left => measure hardFits mode body left
  | .group body, left => measure hardFits mode body left
/-- The outcome of measuring documents one after the other. -/
def measureAll (hardFits : Bool) (mode : LineMode) : List Doc → (left : Nat) → Measure
  | [], left => .room left
  | d :: rest, left =>
    (measure hardFits mode d left).andThen (measureAll hardFits mode rest)
end

/-- The outcome of measuring what is still to be printed. A line break there ends the line. -/
def measureRest : Rest → (left : Nat) → Measure
  | [], left => .room left
  | (mode, items) :: rest, left => (measureAll true mode items left).andThen (measureRest rest)

/-- Whether a document, printed flat, and what follows it up to the next line break fit in `left`
columns. A document with a hard line never does. -/
def fits (left : Nat) (d : Doc) (rest : Rest) : Bool :=
  ((measure false .flat d left).andThen (measureRest rest)).toBool

end Doc

/-! ## Printing -/

/-- What is printed so far. -/
structure Page where
  /-- The text, its last character first. -/
  reversed : Text := []
  /-- The column after the text and its pending indentation. -/
  column : Nat := 0
  /-- The indentation to be written before the next text. -/
  pending : Nat := 0
  deriving DecidableEq, Repr

namespace Page

/-- The page with a text written on its last line. -/
def put (s : Text) (p : Page) : Page where
  reversed := s.reverse ++ (List.replicate p.pending ' ' ++ p.reversed)
  column := p.column + s.length
  pending := 0

/-- The page with a new line, to be indented by so many spaces. -/
def newLine (indent : Nat) (p : Page) : Page where
  reversed := '\n' :: p.reversed.dropWhile (· == ' ')
  column := indent
  pending := indent

/-- The text of a page. Indentation that no text follows is not part of it. -/
def text (p : Page) : Text := p.reversed.reverse

end Page

namespace Doc

mutual
/-- The page with a document written on it, at an indentation and in a mode, before what is still to
be printed. -/
def write (width indent : Nat) (mode : LineMode) : Doc → Rest → Page → Page
  | .nil, _, p => p
  | .text s, _, p => p.put s
  | .line .hard, _, p => p.newLine indent
  | .line .soft, _, p =>
    match mode with
    | .flat => p.put [' ']
    | .broken => p.newLine indent
  | .concat items, rest, p => writeAll width indent mode items rest p
  | .indent spaces body, rest, p => write width (indent + spaces) mode body rest p
  | .group body, rest, p =>
    let mode' := if fits (width - p.column) body rest then .flat else .broken
    write width indent mode' body rest p
/-- The page with documents written on it one after the other. -/
def writeAll (width indent : Nat) (mode : LineMode) : List Doc → Rest → Page → Page
  | [], _, p => p
  | d :: ds, rest, p =>
    writeAll width indent mode ds rest (write width indent mode d ((mode, ds) :: rest) p)
end

/-- The width that lines try to keep: the configured one, but from 20 to 400 columns. -/
def lineWidth (printWidth : Nat) : Nat := max 20 (min printWidth 400)

/-- A document printed for a configured width. -/
def render (printWidth : Nat) (d : Doc) : Text :=
  (d.write (lineWidth printWidth) 0 .broken [] {}).text

end Doc

end RazorTidy
