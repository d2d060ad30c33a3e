import RazorTidy.Attribute.Map
import RazorTidy.Token.Literal
import RazorTidy.Text.Blank

/-!
# Attribute regions

The region of a tag between its name and its end holds attributes: a name, or a name, an equals sign
and a value. A name is whatever runs up to a blank or an equals sign, so names with colons, dots and
`@` need no rule of their own; a value is whatever runs up to a blank, and loses its quotes if it is
one quoted text.

A region is first cut into lexemes; `text_lexemes` says that the cut loses nothing.
-/

set_option autoImplicit false

namespace RazorTidy

/-! ## Lexemes -/

/-- The class of a lexeme. -/
inductive LexemeKind where
  /-- A run of ASCII blanks. -/
  | space
  /-- An equals sign. -/
  | equals
  /-- A text between two quotes of the same kind. -/
  | quoted
  /-- A slash. -/
  | slash
  /-- A run of other characters, or everything from a quote that is not closed. -/
  | word
  deriving DecidableEq, Repr

/-- A piece of an attribute region. -/
structure Lexeme where
  kind : LexemeKind
  text : Text
  deriving DecidableEq, Repr

namespace Lexeme

/-- Whether a character belongs to a word. -/
def isWordPart (c : Char) : Bool :=
  !Text.isAsciiBlank c && !isQuote c && c != '=' && c != '/'

/-- The class of the lexeme that starts with `c` before the text `r`, and the number of characters
it takes of `r`. -/
def extent (c : Char) (r : Text) : LexemeKind × Nat :=
  if Text.isAsciiBlank c then (.space, (r.takeWhile Text.isAsciiBlank).length)
  else if c = '=' then (.equals, 0)
  else if c = '/' then (.slash, 0)
  else if isQuote c then
    match Text.indexOf? [c] r with
    | some n => (.quoted, n + 1)
    | none => (.word, r.length)
  else (.word, (r.takeWhile isWordPart).length)

/-- The lexemes of an attribute region. -/
def lexemes : Text → List Lexeme
  | [] => []
  | c :: r =>
    ⟨(extent c r).1, c :: r.take (extent c r).2⟩ :: lexemes (r.drop (extent c r).2)
termination_by s => s.length
decreasing_by
  simp only [List.length_drop, List.length_cons]
  omega

theorem text_lexemes (s : Text) : (lexemes s).flatMap Lexeme.text = s := by
  fun_induction lexemes s with
  | case1 => rfl
  | case2 c r ih =>
    rw [List.flatMap_cons, ih]
    show c :: (r.take _ ++ r.drop _) = c :: r
    rw [List.take_append_drop]

/-- Whether a lexeme is blank. -/
def isSpace (l : Lexeme) : Bool := l.kind == .space

/-- Whether a lexeme ends a name. -/
def endsName (l : Lexeme) : Bool := l.kind == .space || l.kind == .equals

/-- The texts of lexemes put together. -/
def joined (ls : List Lexeme) : Text := ls.flatMap Lexeme.text

/-- The value that lexemes spell: what stands between the quotes of a single quoted lexeme, else
their text. -/
def value : List Lexeme → Text
  | [⟨.quoted, text⟩] => (text.drop 1).dropLast
  | ls => joined ls

end Lexeme

/-! ## Entries -/

/-- The value that lexemes give to the name before them, with the number of lexemes it takes: an
equals sign and what follows it up to a blank, blanks allowed around the sign. -/
def valueAfter? (ls : List Lexeme) : Option (Text × Nat) :=
  let gap := (ls.takeWhile (·.isSpace)).length
  match ls.drop gap with
  | ⟨.equals, _⟩ :: rest =>
    let indent := (rest.takeWhile (·.isSpace)).length
    let parts := (rest.drop indent).takeWhile (!·.isSpace)
    some (Lexeme.value parts, gap + 1 + indent + parts.length)
  | _ => none

/-- The names and values that lexemes spell, in order. A quoted lexeme where a name is due is an
attribute without a value, with its quotes as part of its name. -/
def attributeEntries : List Lexeme → List (Text × Text)
  | [] => []
  | l :: rest =>
    match l.kind with
    | .space | .equals | .slash => attributeEntries rest
    | .quoted => (l.text, []) :: attributeEntries rest
    | .word =>
      let more := rest.takeWhile (!·.endsName)
      let name := Lexeme.joined (l :: more)
      match valueAfter? (rest.drop more.length) with
      | some (value, n) => (name, value) :: attributeEntries (rest.drop (more.length + n))
      | none => (name, []) :: attributeEntries (rest.drop more.length)
termination_by ls => ls.length
decreasing_by
  all_goals simp only [List.length_cons, List.length_drop]; omega

/-- The attributes of a region. -/
def AttributeMap.ofRegion (region : Text) : AttributeMap :=
  AttributeMap.ofEntries (attributeEntries (Lexeme.lexemes region))

end RazorTidy
