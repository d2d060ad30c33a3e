/-!
# Text

A text is the list of its characters. The modules of the library work on texts by recursion on that
list; only the outer layer converts from and to strings.

Cutting a text never loses anything: `dropEndWhile_append` says that a text is what `dropEndWhile`
keeps followed by what it drops.
-/

set_option autoImplicit false

namespace RazorTidy

/-- A text: the list of its characters. -/
abbrev Text := List Char

namespace Text

/-- The text without its longest tail of characters satisfying `p`. -/
def dropEndWhile (p : Char → Bool) (s : Text) : Text :=
  (s.reverse.dropWhile p).reverse

/-- The longest tail of characters satisfying `p`. -/
def takeEndWhile (p : Char → Bool) (s : Text) : Text :=
  (s.reverse.takeWhile p).reverse

theorem dropEndWhile_append (p : Char → Bool) (s : Text) :
    dropEndWhile p s ++ takeEndWhile p s = s := by
  rw [dropEndWhile, takeEndWhile, ← List.reverse_append, List.takeWhile_append_dropWhile,
    List.reverse_reverse]

/-- The number of characters before the first occurrence of `pattern`. -/
def indexOf? (pattern : Text) : Text → Option Nat
  | [] => if pattern.isEmpty then some 0 else none
  | c :: r => if pattern.isPrefixOf (c :: r) then some 0 else (indexOf? pattern r).map (· + 1)

/-- Whether `pattern` occurs somewhere in the text. -/
def occurs (pattern : Text) (s : Text) : Bool := (indexOf? pattern s).isSome

/-- The text without the character `c` in front, or the text itself when it starts otherwise. -/
def stripFirst (c : Char) : Text → Text
  | [] => []
  | d :: r => if d = c then r else d :: r

/-- The text without the character `c` at its end, or the text itself when it ends otherwise. -/
def stripLast (c : Char) (s : Text) : Text := (stripFirst c s.reverse).reverse

/-- The texts joined with `separator` between each two neighbours. -/
def joinWith (separator : Text) : List Text → Text
  | [] => []
  | [s] => s
  | s :: rest => s ++ separator ++ joinWith separator rest

theorem joinWith_cons (separator s : Text) {rest : List Text} (h : rest ≠ []) :
    joinWith separator (s :: rest) = s ++ separator ++ joinWith separator rest := by
  cases rest with
  | nil => exact absurd rfl h
  | cons t rest => rfl

/-- The parts of the text between its occurrences of the character `c`; there is always one. -/
def splitAtChar (c : Char) : Text → List Text
  | [] => [[]]
  | d :: r =>
    if d = c then [] :: splitAtChar c r
    else
      match splitAtChar c r with
      | [] => [[d]]
      | part :: parts => (d :: part) :: parts

end Text

end RazorTidy
