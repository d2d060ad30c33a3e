import RazorTidy.Text.Quoted

/-!
# Outlines

An outline shows the structure of a value: constructor names, labelled fields and lists. It has two
written forms, one on a single line and one with an indented line for each part.
-/

set_option autoImplicit false

namespace RazorTidy

/-- The shown structure of a value. -/
inductive Outline where
  /-- A value without parts, as it is written. -/
  | atom (written : Text)
  /-- A list of values. -/
  | list (items : List Outline)
  /-- A constructor with its arguments in order. -/
  | tuple (name : Text) (items : List Outline)
  /-- A constructor with labelled arguments. -/
  | record (name : Text) (fields : List Outline)
  /-- A labelled argument. -/
  | field (label : Text) (value : Outline)
  deriving Repr

namespace Outline

/-- A text, shown in quotes. -/
def ofText (s : Text) : Outline := .atom (Text.quoted s)

/-- A truth value. -/
def ofBool (b : Bool) : Outline := .atom (if b then "true".toList else "false".toList)

/-- A number. -/
def ofNat (n : Nat) : Outline := .atom (Nat.toDigits 10 n)

/-! ## On one line -/

mutual
/-- The outline on a single line. -/
def compact : Outline → Text
  | .atom written => written
  | .list items => '[' :: Text.joinWith ", ".toList (compactAll items) ++ [']']
  | .tuple name items => name ++ '(' :: Text.joinWith ", ".toList (compactAll items) ++ [')']
  | .record name fields =>
    name ++ [' ', '{', ' '] ++ Text.joinWith ", ".toList (compactAll fields) ++ [' ', '}']
  | .field label value => label ++ ": ".toList ++ compact value
/-- Outlines, each on a single line. -/
def compactAll : List Outline → List Text
  | [] => []
  | o :: rest => compact o :: compactAll rest
end

/-! ## On indented lines -/

/-- Spaces in front of a line at a nesting depth. -/
def margin (depth : Nat) : Text := List.replicate (4 * depth) ' '

mutual
/-- The outline with a line for each part, its own first line at nesting depth `depth`. -/
def spread (depth : Nat) : Outline → Text
  | .atom written => written
  | .list items => '[' :: spreadAll depth items ++ [']']
  | .tuple name items => name ++ '(' :: spreadAll depth items ++ [')']
  | .record name fields => name ++ [' ', '{'] ++ spreadAll depth fields ++ ['}']
  | .field label value => label ++ ": ".toList ++ spread depth value
/-- The parts of an outline at nesting depth `depth`, each on a line of its own one level deeper,
with the margin of the closing bracket. Without parts there is nothing between the brackets. -/
def spreadAll (depth : Nat) : List Outline → Text
  | [] => []
  | o :: rest => '\n' :: margin (depth + 1) ++ spread (depth + 1) o ++ ',' :: spreadMore depth rest
/-- The parts after the first one, and the margin of the closing bracket. -/
def spreadMore (depth : Nat) : List Outline → Text
  | [] => '\n' :: margin depth
  | o :: rest => '\n' :: margin (depth + 1) ++ spread (depth + 1) o ++ ',' :: spreadMore depth rest
end

end Outline

end RazorTidy
