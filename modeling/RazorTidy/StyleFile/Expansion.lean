import RazorTidy.Files.Host
import RazorTidy.Text.Word

/-!
# Path expansion

A path given by hand may start with `~` for the home directory and may name environment variables:
`$NAME` or `${NAME}`, the latter with `:-` and a text to use where the variable is not set. Two
dollar signs are one. What stands for a variable is not expanded again. A path that names an unset
variable without such a text is used as it is written.
-/

set_option autoImplicit false

namespace RazorTidy.Expansion

/-- A part of a written path. -/
inductive Part where
  /-- Characters that stand for themselves. -/
  | plain (s : Text)
  /-- A variable, with the text to use where it is not set. -/
  | reference (name : Text) (default? : Option Text)
  deriving DecidableEq, Repr

/-- The variable that the text between the braces of a `${…}` names. The `:-` counts only after a
name. -/
def braced (inner : Text) : Part :=
  match Text.indexOf? [':', '-'] inner with
  | some (n + 1) => .reference (inner.take (n + 1)) (some (inner.drop (n + 3)))
  | _ => .reference inner none

/-- The part that starts at a dollar sign before the text `r`, and the number of characters it takes
of `r`. -/
def afterDollar (r : Text) : Part × Nat :=
  match r with
  | '$' :: _ => (.plain ['$'], 1)
  | '{' :: r' =>
    match Text.indexOf? ['}'] r' with
    | some n => (braced (r'.take n), n + 2)
    | none => (.plain ['$', '{'], 1)
  | _ =>
    let name := Text.leadingWord r
    if name.isEmpty then (.plain ['$'], 0) else (.reference name none, name.length)

/-- The parts of a written path. -/
def parts : Text → List Part
  | [] => []
  | c :: r =>
    if c = '$' then (afterDollar r).1 :: parts (r.drop (afterDollar r).2)
    else .plain [c] :: parts r
termination_by s => s.length
decreasing_by
  all_goals simp only [List.length_drop, List.length_cons]; omega

/-- The names of the variables in a written path. -/
def variableNames (path : Text) : List Text :=
  (parts path).filterMap fun
    | .reference name _ => some name
    | .plain _ => none

/-- What a part stands for. -/
def Part.value? (lookUp : Text → Option Text) : Part → Option Text
  | .plain s => some s
  | .reference name default? => (lookUp name).or default?

/-- A path with a leading `~` replaced by the home directory. -/
def expandHome (home? : Option Text) (path : Text) : Text :=
  match path, home? with
  | ['~'], some home => home
  | '~' :: '/' :: rest, some home => home ++ '/' :: rest
  | _, _ => path

/-- A written path expanded. A `~` that comes out of a variable stays. -/
def expand (around : Surroundings) (path : Text) : Text :=
  match (parts path).mapM (·.value? around.valueOf?) with
  | none => path
  | some values =>
    if path.head? = some '~' then expandHome around.home? values.flatten else values.flatten

end RazorTidy.Expansion
