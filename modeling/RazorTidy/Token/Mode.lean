import RazorTidy.Token.Basic
import RazorTidy.Vocabulary

/-!
# Lexical modes

What surrounds a place of a template decides how its characters read: in code, quotes and slashes
start literals and comments, and a `<` after a word is a comparison. The modes are the braces and
elements that are open at the place, innermost first.
-/

set_option autoImplicit false

namespace RazorTidy

/-- What a place of a template stands in. -/
inductive Mode where
  /-- Between braces. -/
  | code
  /-- In the element of this lower-case name. -/
  | markup (name : Text)
  deriving DecidableEq, Repr

namespace Mode

/-- The modes after the innermost `mode` ends, and with it all inside it. Without such a mode
nothing ends. -/
def leave (mode : Mode) (modes : List Mode) : List Mode :=
  match modes.dropWhile (· != mode) with
  | [] => modes
  | _ :: outer => outer

/-- The modes after a token. -/
def after (modes : List Mode) (token : Token) : List Mode :=
  match token.kind with
  | .braceOpen => .code :: modes
  | .braceClose => leave .code modes
  | .openTag =>
    let name := tagName token.text
    if isRawTextName name || isVoidName name then modes else .markup (Text.lower name) :: modes
  | .closeTag => leave (.markup (Text.lower (tagName token.text))) modes
  | _ => modes

/-- The modes after a list of tokens from the start of a template. -/
def afterAll (tokens : List Token) : List Mode := tokens.foldl after []

/-- Whether the innermost mode is code. -/
def inCode : List Mode → Bool
  | .code :: _ => true
  | _ => false

end Mode

end RazorTidy
