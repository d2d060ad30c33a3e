import RazorTidy.Token.Basic
import RazorTidy.Token.Literal
import RazorTidy.Text.Word

/-!
# Tags

A tag is an angle bracket, an optional slash, a letter, and everything up to the first `>` outside
of quotes. No other `<` may stand outside of quotes before it. A declaration starts with `<!` and a
letter, and quotes mean nothing in it.
-/

set_option autoImplicit false

namespace RazorTidy

/-- The length of a tag's rest up to and including its `>`, where `quote?` is the quote that is
open. -/
def tagRest? : (quote? : Option Char) → Text → Option Nat
  | _, [] => none
  | some q, c :: r => (tagRest? (if c = q then none else some q) r).map (· + 1)
  | none, c :: r =>
    if c = '>' then some 1
    else if c = '<' then none
    else (tagRest? (if isQuote c then some c else none) r).map (· + 1)

/-- The length of a declaration's rest up to and including its `>`. -/
def declarationRest? : Text → Option Nat
  | [] => none
  | c :: r =>
    if c = '>' then some 1 else if c = '<' then none else (declarationRest? r).map (· + 1)

/-- The kind and the length of the tag at the start of a text. -/
def tag? : Text → Option (TokenKind × Nat)
  | '<' :: '/' :: c :: r =>
    if Text.isAsciiLetter c then (tagRest? none r).map fun n => (.closeTag, n + 3) else none
  | '<' :: '!' :: c :: r =>
    if Text.isAsciiLetter c then (declarationRest? r).map fun n => (.voidTag, n + 3) else none
  | '<' :: c :: r =>
    if Text.isAsciiLetter c then
      (tagRest? none r).map fun n =>
        (if (r.take (n - 1)).getLast? = some '/' then .voidTag else .openTag, n + 2)
    else none
  | _ => none

end RazorTidy
