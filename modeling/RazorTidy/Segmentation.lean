import RazorTidy.Token.Mode
import RazorTidy.Token.Header
import RazorTidy.Token.Expression
import RazorTidy.Token.Tag
import RazorTidy.Text.Bytes

/-!
# Segmentation

A template is cut into tokens and the gaps of plain text between them. At each place the rules for
comments, tags and code are tried in this order, and the first that applies gives the token; where
none applies the place is text, and the cut goes on after it.

The cut loses nothing: `text_segment` says that the gaps and tokens, put together again, are the
template.
-/

set_option autoImplicit false

namespace RazorTidy

/-- A token with the gap of text before it. -/
structure Segment where
  gap : Text
  token : Token
  deriving DecidableEq, Repr

/-- A text cut into segments and the text after the last token. -/
structure Segmentation where
  segments : List Segment
  tail : Text
  deriving DecidableEq, Repr

/-- What the rules at a place depend on besides the text after it. -/
structure Place where
  /-- The modes that are open. -/
  modes : List Mode
  /-- The character before the place. -/
  previous : Option Char
  /-- Whether only blanks stand between the place and a closing brace token before it. -/
  afterBrace : Bool
  deriving DecidableEq, Repr

namespace Place

/-- The place at the start of a template. -/
def start : Place := ⟨[], none, false⟩

/-- Whether the character before the place satisfies `p`. -/
def follows (p : Char → Bool) (place : Place) : Bool := place.previous.any p

/-- The place after a piece of text without tokens. -/
def passText (piece : Text) (place : Place) : Place :=
  { place with
    previous := piece.getLast?.or place.previous
    afterBrace := place.afterBrace && Text.allBlank piece }

/-- The place after a token. -/
def passToken (token : Token) (place : Place) : Place where
  modes := Mode.after place.modes token
  previous := token.text.getLast?.or place.previous
  afterBrace := token.kind == .braceClose

/-- The tag at a place. In code, a `<` after a word character is no tag. -/
def tag? (place : Place) (s : Text) : Option (TokenKind × Nat) :=
  if Mode.inCode place.modes && place.follows Text.isWordChar then none else RazorTidy.tag? s

/-- The token that the `@` in front of the text `r` starts: a block, a directive or an expression.
An `@` after a letter or numeral is text. -/
def transition? (place : Place) (r : Text) : Option (TokenKind × Nat) :=
  if place.follows Text.isLetterOrNumeral then none
  else if r.head? = some '{' then some (.braceOpen, 2)
  else if Text.startsWord r then
    let word := Text.leadingWord r
    let rest := r.drop word.length
    if isDirectiveWord word then some (.directive, 1 + word.length + (header rest).length)
    else some (.expression, 1 + word.length + expressionRest (word == "await".toList) rest)
  else none

/-- The continuation at a place: a continuation word with only blanks since a closing brace. -/
def continuation? (place : Place) (s : Text) : Option (TokenKind × Nat) :=
  let word := Text.leadingWord s
  if place.afterBrace && isContinuationWord word then
    let isLoopTail := Text.sameName word "while".toList
    some (.continuation, word.length + (continuationHeader isLoopTail (s.drop word.length)).length)
  else none

/-- The code token at a place. -/
def code? (place : Place) : Text → Option (TokenKind × Nat)
  | [] => none
  | '{' :: _ => some (.braceOpen, 1)
  | '}' :: _ => some (.braceClose, 1)
  | '@' :: r => place.transition? r
  | s => place.continuation? s

/-- The kind and the length of the token at a place: a comment before a tag before code. -/
def token? (place : Place) (s : Text) : Option (TokenKind × Nat) :=
  ((comment? s).map fun n => (.comment, n)) <|> place.tag? s <|> place.code? s

/-- The length of the text to pass over at a place without a token: an escaped `@`, an explicit
expression, in code a literal or a comment, else one character. -/
def textLength (place : Place) : Text → Nat
  | '@' :: '@' :: _ => 2
  | '@' :: '(' :: r => ((bracketGroup? ('(' :: r)).getD 0) + 1
  | c :: r =>
    if Mode.inCode place.modes then (codeComment? (c :: r)).getD (hiddenAfter c r + 1) else 1
  | [] => 0

end Place

/-- The length of the raw text after a token: in an element with raw text, everything up to its
closing tag or the end. -/
def rawTextLength (token : Token) (r : Text) : Nat :=
  let name := tagName token.text
  if token.kind = .openTag ∧ isRawTextName name then
    (Text.indexOf? ('<' :: '/' :: Text.lower name) (Text.lower r)).getD r.length
  else 0

namespace Segmentation

/-- The segmentation with a piece of text put in front. -/
def consText (piece : Text) : Segmentation → Segmentation
  | ⟨[], tail⟩ => ⟨[], piece ++ tail⟩
  | ⟨first :: rest, tail⟩ => ⟨{ first with gap := piece ++ first.gap } :: rest, tail⟩

/-- The segmentation with a token put in front. -/
def consToken (token : Token) (s : Segmentation) : Segmentation :=
  ⟨⟨[], token⟩ :: s.segments, s.tail⟩

/-- The text that a segmentation cuts. -/
def text (s : Segmentation) : Text :=
  s.segments.flatMap (fun seg => seg.gap ++ seg.token.text) ++ s.tail

/-- The tokens of a segmentation. -/
def tokens (s : Segmentation) : List Token := s.segments.map Segment.token

@[simp] theorem text_consText (piece : Text) (s : Segmentation) :
    (consText piece s).text = piece ++ s.text := by
  rcases s with ⟨_ | ⟨first, rest⟩, tail⟩ <;> simp [consText, text]

@[simp] theorem text_consToken (token : Token) (s : Segmentation) :
    (consToken token s).text = token.text ++ s.text := by
  simp [consToken, text]

/-- The segmentation of the text from a place on. -/
def segmentFrom (place : Place) : Text → Segmentation
  | [] => ⟨[], []⟩
  | c :: r =>
    match place.token? (c :: r) with
    | some (kind, n) =>
      let token : Token := ⟨kind, c :: r.take (n - 1)⟩
      let rest := r.drop (n - 1)
      let raw := rawTextLength token rest
      let next := (place.passToken token).passText (rest.take raw)
      consToken token (consText (rest.take raw) (segmentFrom next (rest.drop raw)))
    | none =>
      let piece := c :: r.take (place.textLength (c :: r) - 1)
      consText piece
        (segmentFrom (place.passText piece) (r.drop (place.textLength (c :: r) - 1)))
termination_by s => s.length
decreasing_by
  all_goals simp only [List.length_drop, List.length_cons]; omega

/-- The segmentation of a template. -/
def segment (s : Text) : Segmentation := segmentFrom Place.start s

theorem text_segmentFrom (place : Place) (s : Text) : (segmentFrom place s).text = s := by
  fun_induction segmentFrom place s with
  | case1 place => rfl
  | case2 place c r kind n h token rest raw next ih =>
    rw [text_consToken, text_consText, ih, List.take_append_drop]
    show c :: (r.take (n - 1) ++ r.drop (n - 1)) = c :: r
    rw [List.take_append_drop]
  | case3 place c r h piece ih =>
    rw [text_consText, ih]
    show c :: (r.take _ ++ r.drop _) = c :: r
    rw [List.take_append_drop]

theorem text_segment (s : Text) : (segment s).text = s := text_segmentFrom Place.start s

/-- The tokens of a list of segments with the byte ranges they take, the first gap starting at
`offset`. -/
def spansFrom (offset : Nat) : List Segment → List (Token × Nat × Nat)
  | [] => []
  | seg :: rest =>
    let start := offset + Text.byteLength seg.gap
    let stop := start + Text.byteLength seg.token.text
    (seg.token, start, stop) :: spansFrom stop rest

/-- The tokens of a segmentation with the byte ranges they take. -/
def spans (s : Segmentation) : List (Token × Nat × Nat) := spansFrom 0 s.segments

end Segmentation

end RazorTidy
