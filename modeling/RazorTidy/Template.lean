import RazorTidy.CodeSection
import RazorTidy.Scaffold
import RazorTidy.Segmentation

/-!
# Templates

Reading a template: its code section is set aside, the rest is cut into segments, and each segment
adds its gap and its token to a scaffold. Every text is a template; what is out of place in it is
kept where it can be and closes nothing.
-/

set_option autoImplicit false

namespace RazorTidy.Template

/-- Whether a brace token comes first in a list of segments, with only blanks before it. -/
def startsBlock : List Segment → Bool
  | [] => false
  | seg :: _ => seg.token.kind == .braceOpen && Text.allBlank seg.gap

/-- The scaffold after a list of segments, where `extra` names are void and `previous` is the kind
of the token before them. -/
def build (extra : List Text) (previous : Option TokenKind) :
    List Segment → Scaffold → Scaffold
  | [], s => s
  | ⟨gap, token⟩ :: rest, s =>
    let between := previous == some .expression && token.kind == .expression
    let event := Event.ofToken extra token (startsBlock rest)
    build extra (some token.kind) rest ((s.addGap gap between).apply event)

/-- The forest of a template without a code section. A template without any structure is one text,
and blanks alone are one space. -/
def parseBody (extra : List Text) (body : Text) : List Node :=
  let cut := Segmentation.segment body
  match ((build extra none cut.segments Scaffold.empty).addGap cut.tail false).finish with
  | [] => if body.isEmpty then [] else [.text (if Text.allBlank body then [' '] else body)]
  | nodes => nodes

/-- The forest of a template, where `extra` names are void. A code section is its last node. -/
def parse (extra : List Text) (source : Text) : List Node :=
  let (body, codeSection) := CodeSection.split source
  parseBody extra body ++ codeSection.toList.map Node.text

end RazorTidy.Template
