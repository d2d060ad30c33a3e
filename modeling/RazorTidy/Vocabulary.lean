import RazorTidy.Text.Case
import RazorTidy.Text.Word
import RazorTidy.Text.Blank

/-!
# The vocabulary of templates

The words and element names that have a meaning of their own: directives, continuations, elements
with raw text, and void elements. Element names and continuations are taken in any ASCII case,
directives only as they are written here.
-/

set_option autoImplicit false

namespace RazorTidy

/-- The words that make an `@` start a directive. -/
def directiveWords : List Text :=
  ["addTagHelper".toList, "attribute".toList, "do".toList, "for".toList, "foreach".toList,
   "functions".toList, "helper".toList, "if".toList, "implements".toList, "inherits".toList,
   "inject".toList, "layout".toList, "lock".toList, "model".toList, "namespace".toList,
   "page".toList, "preservewhitespace".toList, "removeTagHelper".toList, "rendermode".toList,
   "section".toList, "switch".toList, "tagHelperPrefix".toList, "try".toList, "typeparam".toList,
   "using".toList, "while".toList]

/-- The words that go on with a construct after its closing brace. -/
def continuationWords : List Text :=
  ["else".toList, "catch".toList, "finally".toList, "while".toList]

/-- The elements whose content is raw text. -/
def rawTextNames : List Text := ["script".toList, "style".toList]

/-- The elements that never have content. -/
def voidNames : List Text :=
  ["area".toList, "base".toList, "br".toList, "col".toList, "embed".toList, "hr".toList,
   "img".toList, "input".toList, "keygen".toList, "link".toList, "meta".toList, "param".toList,
   "source".toList, "track".toList, "wbr".toList, "command".toList, "menuitem".toList,
   "basefont".toList, "bgsound".toList, "frame".toList, "image".toList, "isindex".toList,
   "nextid".toList]

/-- Whether a name is in a list of names, in any ASCII case. -/
def isNamedIn (names : List Text) (name : Text) : Bool := names.any (Text.sameName · name)

/-- Whether a word is a directive. -/
def isDirectiveWord (word : Text) : Bool := directiveWords.contains word

/-- Whether a word is a continuation. -/
def isContinuationWord (word : Text) : Bool := isNamedIn continuationWords word

/-- Whether an element of this name holds raw text. -/
def isRawTextName (name : Text) : Bool := isNamedIn rawTextNames name

/-- Whether an element of this name is void without being configured so. -/
def isVoidName (name : Text) : Bool := isNamedIn voidNames name

/-- Whether an element of this name is void when the names `extra` are void too. -/
def isVoidWith (extra : List Text) (name : Text) : Bool := isVoidName name || isNamedIn extra name

/-- Whether an element of this name is a declaration, such as `!DOCTYPE`. -/
def isDeclarationName (name : Text) : Bool := name.head? == some '!'

/-- The element name of a tag: what stands after its angle brackets and slash, up to a blank, a
slash or the end of the tag. -/
def tagName (tag : Text) : Text :=
  (Text.stripFirst '/' (tag.dropWhile (· == '<'))).takeWhile
    fun c => !Text.isBlank c && c != '/' && c != '>'

/-- Names that differ only in ASCII case are named in the same lists. -/
theorem isNamedIn_congr (names : List Text) {s t : Text} (h : Text.sameName s t = true) :
    isNamedIn names s = isNamedIn names t := by
  rw [Text.sameName_iff] at h
  simp only [isNamedIn, Text.sameName, h]

end RazorTidy
