import RazorTidy.Style
import RazorTidy.Text.Word

/-!
# Style files

A style file is a TOML document that gives a value to some of the three settings of a style. Their
values are numbers and lists of texts, so those are all the values read here: a document with any
other value, with a table, a dotted key, an unknown key or a key given twice is no style file.

Each reader looks at the text from its first character on and answers what it has read and how many
characters that takes.
-/

set_option autoImplicit false

namespace RazorTidy.Toml

/-! ## Blanks, comments and line ends -/

/-- Whether a character separates things on a line. -/
def isGap (c : Char) : Bool := c == ' ' || c == '\t'

/-- Whether a character may stand in comments and quoted texts: every one but the controls, of which
only the tab may. -/
def isAllowed (c : Char) : Bool := c == '\t' || (' ' ≤ c && c != '\x7f')

/-- The number of separating characters at the start of a text. -/
def gap (s : Text) : Nat := (s.takeWhile isGap).length

/-- The length of the line end at the start of a text. -/
def lineEnd? : Text → Option Nat
  | '\n' :: _ => some 1
  | '\r' :: '\n' :: _ => some 2
  | _ => none

/-- The length of the comment at the start of a text, or zero where none starts. -/
def comment : Text → Nat
  | '#' :: r => (r.takeWhile isAllowed).length + 1
  | _ => 0

/-- The length of what may follow an entry on its line: separating characters, a comment, and the
line end or the end of the document. -/
def lineRest? (s : Text) : Option Nat :=
  let n := gap s
  let k := n + comment (s.drop n)
  match s.drop k with
  | [] => some k
  | rest => (lineEnd? rest).map (k + ·)

/-- The length of the separating characters, line ends and, if `comments` allows them, comments at
the start of a text. -/
def spacing (comments : Bool) : Text → Nat
  | [] => 0
  | c :: r =>
    let n :=
      if isGap c then 1
      else (lineEnd? (c :: r)).getD (if comments then comment (c :: r) else 0)
    if n = 0 then 0 else n + spacing comments (r.drop (n - 1))
termination_by s => s.length
decreasing_by
  simp only [List.length_drop, List.length_cons]
  omega

/-! ## Numbers -/

/-- The value of a digit in bases up to sixteen. -/
def digit? (c : Char) : Option Nat :=
  if '0' ≤ c ∧ c ≤ '9' then some (c.toNat - '0'.toNat)
  else if 'a' ≤ c ∧ c ≤ 'f' then some (c.toNat - 'a'.toNat + 10)
  else if 'A' ≤ c ∧ c ≤ 'F' then some (c.toNat - 'A'.toNat + 10)
  else none

/-- The digits of a number in some base; single underscores may stand between them. -/
def digits? (base : Nat) : Text → Option (List Nat)
  | [] => none
  | c :: r => do
    let d ← (digit? c).filter (· < base)
    match r with
    | [] => return [d]
    | '_' :: r' => return d :: (← digits? base r')
    | r' => return d :: (← digits? base r')

/-- The number that digits spell. -/
def ofDigits (base : Nat) (ds : List Nat) : Nat := ds.foldl (fun n d => n * base + d) 0

/-- The number that a text spells in some base. -/
def based? (base : Nat) (s : Text) : Option Nat := (digits? base s).map (ofDigits base)

/-- The number that a text spells in base ten. More than one digit do not start with a zero. -/
def decimal? (s : Text) : Option Nat :=
  match s with
  | '0' :: _ :: _ => none
  | _ => based? 10 s

/-- The number that a text spells: hexadecimal, octal, binary or decimal, the last with an optional
sign. Numbers are not negative and have 64 bits. -/
def number? (s : Text) : Option Nat :=
  Option.filter (· < UInt64.size) <|
    match s with
    | '0' :: 'x' :: r => based? 16 r
    | '0' :: 'o' :: r => based? 8 r
    | '0' :: 'b' :: r => based? 2 r
    | '+' :: r => decimal? r
    | '-' :: r => (decimal? r).filter (· = 0)
    | _ => decimal? s

/-! ## Quoted texts -/

/-- The character with the code that exactly `n` hexadecimal digits at the start of a text spell. -/
def codePoint? (n : Nat) (s : Text) : Option Char := do
  let code := ofDigits 16 (← (s.take n).mapM digit?)
  if n ≤ s.length ∧ code.isValidChar then return Char.ofNat code else none

/-- The character that the text after a backslash stands for, and the characters it takes. -/
def escape? : Text → Option (Char × Nat)
  | 'b' :: _ => some ('\x08', 1)
  | 't' :: _ => some ('\t', 1)
  | 'n' :: _ => some ('\n', 1)
  | 'f' :: _ => some ('\x0c', 1)
  | 'r' :: _ => some ('\r', 1)
  | 'e' :: _ => some ('\x1b', 1)
  | '"' :: _ => some ('"', 1)
  | '\\' :: _ => some ('\\', 1)
  | 'x' :: r => (codePoint? 2 r).map (·, 3)
  | 'u' :: r => (codePoint? 4 r).map (·, 5)
  | 'U' :: r => (codePoint? 8 r).map (·, 9)
  | _ => none

/-- The length of the line end, with all blanks around it, that a backslash takes away. -/
def foldedLine? (s : Text) : Option Nat :=
  (lineEnd? (s.drop (gap s))).map fun _ => spacing false s

/-- How a quoted text is written. -/
structure Quoting where
  /-- The quote on both sides. -/
  quote : Char
  /-- Whether three quotes stand on each side, and line ends may stand between. -/
  multiline : Bool
  deriving DecidableEq, Repr

namespace Quoting

/-- Whether a backslash is an escape. -/
def escapes (q : Quoting) : Bool := q.quote == '"'

/-- The quotes before the end of a text that starts with a run of `n` quotes: none on a single line;
else the last three of up to five end it. No answer if the run does not end the text. -/
def closing? (q : Quoting) (n : Nat) : Option Nat :=
  if !q.multiline then (if 1 ≤ n then some 0 else none)
  else if 3 ≤ n then some (min (n - 3) 2) else none

/-- The number of quotes at the end. -/
def width (q : Quoting) : Nat := if q.multiline then 3 else 1

end Quoting

/-- The rest of a quoted text after its opening quotes, and the length of it with the closing ones.
Line ends between the quotes stay as they are written. -/
def quotedRest? (q : Quoting) : Text → Option (Text × Nat)
  | [] => none
  | c :: r =>
    let run := ((c :: r).takeWhile (· == q.quote)).length
    match q.closing? run with
    | some n => some (List.replicate n q.quote, n + q.width)
    | none =>
      if c = '\\' ∧ q.escapes then
        match if q.multiline then foldedLine? r else none with
        | some n => (quotedRest? q (r.drop n)).map fun (t, k) => (t, k + n + 1)
        | none =>
          match escape? r with
          | some (e, n) => (quotedRest? q (r.drop n)).map fun (t, k) => (e :: t, k + n + 1)
          | none => none
      else if isAllowed c then (quotedRest? q r).map fun (t, k) => (c :: t, k + 1)
      else
        match if q.multiline then lineEnd? (c :: r) else none with
        | some n =>
          (quotedRest? q (r.drop (n - 1))).map fun (t, k) =>
            (c :: r.take (n - 1) ++ t, k + (n - 1) + 1)
        | none => none
termination_by s => s.length
decreasing_by
  all_goals simp only [List.length_drop, List.length_cons]; omega

/-- A text quoted on one line. -/
def lineText? : Text → Option (Text × Nat)
  | [] => none
  | c :: r =>
    if c = '"' ∨ c = '\'' then (quotedRest? ⟨c, false⟩ r).map fun (t, k) => (t, k + 1) else none

/-- A quoted text. A line end right after three opening quotes is not part of it. -/
def quotedText? (s : Text) : Option (Text × Nat) :=
  match s with
  | a :: b :: c :: r =>
    if a = b ∧ b = c ∧ (a = '"' ∨ a = '\'') then
      let n := (lineEnd? r).getD 0
      (quotedRest? ⟨a, true⟩ (r.drop n)).map fun (t, k) => (t, k + n + 3)
    else lineText? s
  | _ => lineText? s

/-! ## Entries -/

/-- The value of a setting. -/
inductive Value where
  | number (n : Nat)
  | texts (ts : List Text)
  deriving DecidableEq, Repr

/-- The rest of a list of texts after its opening bracket. A comma may stand after the last text. -/
def listRest? : Text → Option (List Text × Nat)
  | [] => none
  | c :: r =>
    let n := spacing true (c :: r)
    match (c :: r).drop n with
    | ']' :: _ => some ([], n + 1)
    | rest =>
      match quotedText? rest with
      | none => none
      | some (t, k) =>
        let m := n + k + spacing true (rest.drop k)
        match (c :: r).drop m with
        | ']' :: _ => some ([t], m + 1)
        | ',' :: _ => (listRest? (r.drop m)).map fun (ts, j) => (t :: ts, j + m + 1)
        | _ => none
termination_by s => s.length
decreasing_by
  simp only [List.length_drop, List.length_cons]
  omega

/-- Whether a character may stand in a number. -/
def isNumberChar (c : Char) : Bool :=
  Text.isAsciiLetter c || c.isDigit || c == '_' || c == '+' || c == '-'

/-- The value at the start of a text. -/
def value? : Text → Option (Value × Nat)
  | '[' :: r => (listRest? r).map fun (ts, k) => (.texts ts, k + 1)
  | s =>
    let written := s.takeWhile isNumberChar
    (number? written).map fun n => (.number n, written.length)

/-- Whether a character may stand in a key without quotes. -/
def isKeyChar (c : Char) : Bool := Text.isAsciiLetter c || c.isDigit || c == '_' || c == '-'

/-- The key at the start of a text. -/
def key? (s : Text) : Option (Text × Nat) :=
  let bare := s.takeWhile isKeyChar
  if bare.isEmpty then lineText? s else some (bare, bare.length)

/-- The key and the value at the start of a line, and the length of the line with its end. -/
def entry? (s : Text) : Option ((Text × Value) × Nat) := do
  let (key, n) ← key? s
  let n := n + gap (s.drop n)
  match s.drop n with
  | '=' :: r =>
    let n := n + 1 + gap r
    let (value, k) ← value? (s.drop n)
    let rest ← lineRest? (s.drop (n + k))
    return ((key, value), n + k + rest)
  | _ => none

/-- The entries of a document, in order. -/
def entries? : Text → Option (List (Text × Value))
  | [] => some []
  | c :: r =>
    if isGap c then entries? r
    else
      match lineRest? (c :: r) with
      | some n => entries? (r.drop (n - 1))
      | none =>
        match entry? (c :: r) with
        | some (entry, n) => (entries? (r.drop (n - 1))).map (entry :: ·)
        | none => none
termination_by s => s.length
decreasing_by
  all_goals simp only [List.length_drop, List.length_cons]; omega

/-! ## Styles -/

/-- A style with the setting of an entry. -/
def withEntry? (style : Style) : Text × Value → Option Style
  | (key, .number n) =>
    if key = "indent_width".toList then some { style with indentWidth := n }
    else if key = "print_width".toList then some { style with printWidth := n }
    else none
  | (key, .texts ts) =>
    if key = "void_elements".toList then some { style with voidElements := ts } else none

/-- The style that a document gives, with the usual values for settings it does not give. A byte
order mark at its start does not count. -/
def style? (source : Text) : Option Style := do
  let entries ← entries? (Text.stripFirst '\ufeff' source)
  if (entries.map Prod.fst).Nodup then entries.foldlM withEntry? {} else none

end RazorTidy.Toml
