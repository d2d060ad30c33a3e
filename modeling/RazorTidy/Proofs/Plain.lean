import RazorTidy.Layout.Node
import RazorTidy.Proofs.Keyword
import RazorTidy.Token.Header

/-!
# Plain forests

A part of the forests that keeps its shape, or nearly so, when it is printed and read again: text on
one line, elements with plain names and attributes, headers on one line, and brace blocks of
elements, headers and blocks, with or without a header (`PlainForest`).

`Written` is the grammar of the texts that plain forests are printed as. It fixes what the nodes
look like and leaves the blanks between them open, so that neither the printer's choice of lines nor
the reader's state shows in it.
-/

set_option autoImplicit false

namespace RazorTidy

/-! ## Pieces -/

/-- Plain text: not empty, without blanks at its ends, on one line, without the
characters that start markup or code, and not starting with a continuation word. -/
def plainText (s : Text) : Bool :=
  !s.isEmpty && Text.trim s == s &&
    s.all (fun c => c != '\n' && c != '<' && c != '@' && c != '{' && c != '}') &&
    !isContinuationWord (Text.leadingWord s)

/-- Plain element names: an ASCII letter, then letters, digits and hyphens, and not
the name of an element with raw text. -/
def plainName : Text → Bool
  | [] => false
  | c :: r =>
    Text.isAsciiLetter c && r.all (fun d => Text.isAsciiLetter d || d.isDigit || d == '-') &&
      !isRawTextName (c :: r)

/-- Plain attributes: the name is a word of letters, digits and a few marks, the
value has no double quote, line end or `@`. -/
def plainAttribute (entry : Text × Text) : Bool :=
  !entry.1.isEmpty &&
    entry.1.all (fun c => Text.isAsciiLetter c || c.isDigit || c == '_' || c == ':' || c == '.' ||
      c == '-') &&
    entry.2.all (fun c => c != '"' && c != '\n' && c != '@')

/-- Whether a text is one line of a header that ends with it: its literals and brackets are closed,
where `quote` is the quote of an open literal and `depth` the number of open brackets. An `@` may
only stand at the end. -/
def plainTail : (quote : Option Char) → (depth : Nat) → Text → Bool
  | quote, depth, [] => quote.isNone && depth == 0
  | some q, depth, c :: r =>
    if c = q then plainTail none depth r
    else c != '\n' && c != '\\' && c != '@' && plainTail (some q) depth r
  | none, depth, c :: r =>
    if isQuote c then plainTail (some c) depth r
    else if c = '@' then depth == 0 && r.isEmpty
    else !endsHeader c r && plainTail none (bracketDepth depth c) r

/-- Plain headers: an `@` with a directive word, and what follows the word on the line. -/
def plainHeader : Text → Bool
  | '@' :: r =>
    isDirectiveWord (Text.leadingWord r) &&
      plainTail none 0 (r.drop (Text.leadingWord r).length) && !Text.endsBlank r
  | _ => false

/-- Whether a text ends with an `@`. -/
def endsAt (s : Text) : Bool := s.getLast? == some '@'

/-- Whether a brace block with this opener may follow a header: the opener is a brace, or a brace
with an `@` after a header that does not end with an `@` itself. -/
def plainOpener (header opener : Text) : Bool :=
  opener == ['{'] || (opener == ['@', '{'] && !endsAt header)

/-- Whether a forest starts with text. -/
def startsWithText : List Node → Bool
  | .text _ :: _ => true
  | _ => false

/-- Whether a forest starts with a brace block. -/
def startsWithBlock : List Node → Bool
  | node :: _ => node.isCode .block
  | [] => false

/-! ## Trimmed texts -/

namespace Node

mutual
/-- The node with the blanks at the ends of its texts dropped. -/
def trimTexts : Node → Node
  | .markup name attributes children selfClosing =>
    .markup name attributes (trimAll children) selfClosing
  | .code keyword children selfClosing => .code keyword (trimAll children) selfClosing
  | .text content => .text (Text.trim content)
  | .comment content => .comment content
/-- The forest with the blanks at the ends of its texts dropped. -/
def trimAll : List Node → List Node
  | [] => []
  | node :: rest => trimTexts node :: trimAll rest
end

theorem trimAll_append (as bs : List Node) : trimAll (as ++ bs) = trimAll as ++ trimAll bs := by
  induction as with
  | nil => rfl
  | cons node rest ih => rw [List.cons_append, trimAll, ih, trimAll, List.cons_append]

end Node

/-! ## Forests -/

/-- Plain forests, where the names `extra` are void and `inBlock` says that the forest stands in a
brace block, which holds no text of its own. -/
inductive PlainForest (extra : List Text) : (inBlock : Bool) → List Node → Prop
  /-- The empty forest. -/
  | nil {inBlock : Bool} : PlainForest extra inBlock []
  /-- Text, with no further text right after it. -/
  | text {content : Text} {rest : List Node} :
    plainText content = true → startsWithText rest = false → PlainForest extra false rest →
      PlainForest extra false (.text content :: rest)
  /-- An element that closes itself. -/
  | closed {inBlock : Bool} {name : Text} {attributes : AttributeMap} {rest : List Node} :
    plainName name = true → attributes.entries.all plainAttribute = true →
      PlainForest extra inBlock rest →
        PlainForest extra inBlock (.markup name attributes [] true :: rest)
  /-- An element with children; it is not void. -/
  | element {inBlock : Bool} {name : Text} {attributes : AttributeMap} {children rest : List Node} :
    plainName name = true → attributes.entries.all plainAttribute = true →
      isVoidWith extra name = false → PlainForest extra false children →
        PlainForest extra inBlock rest →
          PlainForest extra inBlock (.markup name attributes children false :: rest)
  /-- A header without a block; a block right after it would be its own. -/
  | header {inBlock : Bool} {header : Text} {rest : List Node} :
    plainHeader header = true → startsWithBlock rest = false → PlainForest extra inBlock rest →
      PlainForest extra inBlock (.code header [] true :: rest)
  /-- A brace block without a header. -/
  | block {inBlock : Bool} {children rest : List Node} :
    PlainForest extra true children → PlainForest extra inBlock rest →
      PlainForest extra inBlock (.code ['@', '{'] children false :: rest)
  /-- A header with its block. -/
  | directive {inBlock : Bool} {header opener : Text} {children rest : List Node} :
    plainHeader header = true → plainOpener header opener = true →
      PlainForest extra true children → PlainForest extra inBlock rest →
        PlainForest extra inBlock (.code header [.code opener children false] false :: rest)

/-! ## Written forms -/

/-- Whether a line ends before the text: the text is empty or starts with a line end. -/
def endsLine : Text → Bool
  | [] => true
  | c :: _ => c == '\n'

/-- The attribute regions that stand for entries: each entry after some ASCII blanks. -/
inductive RegionWritten : List (Text × Text) → Text → Prop
  | nil : RegionWritten [] []
  | cons {blanks name value region : Text} {rest : List (Text × Text)} :
    blanks ≠ [] → (∀ c ∈ blanks, Text.isAsciiBlank c = true) →
      plainAttribute (name, value) = true → RegionWritten rest region →
        RegionWritten ((name, value) :: rest) (blanks ++ (attributeText name value ++ region))

/-- The texts that a plain forest is printed as, with any blanks around its nodes. -/
inductive Written (extra : List Text) : (inBlock : Bool) → List Node → Text → Prop
  | nil {inBlock : Bool} {blanks : Text} :
    Text.allBlank blanks = true → Written extra inBlock [] blanks
  | text {blanks content t : Text} {rest : List Node} :
    Text.allBlank blanks = true → plainText content = true → startsWithText rest = false →
      endsLine t = true → Written extra false rest t →
        Written extra false (.text content :: rest) (blanks ++ (content ++ t))
  | closed {inBlock : Bool} {blanks name region t : Text} {attributes : AttributeMap}
      {rest : List Node} :
    Text.allBlank blanks = true → plainName name = true →
      RegionWritten attributes.entries region → Written extra inBlock rest t →
        Written extra inBlock (.markup name attributes [] true :: rest)
          (blanks ++ ('<' :: (name ++ (region ++ ('/' :: '>' :: t)))))
  | element {inBlock : Bool} {blanks name region body t : Text} {attributes : AttributeMap}
      {children rest : List Node} :
    Text.allBlank blanks = true → plainName name = true →
      RegionWritten attributes.entries region → isVoidWith extra name = false →
        Written extra false children body → Written extra inBlock rest t →
          Written extra inBlock (.markup name attributes children false :: rest)
            (blanks ++ ('<' :: (name ++ (region ++ ('>' :: (body ++ (closingTag name ++ t)))))))
  | header {inBlock : Bool} {blanks header t : Text} {rest : List Node} :
    Text.allBlank blanks = true → plainHeader header = true → startsWithBlock rest = false →
      endsLine t = true → Written extra inBlock rest t →
        Written extra inBlock (.code header [] true :: rest) (blanks ++ (header ++ t))
  | block {inBlock : Bool} {blanks body t : Text} {children rest : List Node} :
    Text.allBlank blanks = true → Written extra true children body →
      Written extra inBlock rest t →
        Written extra inBlock (.code ['@', '{'] children false :: rest)
          (blanks ++ ('@' :: '{' :: (body ++ ('}' :: t))))
  | directive {inBlock : Bool} {blanks header opener body t : Text} {children rest : List Node} :
    Text.allBlank blanks = true → plainHeader header = true → plainOpener header opener = true →
      Written extra true children body → Written extra inBlock rest t →
        Written extra inBlock (.code header [.code opener children false] false :: rest)
          (blanks ++ (header ++ (' ' :: (opener ++ (body ++ ('}' :: t))))))

theorem allBlank_nil : Text.allBlank [] = true := rfl

theorem allBlank_append (s t : Text) :
    Text.allBlank (s ++ t) = (Text.allBlank s && Text.allBlank t) :=
  List.all_append

/-- Blanks may be put in front of a written form. -/
theorem Written.prepend {extra : List Text} {inBlock : Bool} {forest : List Node} {blanks t : Text}
    (hblanks : Text.allBlank blanks = true) (h : Written extra inBlock forest t) :
    Written extra inBlock forest (blanks ++ t) := by
  have hall : ∀ {b : Text}, Text.allBlank b = true → Text.allBlank (blanks ++ b) = true := by
    intro b hb
    rw [allBlank_append, hblanks, hb]
    rfl
  cases h with
  | nil hb => exact .nil (hall hb)
  | text hb hcontent hrest hend h =>
    rw [← List.append_assoc]
    exact .text (hall hb) hcontent hrest hend h
  | closed hb hname hregion h =>
    rw [← List.append_assoc]
    exact .closed (hall hb) hname hregion h
  | element hb hname hregion hvoid hchildren h =>
    rw [← List.append_assoc]
    exact .element (hall hb) hname hregion hvoid hchildren h
  | header hb hheader hrest hend h =>
    rw [← List.append_assoc]
    exact .header (hall hb) hheader hrest hend h
  | block hb hchildren h =>
    rw [← List.append_assoc]
    exact .block (hall hb) hchildren h
  | directive hb hheader hopener hchildren h =>
    rw [← List.append_assoc]
    exact .directive (hall hb) hheader hopener hchildren h

theorem endsLine_append {s t : Text} (hs : endsLine s = true) (ht : endsLine t = true) :
    endsLine (s ++ t) = true := by
  cases s with
  | nil => exact ht
  | cons c r => exact hs

/-- A line end with blanks may be put after a written form. -/
theorem Written.append_blanks {extra : List Text} {inBlock : Bool} {forest : List Node}
    {blanks t : Text} (h : Written extra inBlock forest t) (hblanks : Text.allBlank blanks = true)
    (hline : endsLine blanks = true) : Written extra inBlock forest (t ++ blanks) := by
  induction h with
  | nil hb =>
    apply Written.nil
    rw [allBlank_append, hb, hblanks]
    rfl
  | text hb hcontent hrest hend _ ih =>
    rw [List.append_assoc, List.append_assoc]
    exact .text hb hcontent hrest (endsLine_append hend hline) ih
  | closed hb hname hregion _ ih =>
    have hshape := Written.closed hb hname hregion ih
    simpa only [List.append_assoc, List.cons_append] using hshape
  | element hb hname hregion hvoid hchildren _ _ ih =>
    have hshape := Written.element hb hname hregion hvoid hchildren ih
    simpa only [List.append_assoc, List.cons_append] using hshape
  | header hb hheader hrest hend _ ih =>
    rw [List.append_assoc, List.append_assoc]
    exact .header hb hheader hrest (endsLine_append hend hline) ih
  | block hb hchildren _ _ ih =>
    have hshape := Written.block hb hchildren ih
    simpa only [List.append_assoc, List.cons_append] using hshape
  | directive hb hheader hopener hchildren _ _ ih =>
    have hshape := Written.directive hb hheader hopener hchildren ih
    simpa only [List.append_assoc, List.cons_append] using hshape

/-! ## Facts about the pieces -/

namespace Text

theorem trim_eq_nil_iff (s : Text) : trim s = [] ↔ allBlank s = true := by
  constructor
  · intro h
    obtain ⟨blanks, hblanks, hs⟩ := exists_trimEnd_append (trimStart s)
    rw [show trimEnd (trimStart s) = [] from h, List.nil_append] at hs
    rw [allBlank, List.all_eq_true]
    intro c hc
    rw [← List.takeWhile_append_dropWhile (p := isBlank) (l := s)] at hc
    rcases List.mem_append.1 hc with hc | hc
    · exact List.mem_takeWhile_imp hc
    · exact hblanks c (hs ▸ hc)
  · intro h
    have hstart : trimStart s = [] := by
      rw [trimStart, List.dropWhile_eq_nil_iff]
      exact fun c hc => List.all_eq_true.1 h c hc
    rw [trim, hstart]
    rfl

theorem trimStart_append {blanks : Text} (h : allBlank blanks = true) (s : Text) :
    trimStart (blanks ++ s) = trimStart s := by
  rw [trimStart, List.dropWhile_append_of_pos]
  · rfl
  · exact fun c hc => List.all_eq_true.1 h c hc

theorem trimEnd_append {blanks : Text} (h : allBlank blanks = true) (s : Text) :
    trimEnd (s ++ blanks) = trimEnd s := by
  rw [trimEnd, dropEndWhile, List.reverse_append, List.dropWhile_append_of_pos]
  · rfl
  · intro c hc
    exact List.all_eq_true.1 h c (List.mem_reverse.1 hc)

theorem trimEnd_of_endsBlank {s : Text} (h : endsBlank s = false) : trimEnd s = s := by
  rw [endsBlank] at h
  have hdrop : s.reverse.dropWhile isBlank = s.reverse := by
    cases hs : s.reverse with
    | nil => rfl
    | cons c r =>
      rw [hs, startsBlank] at h
      rw [List.dropWhile_cons, h]
      rfl
  rw [trimEnd, dropEndWhile, hdrop, List.reverse_reverse]

/-- Blanks at the ends do not show after trimming. -/
theorem trim_append_blanks {blanks : Text} (h : allBlank blanks = true) (s : Text) :
    trim (s ++ blanks) = trim s := by
  by_cases hs : allBlank s = true
  · have hall : allBlank (s ++ blanks) = true := by
      rw [allBlank_append, hs, h]
      rfl
    rw [(trim_eq_nil_iff _).2 hall, (trim_eq_nil_iff s).2 hs]
  · have hdrop : trimStart (s ++ blanks) = trimStart s ++ blanks := by
      rw [trimStart, trimStart, List.dropWhile_append]
      split
      · rename_i hempty
        rw [List.isEmpty_iff, List.dropWhile_eq_nil_iff] at hempty
        exact absurd (List.all_eq_true.2 hempty) hs
      · rfl
    rw [trim, hdrop, trimEnd_append h, trim]

/-- A trimmed text does not start with a blank. -/
theorem isBlank_head_of_trim {c : Char} {r : Text} (h : trim (c :: r) = c :: r) :
    isBlank c = false := by
  by_contra hblank
  rw [Bool.not_eq_false] at hblank
  have hstart : trimStart (c :: r) = trimStart r := by
    simp [trimStart, hblank]
  obtain ⟨blanks, -, hend⟩ := exists_trimEnd_append (trimStart r)
  have hle : (trimStart r).length ≤ r.length := (List.dropWhile_suffix _).length_le
  -- trimming would make the text shorter
  have hlength := congrArg List.length h
  have hsplit := congrArg List.length hend
  rw [trim, hstart, List.length_cons] at hlength
  rw [List.length_append] at hsplit
  omega

theorem trim_blanks_append {blanks : Text} (h : allBlank blanks = true) (s : Text) :
    trim (blanks ++ s) = trim s := by
  rw [trim, trimStart_append h, trim]

theorem trim_trim (s : Text) : trim (trim s) = trim s := by
  obtain ⟨blanks, hblanks, hend⟩ := exists_trimEnd_append (trimStart s)
  have hstart : s = s.takeWhile isBlank ++ trimStart s :=
    (List.takeWhile_append_dropWhile (p := isBlank) (l := s)).symm
  have hfront : allBlank (s.takeWhile isBlank) = true :=
    List.all_eq_true.2 fun c hc => List.mem_takeWhile_imp hc
  have hback : allBlank blanks = true := List.all_eq_true.2 hblanks
  have hsplit : s = s.takeWhile isBlank ++ (trim s ++ blanks) := by
    conv => lhs; rw [hstart, hend]
    rfl
  conv => rhs; rw [hsplit, trim_blanks_append hfront, trim_append_blanks hback]

end Text

/-- What the test for plain text says. -/
theorem plainText_iff (s : Text) :
    plainText s = true ↔
      s ≠ [] ∧ Text.trim s = s ∧
        (∀ c ∈ s, c ≠ '\n' ∧ c ≠ '<' ∧ c ≠ '@' ∧ c ≠ '{' ∧ c ≠ '}') ∧
          isContinuationWord (Text.leadingWord s) = false := by
  simp [plainText, and_assoc]

/-- Plain text is not blank. -/
theorem allBlank_of_plainText {s : Text} (h : plainText s = true) : Text.allBlank s = false := by
  obtain ⟨hne, htrim, -, -⟩ := (plainText_iff s).1 h
  by_contra hblank
  rw [Bool.not_eq_false] at hblank
  rw [(Text.trim_eq_nil_iff s).2 hblank] at htrim
  exact hne htrim.symm

/-- What the test for plain attributes says. -/
theorem plainAttribute_iff (name value : Text) :
    plainAttribute (name, value) = true ↔
      name ≠ [] ∧
        (∀ c ∈ name, Text.isAsciiLetter c = true ∨ c.isDigit = true ∨ c = '_' ∨ c = ':' ∨ c = '.' ∨
          c = '-') ∧
          ∀ c ∈ value, c ≠ '"' ∧ c ≠ '\n' ∧ c ≠ '@' := by
  simp [plainAttribute, and_assoc, or_assoc]

/-- A plain attribute is its name, with its value in double quotes if it has one. -/
theorem attributeText_of_plainAttribute {name value : Text}
    (h : plainAttribute (name, value) = true) :
    attributeText name value =
      if value = [] then name else name ++ ('=' :: '"' :: (value ++ ['"'])) := by
  obtain ⟨-, -, hvalue⟩ := (plainAttribute_iff name value).1 h
  have hquote : value.contains '"' = false := by
    rw [Bool.eq_false_iff, Ne, List.contains_iff_mem]
    exact fun hmem => (hvalue _ hmem).1 rfl
  rw [attributeText, hquote]
  cases value with
  | nil => rfl
  | cons c r => simp

/-- The characters of a plain name are name characters, and there is one. -/
theorem plainName_spec {name : Text} (h : plainName name = true) :
    name ≠ [] ∧ ∀ c ∈ name, Text.isAsciiLetter c = true ∨ c.isDigit = true ∨ c = '_' ∨ c = ':' ∨
      c = '.' ∨ c = '-' := by
  cases name with
  | nil => cases h
  | cons c r =>
    simp only [plainName, Bool.and_eq_true, List.all_eq_true, Bool.or_eq_true, beq_iff_eq] at h
    refine ⟨List.cons_ne_nil c r, ?_⟩
    intro d hd
    rcases List.mem_cons.1 hd with rfl | hd
    · exact Or.inl h.1.1
    · rcases h.1.2 d hd with (hletter | hdigit) | hhyphen
      · exact Or.inl hletter
      · exact Or.inr (Or.inl hdigit)
      · simp [hhyphen]

theorem isRawTextName_of_plainName {name : Text} (h : plainName name = true) :
    isRawTextName name = false := by
  cases name with
  | nil => cases h
  | cons c r =>
    rw [plainName, Bool.and_eq_true, Bool.not_eq_true'] at h
    exact h.2

/-- A plain name is not that of a declaration, so its tag closes itself with a slash. -/
theorem tagEnd_of_plainName {name : Text} (h : plainName name = true) :
    tagEnd name true = ['/', '>'] := by
  cases name with
  | nil => cases h
  | cons c r =>
    have hc : isDeclarationName (c :: r) = false := by
      rw [plainName, Bool.and_eq_true, Bool.and_eq_true] at h
      simp only [isDeclarationName, List.head?_cons, Option.some_beq_some, beq_eq_false_iff_ne]
      rintro rfl
      exact absurd h.1.1 (by decide)
    rw [tagEnd, hc]
    rfl

/-- No character of a plain name is one of the given marks, line ends or blanks. -/
theorem ne_of_nameChar {c : Char}
    (h : Text.isAsciiLetter c = true ∨ c.isDigit = true ∨ c = '_' ∨ c = ':' ∨ c = '.' ∨ c = '-') :
    Text.isBlank c = false ∧ c ∉ ['<', '>', '/', '"', '\'', '=', '@', '{', '}'] := by
  -- name characters lie in one range, with a few marks in it that they are not
  have hrange : 0x2D ≤ c.toNat ∧ c.toNat ≤ 0x7A ∧ c.toNat ≠ 0x2F ∧ c.toNat ≠ 0x3C ∧
      c.toNat ≠ 0x3D ∧ c.toNat ≠ 0x3E ∧ c.toNat ≠ 0x40 := by
    rcases h with h | h | rfl | rfl | rfl | rfl
    · simp only [Text.isAsciiLetter, Bool.or_eq_true, Bool.and_eq_true, decide_eq_true_eq,
        Char.le_def, UInt32.le_iff_toNat_le] at h
      have h' : (97 ≤ c.toNat ∧ c.toNat ≤ 122) ∨ (65 ≤ c.toNat ∧ c.toNat ≤ 90) := h
      omega
    · simp only [Char.isDigit, Bool.and_eq_true, decide_eq_true_eq, ge_iff_le,
        UInt32.le_iff_toNat_le] at h
      have h' : 48 ≤ c.toNat ∧ c.toNat ≤ 57 := h
      omega
    all_goals decide
  refine ⟨?_, ?_⟩
  · by_contra hblank
    rw [Bool.not_eq_false] at hblank
    have hmem := Text.mem_of_isBlank hblank
    simp only [List.mem_cons, List.not_mem_nil, or_false] at hmem
    omega
  · intro hmem
    simp only [List.mem_cons, List.not_mem_nil, or_false] at hmem
    rcases hmem with rfl | rfl | rfl | rfl | rfl | rfl | rfl | rfl | rfl <;>
      revert hrange <;> decide

/-! ## Headers -/

theorem ne_of_isQuote {c d : Char} (hc : isQuote c = true) (hd : isQuote d = false) : c ≠ d := by
  rintro rfl
  rw [hc] at hd
  cases hd

/-- A plain tail is on one line. -/
theorem newline_not_mem_of_plainTail {quote : Option Char} (hquote : quote.all isQuote = true)
    {depth : Nat} {s : Text} (h : plainTail quote depth s = true) : '\n' ∉ s := by
  induction s generalizing quote depth with
  | nil => exact List.not_mem_nil
  | cons c r ih =>
    have htail : c ≠ '\n' ∧ '\n' ∉ r := by
      cases quote with
      | some q =>
        rw [plainTail] at h
        split at h
        · rename_i hc
          exact ⟨ne_of_isQuote (hc ▸ hquote) rfl, ih rfl h⟩
        · simp only [Bool.and_eq_true, bne_iff_ne] at h
          exact ⟨h.1.1.1, ih hquote h.2⟩
      | none =>
        rw [plainTail] at h
        split at h
        · rename_i hc
          exact ⟨ne_of_isQuote hc rfl, ih (show (some c).all isQuote = true from hc) h⟩
        · split at h
          · rename_i hat
            subst hat
            rw [Bool.and_eq_true, List.isEmpty_iff] at h
            rw [h.2]
            exact ⟨by decide, List.not_mem_nil⟩
          · rw [Bool.and_eq_true, Bool.not_eq_true'] at h
            refine ⟨?_, ih rfl h.2⟩
            rintro rfl
            exact absurd h.1 (by simp [endsHeader])
    rw [List.mem_cons, not_or]
    exact ⟨htail.1.symm, htail.2⟩

theorem directiveWords_spec : ∀ word ∈ directiveWords,
    Text.startsWord word = true ∧
      word.head?.all (fun c => c != 'c' && c != '*' && c != '{') = true ∧ '@' ∉ word := by
  decide

theorem isDirectiveWord_iff (word : Text) :
    isDirectiveWord word = true ↔ word ∈ directiveWords := by
  rw [isDirectiveWord, List.contains_iff_mem]

/-- A plain header is an `@`, a directive word and a plain tail, and does not end with a blank. -/
theorem plainHeader_spec {header : Text} (h : plainHeader header = true) :
    ∃ word tail, header = '@' :: (word ++ tail) ∧ word ∈ directiveWords ∧
      Text.leadingWord (word ++ tail) = word ∧ plainTail none 0 tail = true ∧
        Text.endsBlank (word ++ tail) = false := by
  cases header with
  | nil => cases h
  | cons c r =>
    by_cases hc : c = '@'
    · subst hc
      simp only [plainHeader, Bool.and_eq_true, Bool.not_eq_true'] at h
      obtain ⟨⟨hword, htail⟩, hend⟩ := h
      obtain ⟨tail, hr⟩ : ∃ tail, Text.leadingWord r ++ tail = r :=
        List.takeWhile_prefix Text.isWordChar
      have hdrop : (Text.leadingWord r ++ tail).drop (Text.leadingWord r).length = tail :=
        List.drop_left
      rw [hr] at hdrop
      rw [hdrop] at htail
      refine ⟨Text.leadingWord r, tail, by rw [hr], ?_, by rw [hr], htail, by rw [hr, hend]⟩
      exact (isDirectiveWord_iff _).1 hword
    · simp [plainHeader, hc] at h

/-- A plain header is trimmed, on one line, and the keyword of a directive. -/
theorem plainHeader_keyword {header : Text} (h : plainHeader header = true) :
    Text.trim header = header ∧ '\n' ∉ header ∧ CodeKind.ofKeyword header = .directive := by
  obtain ⟨word, tail, rfl, hword, hleading, htail, hend⟩ := plainHeader_spec h
  refine ⟨?_, ?_, ?_⟩
  · rw [Text.trim_cons (by decide), Text.trimEnd_of_endsBlank hend]
  · rw [List.mem_cons, List.mem_append, not_or, not_or]
    refine ⟨by decide, ?_, newline_not_mem_of_plainTail rfl htail⟩
    have hlines : ∀ w ∈ directiveWords, '\n' ∉ w := by decide
    exact hlines word hword
  · have hstarts : Text.startsWord (word ++ tail) = true := by
      have hstart := (directiveWords_spec word hword).1
      cases word with
      | nil => cases hstart
      | cons c r => exact hstart
    rw [CodeKind.ofKeyword_at hstarts, hleading, if_pos ((isDirectiveWord_iff word).2 hword)]

/-- A space and an `@` may be put after a plain tail that does not end with an `@`. -/
theorem plainTail_joined {quote : Option Char} {depth : Nat} {s : Text}
    (h : plainTail quote depth s = true) (hat : s.getLast? ≠ some '@') :
    plainTail quote depth (s ++ [' ', '@']) = true := by
  induction s generalizing quote depth with
  | nil =>
    obtain ⟨rfl, rfl⟩ : quote = none ∧ depth = 0 := by simpa [plainTail] using h
    decide
  | cons c r ih =>
    have hat' : r.getLast? ≠ some '@' := by
      intro hlast
      rw [List.getLast?_cons, hlast] at hat
      exact hat rfl
    rw [List.cons_append]
    cases quote with
    | some q =>
      rw [plainTail] at h ⊢
      split at h
      · rename_i hc
        rw [if_pos hc]
        exact ih h hat'
      · rename_i hc
        rw [Bool.and_eq_true] at h
        rw [if_neg hc, h.1, Bool.true_and]
        exact ih h.2 hat'
    | none =>
      rw [plainTail] at h ⊢
      split at h
      · rename_i hquote
        rw [if_pos hquote]
        exact ih h hat'
      · rename_i hquote
        rw [if_neg hquote]
        split at h
        · rename_i hc
          rw [Bool.and_eq_true, List.isEmpty_iff] at h
          rw [hc, h.2] at hat
          exact absurd rfl hat
        · rename_i hc
          rw [Bool.and_eq_true, Bool.not_eq_true'] at h
          -- only `<` looks at the character after it, and a space is not the slash it looks for
          have hends : endsHeader c (r ++ [' ', '@']) = false := by
            cases r with
            | cons d r' => exact h.1
            | nil => simpa [endsHeader] using h.1
          rw [if_neg hc, hends, Bool.not_false, Bool.true_and]
          exact ih h.2 hat'

/-- A plain header with a space and an `@` after it is one too. -/
theorem plainHeader_joined {header : Text} (h : plainHeader header = true)
    (hat : endsAt header = false) : plainHeader (header ++ [' ', '@']) = true := by
  obtain ⟨word, tail, rfl, hword, hleading, htail, -⟩ := plainHeader_spec h
  have hat' : tail.getLast? ≠ some '@' := by
    intro hlast
    rw [endsAt, List.getLast?_cons, List.getLast?_append, hlast] at hat
    cases hat
  have hleading' : Text.leadingWord (word ++ tail ++ [' ', '@']) = word := by
    rw [Text.leadingWord_append_stop _ (by decide), hleading]
  have hdrop : (word ++ tail ++ [' ', '@']).drop word.length = tail ++ [' ', '@'] := by
    rw [List.append_assoc, List.drop_left]
  have hend : Text.endsBlank (word ++ tail ++ [' ', '@']) = false := by
    rw [Text.endsBlank, List.reverse_append]
    rfl
  rw [List.cons_append, plainHeader, hleading', (isDirectiveWord_iff word).2 hword, hdrop,
    plainTail_joined htail hat', hend]
  rfl

theorem plainHeader_ne_nil {header : Text} (h : plainHeader header = true) : header ≠ [] := by
  rintro rfl
  cases h

theorem plainOpener_cases {header opener : Text} (h : plainOpener header opener = true) :
    opener = ['{'] ∨ (opener = ['@', '{'] ∧ endsAt header = false) := by
  simpa [plainOpener] using h

/-- The two openers of brace blocks. -/
theorem plainOpener_braces {header opener : Text} (h : plainOpener header opener = true) :
    opener = ['{'] ∨ opener = ['@', '{'] :=
  (plainOpener_cases h).imp_right And.left

/-- The texts of a plain forest are trimmed. -/
theorem PlainForest.trimAll_eq {extra : List Text} {inBlock : Bool} {forest : List Node}
    (h : PlainForest extra inBlock forest) : Node.trimAll forest = forest := by
  induction h with
  | nil => rfl
  | text hcontent _ _ ih =>
    obtain ⟨-, htrim, -, -⟩ := (plainText_iff _).1 hcontent
    rw [Node.trimAll, Node.trimTexts, htrim, ih]
  | closed _ _ _ ih => rw [Node.trimAll, Node.trimTexts, Node.trimAll, ih]
  | element _ _ _ _ _ ihc ih => rw [Node.trimAll, Node.trimTexts, ihc, ih]
  | header _ _ _ ih => rw [Node.trimAll, Node.trimTexts, Node.trimAll, ih]
  | block _ _ ihc ih => rw [Node.trimAll, Node.trimTexts, ihc, ih]
  | directive _ _ _ _ ihc ih => simp only [Node.trimAll, Node.trimTexts, ihc, ih]

end RazorTidy
