import RazorTidy.Proofs.PlainTokens
import RazorTidy.Proofs.Reading
import RazorTidy.Proofs.Settled

/-!
# Places in written forms

What a template reads at a place of a written form: which token starts there, what goes into the gap
as text (`Place.passesOver_blanks`, `Place.passesOver_plainText`), and whether a header that stands
before the place sees a block ahead (`Written.startsBlock_eq`).

A word in front of a place hides a tag or an `@` that comes right after it. In a written form this
does not happen, because texts and headers end with a line end (`Place.follows_passText`).
-/

set_option autoImplicit false

namespace RazorTidy

/-! ## Places -/

namespace Place

variable {place : Place}

/-- Away from the characters that start markup or code, only a continuation may start. -/
theorem token?_of_ne {c : Char} (hc : c ∉ ['<', '@', '{', '}']) (r : Text) :
    place.token? (c :: r) = place.continuation? (c :: r) := by
  simp only [List.mem_cons, List.not_mem_nil, or_false, not_or] at hc
  obtain ⟨hopen, hat, hbrace, hbrace'⟩ := hc
  have hcomment : comment? (c :: r) = none := by simp [comment?, hopen, hat]
  have htag : place.tag? (c :: r) = none := by
    rw [Place.tag?]
    split
    · rfl
    · simp [RazorTidy.tag?, hopen]
  have hcode : place.code? (c :: r) = place.continuation? (c :: r) := by
    simp [code?, hat, hbrace, hbrace']
  rw [token?, hcomment, htag, hcode]
  rfl

theorem token?_of_leadingWord {c : Char} (hc : c ∉ ['<', '@', '{', '}']) {r : Text}
    (h : (place.afterBrace && isContinuationWord (Text.leadingWord (c :: r))) = false) :
    place.token? (c :: r) = none := by
  rw [token?_of_ne hc, continuation?]
  simp only [h, Bool.false_eq_true, if_false]

theorem isBlank_not_mark {c : Char} (h : Text.isBlank c = true) :
    c ∉ ['<', '@', '{', '}', '/', '"', '\''] := by
  intro hmem
  simp only [List.mem_cons, List.not_mem_nil, or_false] at hmem
  rcases hmem with rfl | rfl | rfl | rfl | rfl | rfl | rfl <;> revert h <;> decide

/-- A blank is text. -/
theorem token?_blank (place : Place) {c : Char} (h : Text.isBlank c = true) (r : Text) :
    place.token? (c :: r) = none ∧ place.textLength (c :: r) = 1 := by
  have hmarks := isBlank_not_mark h
  refine ⟨?_, ?_⟩
  · have hleading : Text.leadingWord (c :: r) = [] := by
      simp [Text.leadingWord, Text.isWordChar_eq_false_of_isBlank h]
    apply token?_of_leadingWord
    · exact fun hmem => hmarks (List.mem_append_left ['/', '"', '\''] hmem)
    · rw [hleading, show isContinuationWord [] = false by decide, Bool.and_false]
  · simp only [List.mem_cons, List.not_mem_nil, or_false, not_or] at hmarks
    obtain ⟨-, hat, -, -, hslash, hdouble, hsingle⟩ := hmarks
    have hhidden : hiddenAfter c r = 0 := by simp [hiddenAfter, isQuote, hdouble, hsingle]
    have hcomment : codeComment? (c :: r) = none := by simp [codeComment?, hslash]
    simp [textLength, hat, hhidden, hcomment]

/-- Outside of code, other characters than `@` are passed over one by one. -/
theorem textLength_of_ne {c : Char} (hc : c ≠ '@') (hmodes : Mode.inCode place.modes = false)
    (r : Text) : place.textLength (c :: r) = 1 := by
  simp [textLength, hc, hmodes]

/-- Where the line ends before a word could go on, none goes on after the blanks. -/
theorem follows_passText {blanks r : Text} {c : Char} (hblanks : Text.allBlank blanks = true)
    (hc : c ≠ '\n')
    (h : place.follows Text.isWordChar = true → endsLine (blanks ++ c :: r) = true) :
    (place.passText blanks).follows Text.isWordChar = false := by
  cases hlast : blanks.getLast? with
  | none =>
    rw [List.getLast?_eq_none_iff] at hlast
    subst hlast
    by_contra hfollows
    rw [Bool.not_eq_false] at hfollows
    have hline := h hfollows
    simp only [List.nil_append, endsLine, beq_iff_eq] at hline
    exact hc hline
  | some d =>
    -- the last character before the place is now a blank
    have hd : Text.isBlank d = true :=
      List.all_eq_true.1 hblanks d (List.mem_of_getLast? hlast)
    simp [follows, passText, hlast, Text.isWordChar_eq_false_of_isBlank hd]

theorem follows_passText_header {blanks header u : Text} (hblanks : Text.allBlank blanks = true)
    (hheader : plainHeader header = true)
    (h : place.follows Text.isWordChar = true → endsLine (blanks ++ (header ++ u)) = true) :
    (place.passText blanks).follows Text.isWordChar = false := by
  obtain ⟨word, tail, rfl, -⟩ := plainHeader_spec hheader
  exact follows_passText hblanks (by decide) h

theorem follows_isLetterOrNumeral (h : place.follows Text.isWordChar = false) :
    place.follows Text.isLetterOrNumeral = false := by
  rw [follows, Option.any_eq_false] at h ⊢
  intro c hprevious
  have hc := h c hprevious
  rw [Text.isWordChar] at hc
  exact (Bool.or_eq_false_iff.1 hc).1

end Place

/-! ## Tokens at places -/

section Tokens

variable {place : Place} {name region : Text} {attributes : AttributeMap}

-- the rules for tokens, in the order in which they are tried
attribute [local simp] Place.token? comment? Place.tag? RazorTidy.tag? Place.code?

/-- A tag is read where code does not hide it. -/
theorem Place.token?_tag {s : Text} {found : TokenKind × Nat} (hcomment : comment? s = none)
    (htag : RazorTidy.tag? s = some found)
    (hplace : (Mode.inCode place.modes && place.follows Text.isWordChar) = false) :
    place.token? s = some found := by
  rw [token?, hcomment, Place.tag?, hplace, if_neg (by decide), htag]
  rfl

theorem comment?_tagText (hname : plainName name = true) (t : Text) :
    comment? ('<' :: (name ++ t)) = none := by
  obtain ⟨c, r, rfl, -, -, hbang, -⟩ := exists_cons_of_plainName hname
  simp [hbang]

theorem token?_closed (hname : plainName name = true)
    (hregion : RegionWritten attributes.entries region)
    (hword : place.follows Text.isWordChar = false) (rest : Text) :
    place.token? (tagText name region ['/', '>'] ++ rest) =
      some (.voidTag, (tagText name region ['/', '>']).length) := by
  apply Place.token?_tag _ (tag?_closed hname hregion rest) (by rw [hword, Bool.and_false])
  rw [tagText, List.cons_append, List.append_assoc]
  exact comment?_tagText hname _

theorem token?_open (hname : plainName name = true)
    (hregion : RegionWritten attributes.entries region)
    (hword : place.follows Text.isWordChar = false) (rest : Text) :
    place.token? (tagText name region ['>'] ++ rest) =
      some (.openTag, (tagText name region ['>']).length) := by
  apply Place.token?_tag _ (tag?_open hname hregion rest) (by rw [hword, Bool.and_false])
  rw [tagText, List.cons_append, List.append_assoc]
  exact comment?_tagText hname _

theorem token?_close (hname : plainName name = true) (hmodes : Mode.inCode place.modes = false)
    (rest : Text) :
    place.token? (closingTag name ++ rest) = some (.closeTag, (closingTag name).length) := by
  apply Place.token?_tag _ (tag?_closingTag hname rest) (by rw [hmodes, Bool.false_and])
  rfl

theorem token?_header {header u : Text} (hheader : plainHeader header = true)
    (hu : stopsHeader u = true) (hword : place.follows Text.isWordChar = false) :
    place.token? (header ++ u) = some (.directive, header.length) := by
  obtain ⟨word, tail, rfl, hdirective, -⟩ := plainHeader_spec hheader
  -- an `@` with a star would start a comment, and comments come before code
  have hcomment : comment? ('@' :: (word ++ tail) ++ u) = none := by
    obtain ⟨hstart, hmarks, -⟩ := directiveWords_spec word hdirective
    cases word with
    | nil => cases hstart
    | cons c r =>
      have hc : c ≠ '*' := by
        rintro rfl
        simp at hmarks
      simp [hc]
  have htransition := transition?_header (Place.follows_isLetterOrNumeral hword) hheader hu
  rw [Place.token?, hcomment]
  simp [-List.append_assoc, htransition]

theorem token?_blockOpen (hword : place.follows Text.isWordChar = false) (rest : Text) :
    place.token? ('@' :: '{' :: rest) = some (.braceOpen, 2) := by
  have hplace := Place.follows_isLetterOrNumeral hword
  simp [Place.transition?, hplace]

theorem token?_braceOpen (place : Place) (rest : Text) :
    place.token? ('{' :: rest) = some (.braceOpen, 1) := by
  simp

theorem token?_braceClose (place : Place) (rest : Text) :
    place.token? ('}' :: rest) = some (.braceClose, 1) := by
  simp

end Tokens

/-! ## Passing over text -/

namespace Place

/-- Blanks are passed over. -/
theorem passesOver_blanks {blanks : Text} (h : Text.allBlank blanks = true) (place : Place)
    (rest : Text) : place.PassesOver blanks rest := by
  induction blanks generalizing place with
  | nil => exact passesOver_nil place rest
  | cons c r ih =>
    rw [Text.allBlank, List.all_cons, Bool.and_eq_true] at h
    obtain ⟨htoken, hlength⟩ := place.token?_blank h.1 (r ++ rest)
    exact .cons htoken hlength (ih h.2 _)

/-- Outside of code and not after a brace, characters that start no markup or code are passed
over. -/
theorem passesOver_chars {s : Text} (h : ∀ c ∈ s, c ∉ ['<', '@', '{', '}']) (place : Place)
    (hmodes : Mode.inCode place.modes = false) (hbrace : place.afterBrace = false) (rest : Text) :
    place.PassesOver s rest := by
  induction s generalizing place with
  | nil => exact passesOver_nil place rest
  | cons c r ih =>
    have hc := h c (by simp)
    have hat : c ≠ '@' := fun heq => hc (by simp [heq])
    have htoken : place.token? (c :: (r ++ rest)) = none :=
      token?_of_leadingWord hc (by rw [hbrace, Bool.false_and])
    have hnext : (place.passText [c]).afterBrace = false := by simp [passText, hbrace]
    exact .cons htoken (textLength_of_ne hat hmodes _)
      (ih (fun d hd => h d (List.mem_cons_of_mem _ hd)) _ hmodes hnext)

/-- Plain text is passed over outside of code, if the text after it does not go on with its word. -/
theorem passesOver_plainText {content : Text} (h : plainText content = true) (place : Place)
    (hmodes : Mode.inCode place.modes = false) {rest : Text}
    (hrest : rest.head?.all (fun c => !Text.isWordChar c) = true) :
    place.PassesOver content rest := by
  obtain ⟨hne, htrim, hchars, hcontinuation⟩ := (plainText_iff content).1 h
  have hplain : ∀ c ∈ content, c ∉ ['<', '@', '{', '}'] := by
    intro c hc
    simp only [List.mem_cons, List.not_mem_nil, or_false, not_or]
    exact (hchars c hc).2
  have hleading : Text.leadingWord (content ++ rest) = Text.leadingWord content :=
    Text.leadingWord_append_stop content hrest
  cases content with
  | nil => exact absurd rfl hne
  | cons c r =>
    have hblank : Text.isBlank c = false := Text.isBlank_head_of_trim htrim
    have hc := hplain c (by simp)
    have hat : c ≠ '@' := fun heq => hc (by simp [heq])
    -- only the first character may stand right after a brace, and its word is no continuation
    have htoken : place.token? (c :: (r ++ rest)) = none := by
      apply token?_of_leadingWord hc
      rw [← List.cons_append, hleading, hcontinuation, Bool.and_false]
    have hnext : (place.passText [c]).afterBrace = false := by
      simp [passText, Text.allBlank, hblank]
    exact .cons htoken (textLength_of_ne hat hmodes _)
      (passesOver_chars (fun d hd => hplain d (List.mem_cons_of_mem _ hd)) (place.passText [c])
        hmodes hnext rest)

end Place

/-! ## Looking ahead -/

section Ahead

variable {place : Place}

/-- A token other than a brace comes before any block. -/
theorem startsBlock_of_token {kind : TokenKind} {blanks s rest : Text}
    (hblanks : Text.allBlank blanks = true) (hne : s ≠ [])
    (htoken : (place.passText blanks).token? (s ++ rest) = some (kind, s.length)) :
    Template.startsBlock (Segmentation.segmentFrom place (blanks ++ (s ++ rest))).segments =
      (kind == .braceOpen) := by
  have hfirst : ∃ cut, Segmentation.segmentFrom (place.passText blanks) (s ++ rest) =
      Segmentation.consToken ⟨kind, s⟩ cut := by
    cases s with
    | nil => exact absurd rfl hne
    | cons c r =>
      rw [List.cons_append] at htoken ⊢
      rw [Segmentation.segmentFrom, htoken]
      simp only [List.length_cons, Nat.add_sub_cancel, List.take_left]
      exact ⟨_, rfl⟩
  obtain ⟨cut, hcut⟩ := hfirst
  rw [show Segmentation.segmentFrom place (blanks ++ (s ++ rest)) = _ from
    Place.passesOver_blanks hblanks place _, hcut]
  show (kind == .braceOpen && Text.allBlank (blanks ++ [])) = _
  rw [List.append_nil, hblanks, Bool.and_true]

/-- Text that is not blank comes before any block. -/
theorem startsBlock_of_text {s rest : Text} (hblank : Text.allBlank s = false)
    (hs : place.PassesOver s rest) :
    Template.startsBlock (Segmentation.segmentFrom place (s ++ rest)).segments = false := by
  rw [hs]
  rcases Segmentation.segmentFrom (place.passText s) rest with ⟨_ | ⟨first, segments⟩, tail⟩
  · rfl
  · show (first.token.kind == .braceOpen && Text.allBlank (s ++ first.gap)) = false
    rw [allBlank_append, hblank, Bool.false_and, Bool.and_false]

/-- What may come after a written form: the end of the template, of an element or of a block. -/
inductive Ends : (inBlock : Bool) → Text → Prop
  | template : Ends false []
  | element {name : Text} (rest : Text) :
    plainName name = true → Ends false (closingTag name ++ rest)
  | block (rest : Text) : Ends true ('}' :: rest)

/-- What comes after a written form does not go on with a word. -/
theorem Ends.head? {inBlock : Bool} {rest : Text} (h : Ends inBlock rest) :
    rest.head?.all (fun c => !Text.isWordChar c) = true := by
  cases h with
  | template => rfl
  | element rest _ => simp [closingTag, Text.isWordChar_eq_false_of_mark]
  | block rest => simp [Text.isWordChar_eq_false_of_mark]

theorem head?_of_endsLine {inBlock : Bool} {t rest : Text} (ht : endsLine t = true)
    (hrest : Ends inBlock rest) :
    (t ++ rest).head?.all (fun c => !Text.isWordChar c) = true := by
  cases t with
  | nil => exact hrest.head?
  | cons c r =>
    rw [endsLine, beq_iff_eq] at ht
    subst ht
    simp [Text.isWordChar_eq_false_of_mark]

/-- What comes after a written form stops a header, as the end of a line does. -/
theorem stopsHeader_of_endsLine {inBlock : Bool} {t rest : Text} (ht : endsLine t = true)
    (hrest : Ends inBlock rest) : stopsHeader (t ++ rest) = true := by
  cases t with
  | cons c r =>
    rw [endsLine, beq_iff_eq] at ht
    subst ht
    rfl
  | nil => cases hrest <;> rfl

/-- No block comes first in a written form that does not start with one. -/
theorem Written.startsBlock_eq {extra : List Text} {inBlock : Bool} {forest : List Node}
    {t rest : Text} (h : Written extra inBlock forest t) (hstart : startsWithBlock forest = false)
    (hmodes : Mode.inCode place.modes = inBlock)
    (hword : place.follows Text.isWordChar = true → endsLine t = true) (hrest : Ends inBlock rest) :
    Template.startsBlock (Segmentation.segmentFrom place (t ++ rest)).segments = false := by
  -- only the first token counts, so the form is taken apart once
  cases h with
  | @nil _ _ hblanks =>
    cases hrest with
    | template =>
      rw [show Segmentation.segmentFrom place (t ++ []) = _ from
        Place.passesOver_blanks hblanks place [], Segmentation.segmentFrom]
      rfl
    | @element name rest hname =>
      have hmodes' : Mode.inCode (place.passText t).modes = false := hmodes
      exact startsBlock_of_token hblanks (List.cons_ne_nil _ _) (token?_close hname hmodes' rest)
    | block rest =>
      exact startsBlock_of_token hblanks (List.cons_ne_nil '}' []) (token?_braceClose _ rest)
  | @text blanks content t nodes hblanks hcontent _ hend _ =>
    have hpass : place.PassesOver (blanks ++ content) (t ++ rest) := by
      apply Place.PassesOver.append (Place.passesOver_blanks hblanks place _)
      exact Place.passesOver_plainText hcontent (place.passText blanks) hmodes
        (head?_of_endsLine hend hrest)
    have hblank : Text.allBlank (blanks ++ content) = false := by
      rw [allBlank_append, allBlank_of_plainText hcontent, Bool.and_false]
    have hahead := startsBlock_of_text hblank hpass
    simpa only [List.append_assoc] using hahead
  | @closed _ blanks name region t attributes nodes hblanks hname hregion _ =>
    have hplace := Place.follows_passText hblanks (by decide) hword
    have hahead : Template.startsBlock _ = false := startsBlock_of_token hblanks
      (List.cons_ne_nil _ _) (token?_closed hname hregion hplace (t ++ rest))
    simpa [tagText] using hahead
  | @element _ blanks name region body t attributes children nodes hblanks hname hregion _ _ _ =>
    have hplace := Place.follows_passText hblanks (by decide) hword
    have hahead : Template.startsBlock _ = false := startsBlock_of_token hblanks
      (List.cons_ne_nil _ _)
      (token?_open hname hregion hplace (body ++ (closingTag name ++ (t ++ rest))))
    simpa [tagText] using hahead
  | @header _ blanks header t nodes hblanks hheader _ hend _ =>
    have hplace := Place.follows_passText_header hblanks hheader hword
    have hstop := stopsHeader_of_endsLine hend hrest
    have hahead : Template.startsBlock _ = false := startsBlock_of_token hblanks
      (plainHeader_ne_nil hheader) (token?_header hheader hstop hplace)
    simpa only [List.append_assoc] using hahead
  | block _ _ _ => cases hstart
  -- the header is seen first, whether it takes the `@` of its block or not
  | @directive _ blanks header opener body t children nodes hblanks hheader hopener _ _ =>
    obtain ⟨header', gap, hheader', hgap, hshape, -⟩ := exists_settleCode hheader hopener
    have hplace := Place.follows_passText_header hblanks hheader hword
    have hstop : stopsHeader (gap ++ '{' :: (body ++ '}' :: (t ++ rest))) = true := by
      rcases hgap with rfl | rfl <;> rfl
    have hahead : Template.startsBlock _ = false := startsBlock_of_token hblanks
      (plainHeader_ne_nil hheader') (token?_header hheader' hstop hplace)
    rw [← hshape] at hahead
    simpa using hahead

end Ahead

end RazorTidy
