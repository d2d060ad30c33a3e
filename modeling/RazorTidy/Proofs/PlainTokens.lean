import RazorTidy.Proofs.AttributeRegions
import RazorTidy.Proofs.Plain

/-!
# Tokens of written forms

How the pieces of a written form are read one by one: the attribute region of a tag
(`RegionWritten.ofRegion`), opening and closing tags (`tag?_tagText`, `element_tagText`,
`tag?_closingTag`) and the header of a directive (`transition?_header`). Each statement is
for any text after the piece.
-/

set_option autoImplicit false

namespace RazorTidy

/-! ## Attribute regions -/

section Region

variable {entries : List (Text × Text)} {region : Text}

/-- A region is empty or starts with a blank, so a name before it ends. -/
theorem RegionWritten.head_blank (h : RegionWritten entries region) :
    region.head?.all Text.isAsciiBlank = true := by
  cases h with
  | nil => rfl
  | @cons blanks name value region rest hne hblanks _ _ =>
    cases blanks with
    | nil => exact absurd rfl hne
    | cons c r =>
      rw [List.cons_append, List.head?_cons]
      exact hblanks c (by simp)

/-- The name characters of attributes are word characters of the region. -/
theorem isWordPart_of_nameChar {c : Char}
    (h : Text.isAsciiLetter c = true ∨ c.isDigit = true ∨ c = '_' ∨ c = ':' ∨ c = '.' ∨ c = '-') :
    Lexeme.isWordPart c = true := by
  obtain ⟨hblank, hmarks⟩ := ne_of_nameChar h
  have hascii : Text.isAsciiBlank c = false := by
    by_contra hascii
    rw [Bool.not_eq_false] at hascii
    rw [Text.isBlank_of_isAsciiBlank hascii] at hblank
    cases hblank
  simp only [List.mem_cons, List.not_mem_nil, or_false, not_or] at hmarks
  simp [Lexeme.isWordPart, isQuote, hascii, hmarks]

/-- A plain name is one word. -/
theorem spelt_plain {name value : Text} (h : plainAttribute (name, value) = true) :
    Spelt (name, value) ∧ Lexeme.ClosedName name := by
  obtain ⟨hname, hchars, -⟩ := (plainAttribute_iff name value).1 h
  have hparts : name.all Lexeme.isWordPart = true :=
    List.all_eq_true.2 fun c hc => isWordPart_of_nameChar (hchars c hc)
  have hself : Lexeme.lexemes name = [⟨.word, name⟩] := by
    have hword : Lexeme.lexemes (name ++ []) = _ := Lexeme.lexemes_word hname hparts rfl
    rwa [List.append_nil, Lexeme.lexemes_nil] at hword
  refine ⟨.word hself rfl (List.forall_mem_nil _), ?_⟩
  intro rest hrest
  rw [hself]
  exact Lexeme.lexemes_word hname hparts (Lexeme.head_not_isWordPart hrest)

/-- A written region spells its entries, and belongs to no name or value before it. -/
theorem RegionWritten.attributeEntries_eq (h : RegionWritten entries region) :
    attributeEntries (Lexeme.lexemes region) = entries ∧ Apart (Lexeme.lexemes region) := by
  induction h with
  | nil =>
    rw [Lexeme.lexemes_nil, attributeEntries]
    exact ⟨rfl, Or.inl rfl⟩
  | @cons blanks name value region rest hne hblanks hentry hregion ih =>
    obtain ⟨hspelt, hclosed⟩ := spelt_plain hentry
    have hquote : '"' ∉ value := fun hmem =>
      (((plainAttribute_iff name value).1 hentry).2.2 _ hmem).1 rfl
    obtain ⟨hread, hapart, -⟩ := hspelt.read_closed hclosed (Or.inl hquote) hne
      (List.all_eq_true.2 hblanks) hregion.head_blank ih.2
    rw [hread, ih.1]
    exact ⟨rfl, hapart⟩

end Region

/-- The attributes of a written region are those it was written for. -/
theorem RegionWritten.ofRegion {attributes : AttributeMap} {region : Text}
    (h : RegionWritten attributes.entries region) :
    AttributeMap.ofRegion region = attributes := by
  rw [AttributeMap.ofRegion, h.attributeEntries_eq.1, AttributeMap.ofEntries_entries]

/-! ## Tags -/

/-- The opening tag of an element with its attribute region. -/
def tagText (name region ending : Text) : Text := '<' :: (name ++ (region ++ ending))

/-- Characters that neither end a tag nor open a quoted value are passed over. -/
theorem tagRest?_plain {s : Text} (h : ∀ c ∈ s, c ≠ '>' ∧ c ≠ '<' ∧ isQuote c = false)
    (rest : Text) :
    tagRest? none (s ++ rest) = (tagRest? none rest).map (· + s.length) := by
  induction s with
  | nil => simp
  | cons c r ih =>
    obtain ⟨hend, hopen, hquote⟩ := h c (by simp)
    rw [List.cons_append, tagRest?, if_neg hend, if_neg hopen, hquote]
    simp only [Bool.false_eq_true, if_false]
    rw [ih fun d hd => h d (List.mem_cons_of_mem _ hd), Option.map_map]
    rfl

/-- A quoted value is passed over up to its quote. -/
theorem tagRest?_quoted {q : Char} {s : Text} (h : q ∉ s) (rest : Text) :
    tagRest? (some q) (s ++ q :: rest) = (tagRest? none rest).map (· + (s.length + 1)) := by
  induction s with
  | nil => simp [tagRest?]
  | cons c r ih =>
    rw [List.mem_cons, not_or] at h
    rw [List.cons_append, tagRest?, if_neg fun heq => h.1 heq.symm, ih h.2, Option.map_map]
    rfl

theorem plain_of_nameChar {c : Char}
    (h : Text.isAsciiLetter c = true ∨ c.isDigit = true ∨ c = '_' ∨ c = ':' ∨ c = '.' ∨ c = '-') :
    c ≠ '>' ∧ c ≠ '<' ∧ isQuote c = false := by
  have hmarks := (ne_of_nameChar h).2
  simp only [List.mem_cons, List.not_mem_nil, or_false, not_or] at hmarks
  simp [isQuote, hmarks]

theorem plain_of_isAsciiBlank {c : Char} (h : Text.isAsciiBlank c = true) :
    c ≠ '>' ∧ c ≠ '<' ∧ isQuote c = false := by
  simp only [Text.isAsciiBlank, Bool.or_eq_true, beq_iff_eq] at h
  rcases h with (((rfl | rfl) | rfl) | rfl) | rfl <;> decide

section Tag

variable {entries : List (Text × Text)} {region : Text}

/-- A tag does not end inside its attribute region. -/
theorem RegionWritten.tagRest?_eq (h : RegionWritten entries region) (rest : Text) :
    tagRest? none (region ++ rest) = (tagRest? none rest).map (· + region.length) := by
  induction h with
  | nil => simp
  | @cons blanks name value region entries _ hblanks hentry _ ih =>
    obtain ⟨-, hchars, hvalue⟩ := (plainAttribute_iff name value).1 hentry
    have hplain : ∀ c ∈ blanks ++ name, c ≠ '>' ∧ c ≠ '<' ∧ isQuote c = false := by
      intro c hc
      rcases List.mem_append.1 hc with hc | hc
      · exact plain_of_isAsciiBlank (hblanks c hc)
      · exact plain_of_nameChar (hchars c hc)
    rw [attributeText_of_plainAttribute hentry]
    split
    · rw [← List.append_assoc, List.append_assoc, tagRest?_plain hplain, ih, Option.map_map]
      congr 1
      funext n
      simp only [Function.comp_apply, List.length_append]
      omega
    · have hquote : '"' ∉ value := fun hmem => (hvalue _ hmem).1 rfl
      have hshape : blanks ++ (name ++ '=' :: '"' :: (value ++ ['"']) ++ region) ++ rest =
          (blanks ++ name) ++ ('=' :: '"' :: (value ++ '"' :: (region ++ rest))) := by
        simp
      have hopen : tagRest? none ('=' :: '"' :: (value ++ '"' :: (region ++ rest))) =
          (tagRest? (some '"') (value ++ '"' :: (region ++ rest))).map (· + 2) := by
        rw [tagRest?, if_neg (by decide), if_neg (by decide), if_neg (by decide), tagRest?,
          if_neg (by decide), if_neg (by decide), if_pos (by decide), Option.map_map]
        rfl
      rw [hshape, tagRest?_plain hplain, hopen, tagRest?_quoted hquote, ih]
      simp only [Option.map_map]
      congr 1
      funext n
      simp only [Function.comp_apply, List.length_append, List.length_cons, List.length_nil]
      omega

/-- An attribute region does not end with a slash. -/
theorem RegionWritten.getLast?_ne (h : RegionWritten entries region) :
    region.getLast? ≠ some '/' := by
  induction h with
  | nil => simp
  | @cons blanks name value region entries _ _ hentry _ ih =>
    obtain ⟨hne, hchars, -⟩ := (plainAttribute_iff name value).1 hentry
    -- an entry ends with a name character or with the quote of its value
    have hlast : ∃ c, (attributeText name value).getLast? = some c ∧ c ≠ '/' := by
      rw [attributeText_of_plainAttribute hentry]
      split
      · refine ⟨name.getLast hne, List.getLast?_eq_some_getLast hne, ?_⟩
        have hmarks := (ne_of_nameChar (hchars _ (List.getLast_mem hne))).2
        simp only [List.mem_cons, not_or] at hmarks
        exact hmarks.2.2.1
      · refine ⟨'"', ?_, by decide⟩
        rw [← List.cons_append, ← List.cons_append, ← List.append_assoc, List.getLast?_concat]
    obtain ⟨c, hc, hslash⟩ := hlast
    rw [List.getLast?_append, List.getLast?_append, hc]
    cases hregion : region.getLast? with
    | none => simpa using hslash
    | some d =>
      rw [hregion] at ih
      simpa using ih

variable {name : Text}

/-- A plain name starts with a letter, and its other characters are name characters. -/
theorem exists_cons_of_plainName (h : plainName name = true) :
    ∃ c r, name = c :: r ∧ Text.isAsciiLetter c = true ∧ c ≠ '/' ∧ c ≠ '!' ∧ c ≠ '<' := by
  cases name with
  | nil => cases h
  | cons c r =>
    rw [plainName, Bool.and_eq_true, Bool.and_eq_true] at h
    refine ⟨c, r, rfl, h.1.1, ?_, ?_, ?_⟩ <;>
    · rintro rfl
      exact absurd h.1.1 (by decide)

/-- What is left of a tag after the first letter of its name goes up to its end. -/
theorem tagRest?_name {c : Char} {r : Text} (hname : plainName (c :: r) = true)
    (hregion : RegionWritten entries region) (rest : Text) :
    tagRest? none (r ++ (region ++ rest)) =
      (tagRest? none rest).map (· + (r ++ region).length) := by
  have hplain : ∀ d ∈ r, d ≠ '>' ∧ d ≠ '<' ∧ isQuote d = false := fun d hd =>
    plain_of_nameChar ((plainName_spec hname).2 d (List.mem_cons_of_mem _ hd))
  rw [tagRest?_plain hplain, hregion.tagRest?_eq, Option.map_map]
  congr 1
  funext n
  simp only [Function.comp_apply, List.length_append]
  omega

/-- Name and region together do not end with a slash. -/
theorem getLast?_name_region (hname : plainName name = true)
    (hregion : RegionWritten entries region) : (name ++ region).getLast? ≠ some '/' := by
  have hlast := hregion.getLast?_ne
  obtain ⟨hne, hchars⟩ := plainName_spec hname
  rw [List.getLast?_append]
  cases hend : region.getLast? with
  | some d =>
    rw [hend] at hlast
    simpa using hlast
  | none =>
    have hmarks := (ne_of_nameChar (hchars _ (List.getLast_mem hne))).2
    simp only [List.mem_cons, not_or] at hmarks
    rw [List.getLast?_eq_some_getLast hne]
    simpa using hmarks.2.2.1

/-- A letter after the bracket makes a tag that opens an element or closes itself. -/
theorem tag?_of_letter {c : Char} (hletter : Text.isAsciiLetter c = true) (r : Text) :
    tag? ('<' :: c :: r) = (tagRest? none r).map fun n =>
      (if (r.take (n - 1)).getLast? = some '/' then .voidTag else .openTag, n + 2) := by
  have hmark : ∀ d ∈ ['/', '!'], c ≠ d := by
    rintro d hd rfl
    revert hletter
    simp only [List.mem_cons, List.not_mem_nil, or_false] at hd
    rcases hd with rfl | rfl <;> decide
  rw [tag?, if_pos hletter]
  · intro d u heq
    exact absurd heq (hmark '/' (by simp))
  · intro d u heq
    exact absurd heq (hmark '!' (by simp))

/-- An opening tag is read as one. -/
theorem tag?_open (hname : plainName name = true) (hregion : RegionWritten entries region)
    (rest : Text) :
    tag? (tagText name region ['>'] ++ rest) =
      some (.openTag, (tagText name region ['>']).length) := by
  have hlast := getLast?_name_region hname hregion
  obtain ⟨c, r, rfl, hletter, -⟩ := exists_cons_of_plainName hname
  have hshape : tagText (c :: r) region ['>'] ++ rest =
      '<' :: c :: (r ++ (region ++ '>' :: rest)) := by
    simp [tagText]
  have hrest := tagRest?_name hname hregion ('>' :: rest)
  have hinner : (r ++ (region ++ '>' :: rest)).take (r ++ region).length = r ++ region := by
    rw [← List.append_assoc, List.take_left]
  have hlast' : (r ++ region).getLast? ≠ some '/' := by
    intro heq
    apply hlast
    rw [List.cons_append, List.getLast?_cons, heq]
    rfl
  rw [hshape, tag?_of_letter hletter, hrest]
  simp only [tagRest?, if_true, Option.map_some, Nat.add_sub_cancel_left, hinner, if_neg hlast']
  simp only [tagText, List.length_cons, List.length_append, List.length_nil]
  congr 2
  omega

/-- A tag that closes itself is read as one. -/
theorem tag?_closed (hname : plainName name = true) (hregion : RegionWritten entries region)
    (rest : Text) :
    tag? (tagText name region ['/', '>'] ++ rest) =
      some (.voidTag, (tagText name region ['/', '>']).length) := by
  obtain ⟨c, r, rfl, hletter, -⟩ := exists_cons_of_plainName hname
  have hshape : tagText (c :: r) region ['/', '>'] ++ rest =
      '<' :: c :: (r ++ (region ++ '/' :: '>' :: rest)) := by
    simp [tagText]
  have hrest := tagRest?_name hname hregion ('/' :: '>' :: rest)
  have hinner : (r ++ (region ++ '/' :: '>' :: rest)).take ((r ++ region).length + 1) =
      r ++ region ++ ['/'] := by
    have hsplit : r ++ (region ++ '/' :: '>' :: rest) = (r ++ region ++ ['/']) ++ '>' :: rest := by
      simp
    have hlength : (r ++ region ++ ['/']).length = (r ++ region).length + 1 :=
      List.length_append
    rw [hsplit, ← hlength, List.take_left]
  have hend : tagRest? none ('/' :: '>' :: rest) = some 2 := by
    simp [tagRest?, isQuote]
  have hcount : 2 + (r ++ region).length - 1 = (r ++ region).length + 1 := by omega
  rw [hshape, tag?_of_letter hletter, hrest, hend]
  simp only [Option.map_some, hcount, hinner, List.getLast?_concat, if_true]
  simp only [tagText, List.length_cons, List.length_append, List.length_nil]
  congr 2
  omega

/-- A closing tag is read as one. -/
theorem tag?_closingTag (hname : plainName name = true) (rest : Text) :
    tag? (closingTag name ++ rest) = some (.closeTag, (closingTag name).length) := by
  have hregion : RegionWritten [] [] := .nil
  obtain ⟨c, r, rfl, hletter, -⟩ := exists_cons_of_plainName hname
  have hshape : closingTag (c :: r) ++ rest = '<' :: '/' :: c :: (r ++ '>' :: rest) := by
    simp [closingTag]
  have hrest := tagRest?_name hname hregion ('>' :: rest)
  rw [List.nil_append, List.append_nil] at hrest
  rw [hshape, tag?, if_pos hletter, hrest]
  simp only [tagRest?, if_true, Option.map_some, closingTag, List.length_cons, List.length_append,
    List.length_nil]
  congr 2
  omega

/-- The name of a tag ends before a text that starts with a blank, a slash or a bracket. -/
theorem takeWhile_name (hname : plainName name = true) {rest : Text}
    (hrest : rest.head?.all (fun c => Text.isBlank c || c == '/' || c == '>') = true) :
    (name ++ rest).takeWhile (fun c => !Text.isBlank c && c != '/' && c != '>') = name := by
  apply Text.takeWhile_append
  · rw [List.all_eq_true]
    intro c hc
    obtain ⟨hblank, hmarks⟩ := ne_of_nameChar ((plainName_spec hname).2 c hc)
    simp only [List.mem_cons, List.not_mem_nil, or_false, not_or] at hmarks
    simp [hblank, hmarks]
  · cases rest with
    | nil => rfl
    | cons c r =>
      simp only [List.head?_cons, Option.all_some, Bool.or_eq_true] at hrest
      rcases hrest with (hblank | hslash) | hend
      · simp [hblank]
      · simp [eq_of_beq hslash]
      · simp [eq_of_beq hend]

theorem tagName_tagText (hname : plainName name = true) (hregion : RegionWritten entries region)
    {ending : Text} (hending : ending = ['>'] ∨ ending = ['/', '>']) :
    tagName (tagText name region ending) = name := by
  have hstop : (region ++ ending).head?.all
      (fun c => Text.isBlank c || c == '/' || c == '>') = true := by
    have hblank := hregion.head_blank
    cases region with
    | nil => rcases hending with rfl | rfl <;> rfl
    | cons c r =>
      have hc : Text.isAsciiBlank c = true := by simpa using hblank
      simp [Text.isBlank_of_isAsciiBlank hc]
  have hwhole := takeWhile_name hname hstop
  obtain ⟨c, r, rfl, -, hslash, -, hopen⟩ := exists_cons_of_plainName hname
  rw [tagName, tagText]
  have hdrop : ('<' :: (c :: r ++ (region ++ ending))).dropWhile (· == '<') =
      c :: r ++ (region ++ ending) := by
    simp [hopen]
  have hstrip : Text.stripFirst '/' (c :: r ++ (region ++ ending)) =
      c :: r ++ (region ++ ending) := by
    rw [List.cons_append, Text.stripFirst, if_neg hslash]
  rw [hdrop, hstrip, hwhole]

theorem tagName_closingTag (hname : plainName name = true) : tagName (closingTag name) = name := by
  have hwhole := takeWhile_name hname (show (['>'] : Text).head?.all
    (fun c => Text.isBlank c || c == '/' || c == '>') = true from rfl)
  rw [tagName, closingTag]
  have hdrop : ('<' :: '/' :: name ++ ['>']).dropWhile (· == '<') = '/' :: (name ++ ['>']) := by
    simp
  have hstrip : Text.stripFirst '/' ('/' :: (name ++ ['>'])) = name ++ ['>'] := by
    rw [Text.stripFirst, if_pos rfl]
  rw [hdrop, hstrip, hwhole]

theorem stripLast_concat (c : Char) (s : Text) : Text.stripLast c (s ++ [c]) = s := by
  simp [Text.stripLast, Text.stripFirst]

theorem stripLast_of_ne {c : Char} {s : Text} (h : s.getLast? ≠ some c) :
    Text.stripLast c s = s := by
  have hrev : Text.stripFirst c s.reverse = s.reverse := by
    rw [← List.head?_reverse] at h
    cases hs : s.reverse with
    | nil => rfl
    | cons d r =>
      rw [hs] at h
      rw [Text.stripFirst, if_neg fun heq => h (by rw [heq]; rfl)]
  rw [Text.stripLast, hrev, List.reverse_reverse]

theorem cut?_byteLength (s t : Text) : Text.cut? (Text.byteLength s) (s ++ t) = some (s, t) := by
  induction s with
  | nil =>
    cases t <;> rfl
  | cons c r ih =>
    have hpos := c.utf8Size_pos
    obtain ⟨n, hn⟩ : ∃ n, Text.byteLength (c :: r) = n + 1 := by
      rw [Text.byteLength]
      exact ⟨c.utf8Size + Text.byteLength r - 1, by omega⟩
    have hle : c.utf8Size ≤ n + 1 := by
      rw [← hn, Text.byteLength]
      omega
    have hrest : n + 1 - c.utf8Size = Text.byteLength r := by
      rw [← hn, Text.byteLength]
      omega
    rw [hn, List.cons_append, Text.cut?, if_pos hle, hrest, ih]
    rfl

/-- The attribute region of a tag. -/
theorem attributeRegion_tagText (hname : plainName name = true)
    (hregion : RegionWritten entries region) {ending : Text}
    (hending : ending = ['>'] ∨ ending = ['/', '>']) :
    Event.attributeRegion (tagText name region ending) = region := by
  have hinner : Text.stripLast '/' (Text.stripLast '>'
      (Text.stripFirst '<' (tagText name region ending))) = name ++ region := by
    rw [tagText, Text.stripFirst, if_pos rfl]
    rcases hending with rfl | rfl
    · rw [← List.append_assoc, stripLast_concat,
        stripLast_of_ne (getLast?_name_region hname hregion)]
    · have hshape : name ++ (region ++ ['/', '>']) = ((name ++ region) ++ ['/']) ++ ['>'] := by simp
      rw [hshape, stripLast_concat, stripLast_concat]
  rw [Event.attributeRegion, tagName_tagText hname hregion hending, hinner, cut?_byteLength]

end Tag

/-- The element that a written tag starts. -/
theorem element_tagText {extra : List Text} {name region ending : Text} {attributes : AttributeMap}
    (hname : plainName name = true) (hregion : RegionWritten attributes.entries region)
    (hending : ending = ['>'] ∨ ending = ['/', '>']) (closed : Bool) :
    Event.element extra (tagText name region ending) closed =
      .markup name attributes [] (closed || isVoidWith extra name) := by
  have hdeclaration : isDeclarationName name = false := by
    obtain ⟨c, r, rfl, -, -, hbang, -⟩ := exists_cons_of_plainName hname
    simpa [isDeclarationName] using hbang
  rw [Event.element, attributeRegion_tagText hname hregion hending,
    tagName_tagText hname hregion hending, hregion.ofRegion, hdeclaration, Bool.or_false]

/-! ## Headers -/

/-- Whether a header ends before a text, but for a space in front of a brace. -/
def stopsHeader : Text → Bool
  | [] => true
  | ' ' :: '{' :: _ => true
  | c :: r => endsHeader c r

/-- The characters that a text may start with that stops a header. -/
theorem head?_of_stopsHeader {u : Text} (h : stopsHeader u = true) :
    u.head?.all (fun c => !Text.isWordChar c && c != '/') = true := by
  unfold stopsHeader at h
  split at h
  · rfl
  · simp [Text.isWordChar_eq_false_of_mark]
  · rename_i c r _
    simp only [endsHeader, Bool.or_eq_true, Bool.and_eq_true, beq_iff_eq] at h
    rw [List.head?_cons, Option.all_some]
    rcases h with ((rfl | rfl) | rfl) | ⟨rfl, -⟩ <;> simp [Text.isWordChar_eq_false_of_mark]

/-- The search for the end of a header passes over nothing of such a text but a blank. -/
theorem headerStop?_of_stopsHeader {u : Text} (h : stopsHeader u = true) :
    ∃ n, headerStop? 0 0 u = some n ∧ ∀ c ∈ u.take n, Text.isAsciiBlank c = true := by
  unfold stopsHeader at h
  split at h
  · exact ⟨0, rfl, fun c hc => absurd hc List.not_mem_nil⟩
  · refine ⟨1, ?_, ?_⟩
    · simp [headerStop?, hiddenAfter, isQuote, bracketDepth, endsHeader]
    · intro c hc
      rw [List.mem_singleton.1 hc]
      rfl
  · rename_i c r _
    refine ⟨0, ?_, fun c hc => absurd hc List.not_mem_nil⟩
    rw [headerStop?, if_pos ⟨rfl, h⟩]

theorem literalRest?_of_ne {q c : Char} (hq : c ≠ q) (hescape : c ≠ '\\') (hline : c ≠ '\n')
    (r : Text) : literalRest? q (c :: r) = (literalRest? q r).map (· + 1) := by
  rw [literalRest?, if_neg hq]
  · rintro rfl
    exact absurd rfl hescape
  · intro d u heq
    exact absurd heq hescape
  · exact hline

theorem literalRest?_close {q : Char} (hq : isQuote q = true) (r : Text) :
    literalRest? q (q :: r) = some 1 := by
  have hmarks : q = '"' ∨ q = '\'' := by simpa [isQuote] using hq
  rcases hmarks with rfl | rfl <;> simp [literalRest?]

/-- The search for the end of a header passes over a plain tail, in a literal and outside. -/
theorem headerStop?_plainTail {u : Text} (hu : stopsHeader u = true) {s : Text} :
    (∀ depth, plainTail none depth s = true →
      headerStop? 0 depth (s ++ u) = (headerStop? 0 0 u).map (· + s.length)) ∧
      ∀ q depth, isQuote q = true → plainTail (some q) depth s = true →
        ∃ n, literalRest? q (s ++ u) = some n ∧
          headerStop? n depth (s ++ u) = (headerStop? 0 0 u).map (· + s.length) := by
  induction s with
  | nil =>
    refine ⟨?_, ?_⟩
    · intro depth h
      have hdepth : depth = 0 := by simpa [plainTail] using h
      rw [hdepth, List.nil_append]
      simp
    · intro q depth _ h
      cases h
  | cons c r ih =>
    obtain ⟨ihOutside, ihInside⟩ := ih
    have hsuccessor : ((headerStop? 0 0 u).map (· + r.length)).map (· + 1) =
        (headerStop? 0 0 u).map (· + (c :: r).length) := by
      rw [Option.map_map]
      rfl
    refine ⟨?_, ?_⟩
    · intro depth h
      rw [plainTail] at h
      rw [List.cons_append, headerStop?, ← hsuccessor]
      split at h
      · -- a literal starts, and hides what it holds
        rename_i hquote
        have hmarks : c = '"' ∨ c = '\'' := by simpa [isQuote] using hquote
        obtain ⟨n, hliteral, hstop⟩ := ihInside c depth hquote h
        have hpass : endsHeader c (r ++ u) = false ∧ bracketDepth depth c = depth := by
          rcases hmarks with rfl | rfl <;> exact ⟨rfl, rfl⟩
        rw [if_neg (by simp [hpass.1]), hpass.2, hiddenAfter, if_pos hquote, hliteral,
          Option.getD_some, hstop]
      · rename_i hquote
        have hhidden : hiddenAfter c (r ++ u) = 0 := by rw [hiddenAfter, if_neg hquote]
        rw [hhidden]
        split at h
        · rename_i hat
          -- an `@` is the last character of the tail
          subst hat
          simp only [Bool.and_eq_true, beq_iff_eq, List.isEmpty_iff] at h
          obtain ⟨rfl, rfl⟩ := h
          rw [if_neg (by simp [endsHeader])]
          show ((headerStop? 0 0 u).map (· + 1)) = _
          simp
        · rw [Bool.and_eq_true, Bool.not_eq_true'] at h
          have hends : endsHeader c (r ++ u) = false := by
            cases r with
            | cons d r' => exact h.1
            | nil =>
              -- a `<` at the end of the tail must not become the start of a closing tag
              have hslash : u.head? ≠ some '/' := by
                intro heq
                have hhead := head?_of_stopsHeader hu
                rw [heq] at hhead
                simp at hhead
              simp only [endsHeader, Bool.or_eq_false_iff, Bool.and_eq_false_iff] at h ⊢
              exact ⟨h.1.1, Or.inr (beq_eq_false_iff_ne.2 hslash)⟩
          rw [if_neg (by simp [hends]), ihOutside _ h.2]
    · intro q depth hq h
      rw [plainTail] at h
      split at h
      · rename_i hc
        subst hc
        refine ⟨1, literalRest?_close hq _, ?_⟩
        rw [List.cons_append, headerStop?, ihOutside depth h, hsuccessor]
      · rename_i hc
        simp only [Bool.and_eq_true, bne_iff_ne] at h
        obtain ⟨n, hliteral, hstop⟩ := ihInside q depth hq h.2
        refine ⟨n + 1, ?_, ?_⟩
        · rw [List.cons_append, literalRest?_of_ne hc h.1.1.2 h.1.1.1, hliteral]
          rfl
        · rw [List.cons_append, headerStop?, hstop, hsuccessor]

/-- The header of a plain tail is the tail, whatever stops it. -/
theorem header_plainTail {tail u : Text} (htail : plainTail none 0 tail = true)
    (hend : Text.endsBlank tail = false) (hu : stopsHeader u = true) :
    header (tail ++ u) = tail := by
  obtain ⟨n, hstop, hblanks⟩ := headerStop?_of_stopsHeader hu
  have htake : (tail ++ u).take (n + tail.length) = tail ++ u.take n := by
    rw [Nat.add_comm, List.take_length_add_append]
  rw [header, (headerStop?_plainTail hu).1 0 htail, hstop, Option.map_some]
  simp only [htake]
  rw [Text.dropEndWhile, List.reverse_append, List.dropWhile_append_of_pos]
  · rw [Text.endsBlank] at hend
    have hdrop : tail.reverse.dropWhile Text.isAsciiBlank = tail.reverse := by
      cases htail' : tail.reverse with
      | nil => rfl
      | cons c r =>
        rw [htail', Text.startsBlank] at hend
        have hascii : Text.isAsciiBlank c = false := by
          by_contra hc
          rw [Bool.not_eq_false] at hc
          rw [Text.isBlank_of_isAsciiBlank hc] at hend
          cases hend
        rw [List.dropWhile_cons, hascii]
        rfl
    rw [hdrop, List.reverse_reverse]
  · intro c hc
    exact hblanks c (List.mem_reverse.1 hc)

/-- An `@` that does not follow a letter or numeral starts the directive of a plain header. -/
theorem transition?_header {place : Place}
    (hplace : place.follows Text.isLetterOrNumeral = false) {r u : Text}
    (hheader : plainHeader ('@' :: r) = true) (hu : stopsHeader u = true) :
    place.transition? (r ++ u) = some (.directive, r.length + 1) := by
  obtain ⟨word, tail, heq, hword, hleading, htail, hend⟩ := plainHeader_spec hheader
  obtain rfl : r = word ++ tail := (List.cons.inj heq).2
  have hleading' : Text.leadingWord (word ++ (tail ++ u)) = word := by
    rw [← List.append_assoc, Text.leadingWord_append_stop, hleading]
    have hhead := head?_of_stopsHeader hu
    rw [Option.all_eq_true] at hhead ⊢
    exact fun c hc => (Bool.and_eq_true_iff.1 (hhead c hc)).1
  have hend' : Text.endsBlank tail = false := by
    rw [Text.endsBlank, List.reverse_append] at hend
    rw [Text.endsBlank]
    cases htail' : tail.reverse with
    | nil => rfl
    | cons c s =>
      rw [htail'] at hend
      exact hend
  obtain ⟨hstart, hmarks, -⟩ := directiveWords_spec word hword
  have hhead : (word ++ (tail ++ u)).head? ≠ some '{' ∧
      Text.startsWord (word ++ (tail ++ u)) = true := by
    cases word with
    | nil => cases hstart
    | cons c s =>
      refine ⟨?_, hstart⟩
      rintro heq
      rw [List.cons_append, List.head?_cons, Option.some.injEq] at heq
      subst heq
      simp at hmarks
  have hdirective := (isDirectiveWord_iff word).2 hword
  rw [List.append_assoc, Place.transition?, hplace, if_neg (by decide), if_neg hhead.1,
    if_pos hhead.2]
  simp only [hleading', hdirective, if_true, List.drop_left, header_plainTail htail hend' hu,
    List.length_append]
  congr 2
  omega

end RazorTidy
