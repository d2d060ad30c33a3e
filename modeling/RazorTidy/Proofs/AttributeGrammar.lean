import Mathlib.Data.List.Induction
import RazorTidy.Proofs.AttributeRegions

/-!
# The grammar of attribute regions

An attribute is written as a name, or as a name, an equals sign and a value, with blanks allowed
around the sign; a value is written in quotes of either kind or without quotes
(`WrittenAttribute`). A region holds such attributes with blanks between them (`WrittenRegion`).
Every region that is written this way is read as it was meant (`AttributeMap.ofRegion_spell`): its
names are there in the order in which they come first, and each has the value that it is given last.

A written attribute is read in front of everything that starts with a blank and does not go on with
an equals sign (`WrittenAttribute.attributeEntries_spell`). Values without quotes may hold equals
signs and slashes, so they fall into several lexemes, which are put together again.
-/

set_option autoImplicit false

namespace RazorTidy

/-! ## Written attributes -/

/-- Some ASCII blanks, maybe none. -/
structure Blanks where
  text : Text
  blank : ∀ c ∈ text, Text.isAsciiBlank c = true

/-- At least one ASCII blank. -/
structure Separator extends Blanks where
  ne_nil : text ≠ []

/-- A value as it is written. -/
inductive WrittenValue where
  /-- In double or single quotes. -/
  | quoted (q : Char) (hquote : isQuote q = true) (value : Text) (hvalue : q ∉ value)
  /-- Without quotes. -/
  | unquoted (value : Text) (hne : value ≠ [])
    (hvalue : ∀ c ∈ value, Text.isAsciiBlank c = false ∧ isQuote c = false)

namespace WrittenValue

/-- How a value is written. -/
def spell : WrittenValue → Text
  | .quoted q _ value _ => q :: (value ++ [q])
  | .unquoted value _ _ => value

/-- The value that is meant. -/
def value : WrittenValue → Text
  | .quoted _ _ value _ => value
  | .unquoted value _ _ => value

end WrittenValue

/-- An attribute as it is written: a name, and maybe a value with the blanks in front of and behind
the equals sign. -/
structure WrittenAttribute where
  name : Text
  ne_nil : name ≠ []
  plain : ∀ c ∈ name, Text.isAsciiBlank c = false ∧ isQuote c = false ∧ c ≠ '=' ∧ c ≠ '/'
  value? : Option (Blanks × Blanks × WrittenValue)

namespace WrittenAttribute

/-- How what follows the name is written. -/
def spellRest (written : WrittenAttribute) : Text :=
  match written.value? with
  | none => []
  | some (before, after, value) => before.text ++ '=' :: (after.text ++ value.spell)

/-- How an attribute is written. -/
def spell (written : WrittenAttribute) : Text := written.name ++ written.spellRest

/-- The value of an attribute, which is empty if none is written. -/
def value (written : WrittenAttribute) : Text :=
  match written.value? with
  | none => []
  | some (_, _, value) => value.value

end WrittenAttribute

/-- Attributes in a region: a first one and others behind separators, or none at all, with blanks
around them. -/
structure WrittenRegion where
  leading : Blanks
  content? : Option (WrittenAttribute × List (Separator × WrittenAttribute))
  trailing : Blanks

namespace WrittenRegion

/-- The attributes of a region in order. -/
def attributes (region : WrittenRegion) : List WrittenAttribute :=
  match region.content? with
  | none => []
  | some (first, others) => first :: others.map Prod.snd

/-- How a region is written. -/
def spell (region : WrittenRegion) : Text :=
  region.leading.text ++
    ((match region.content? with
      | none => []
      | some (first, others) =>
        first.spell ++ others.flatMap fun other => other.1.text ++ other.2.spell) ++
      region.trailing.text)

end WrittenRegion

/-! ## Values without quotes -/

namespace Lexeme

/-- The lexemes of blanks that other characters follow. -/
def blankLexemes (s : Text) : List Lexeme := if s.isEmpty then [] else [⟨.space, s⟩]

theorem isSpace_of_mem_blankLexemes {s : Text} {l : Lexeme} (h : l ∈ blankLexemes s) :
    l.isSpace = true := by
  rw [blankLexemes] at h
  split at h
  · cases h
  · rw [List.mem_singleton.1 h]
    rfl

theorem lexemes_blanks_append (blanks : Blanks) {rest : Text}
    (hrest : rest.head?.all (fun c => !Text.isAsciiBlank c) = true) :
    lexemes (blanks.text ++ rest) = blankLexemes blanks.text ++ lexemes rest := by
  rw [blankLexemes]
  split
  · rename_i hnil
    rw [List.isEmpty_iff.1 hnil]
    rfl
  · rename_i hne
    exact lexemes_blanks (by simpa using hne) (List.all_eq_true.2 blanks.blank) hrest

/-- A lexeme of a value without quotes. -/
def isUnquoted (l : Lexeme) : Bool := !l.isSpace && l.kind != .quoted

/-- Characters that are neither blanks nor quotes fall into lexemes of which none is blank or
quoted, and which give the same text again. -/
theorem exists_lexemes_unquoted {v rest : Text}
    (hv : ∀ c ∈ v, Text.isAsciiBlank c = false ∧ isQuote c = false)
    (hrest : rest.head?.all Text.isAsciiBlank = true) :
    ∃ ls, lexemes (v ++ rest) = ls ++ lexemes rest ∧ joined ls = v ∧
      ∀ l ∈ ls, l.isUnquoted = true := by
  -- by the length of the value, since a word takes several of its characters
  induction hlength : v.length using Nat.strongRecOn generalizing v with
  | ind n ih =>
    cases v with
    | nil => exact ⟨[], rfl, rfl, fun l hl => absurd hl List.not_mem_nil⟩
    | cons c r =>
      obtain ⟨hblank, hquote⟩ := hv c List.mem_cons_self
      -- the first lexeme, and the rest of the value behind it
      obtain ⟨l, t, hshape, hreads, hl⟩ : ∃ l t, c :: r = l.text ++ t ∧
          Reads l (t ++ rest) ∧ l.isUnquoted = true := by
        by_cases hequals : c = '='
        · exact ⟨⟨.equals, ['=']⟩, r, by rw [hequals]; rfl, .equals _, rfl⟩
        by_cases hslash : c = '/'
        · exact ⟨⟨.slash, ['/']⟩, r, by rw [hslash]; rfl, .slash _, rfl⟩
        have hpart := isWordPart_iff.2 ⟨hblank, hquote, hequals, hslash⟩
        obtain ⟨run, t, rfl, -, hrun, ht⟩ := Text.exists_run isWordPart r
        refine ⟨⟨.word, c :: run⟩, t, rfl, .word (List.cons_ne_nil _ _) ?_ ?_, rfl⟩
        · rw [List.all_cons, hpart, hrun]
          rfl
        · cases t with
          | nil =>
            cases rest with
            | nil => rfl
            | cons d rest =>
              have hd : Text.isAsciiBlank d = true := by simpa using hrest
              simp [isWordPart, hd]
          | cons d t => exact ht
      have hlt : t.length < n := by
        have hpos := List.length_pos_iff.2 hreads.text_ne_nil
        have htotal := congrArg List.length hshape
        rw [List.length_append] at htotal
        omega
      rw [hshape] at hv ⊢
      obtain ⟨ls, hlexemes, hjoined, hls⟩ :=
        ih _ hlt (fun d hd => hv d (List.mem_append_right _ hd)) rfl
      refine ⟨l :: ls, ?_, ?_, List.forall_mem_cons.2 ⟨hl, hls⟩⟩
      · rw [List.append_assoc, hreads.lexemes_eq, hlexemes]
        rfl
      · rw [joined, List.flatMap_cons, ← joined, hjoined]

end Lexeme

open Lexeme

/-- The lexemes of a written value in front of a blank or the end. -/
theorem WrittenValue.exists_lexemes (written : WrittenValue) {rest : Text}
    (hrest : rest.head?.all Text.isAsciiBlank = true) :
    ∃ ls, lexemes (written.spell ++ rest) = ls ++ lexemes rest ∧ ls ≠ [] ∧
      Lexeme.value ls = written.value ∧ ∀ l ∈ ls, l.isSpace = false := by
  cases written with
  | quoted q hquote v hv =>
    refine ⟨[⟨.quoted, q :: (v ++ [q])⟩], ?_, List.cons_ne_nil _ _, ?_, ?_⟩
    · exact (Reads.quoted hquote hv rest).lexemes_eq
    · simp [Lexeme.value, value]
    · intro l hl
      rw [List.mem_singleton.1 hl]
      rfl
  | unquoted v hne hv =>
    obtain ⟨ls, hlexemes, hjoined, hls⟩ := exists_lexemes_unquoted hv hrest
    refine ⟨ls, hlexemes, ?_, ?_, ?_⟩
    · rintro rfl
      exact hne hjoined.symm
    · rw [value, ← hjoined]
      -- only a single quoted lexeme loses its quotes
      unfold Lexeme.value
      split
      · have hquoted := hls _ List.mem_cons_self
        cases hquoted
      · rfl
    · intro l hl
      have hunquoted := hls l hl
      rw [isUnquoted, Bool.and_eq_true, Bool.not_eq_true'] at hunquoted
      exact hunquoted.1

theorem WrittenValue.head?_spell (written : WrittenValue) (rest : Text) :
    (written.spell ++ rest).head?.all (fun c => !Text.isAsciiBlank c) = true := by
  cases written with
  | quoted q hquote v hv => simp [spell, marks_of_isQuote hquote]
  | unquoted v hne hv =>
    obtain ⟨c, r, rfl⟩ := List.exists_cons_of_ne_nil hne
    simp [spell, hv c List.mem_cons_self]

/-! ## Names and their values -/

/-- The value behind an equals sign with blanks around it. -/
theorem valueAfter?_equals (before after : Text) {parts rest : List Lexeme} (hne : parts ≠ [])
    (hparts : ∀ l ∈ parts, l.isSpace = false) (hrest : rest.head?.all isSpace = true) :
    valueAfter? (blankLexemes before ++
        ⟨.equals, ['=']⟩ :: (blankLexemes after ++ (parts ++ rest))) =
      some (Lexeme.value parts,
        (blankLexemes before).length + 1 + (blankLexemes after).length + parts.length) := by
  have hbefore : ∀ ls : List Lexeme,
      (blankLexemes before ++ ⟨.equals, ['=']⟩ :: ls).takeWhile (·.isSpace) =
        blankLexemes before := by
    intro ls
    rw [List.takeWhile_append_of_pos fun l hl => isSpace_of_mem_blankLexemes hl,
      List.takeWhile_cons_of_neg (by decide), List.append_nil]
  have hafter : (blankLexemes after ++ (parts ++ rest)).takeWhile (·.isSpace) =
      blankLexemes after := by
    obtain ⟨l, others, rfl⟩ := List.exists_cons_of_ne_nil hne
    rw [List.takeWhile_append_of_pos fun l hl => isSpace_of_mem_blankLexemes hl, List.cons_append,
      List.takeWhile_cons_of_neg (by simp [hparts l List.mem_cons_self]), List.append_nil]
  have hvalue : (parts ++ rest).takeWhile (!·.isSpace) = parts := by
    rw [List.takeWhile_append_of_pos fun l hl => by rw [hparts l hl]; rfl]
    cases rest with
    | nil => simp
    | cons l rest =>
      have hl : l.isSpace = true := by simpa using hrest
      rw [List.takeWhile_cons_of_neg (by simp [hl]), List.append_nil]
  rw [valueAfter?]
  simp only [hbefore, List.drop_left, hafter, hvalue]

/-- A name ends behind its word in front of a blank, an equals sign or the end. -/
theorem takeWhile_endsName {ls : List Lexeme} (h : ls.head?.all Lexeme.endsName = true) :
    ls.takeWhile (!·.endsName) = [] := by
  cases ls with
  | nil => rfl
  | cons l rest =>
    have hl : l.endsName = true := by simpa using h
    exact List.takeWhile_cons_of_neg (by simp [hl])

theorem attributeEntries_bare (name : Text) {ls : List Lexeme}
    (hends : ls.head?.all Lexeme.endsName = true) (hvalue : valueAfter? ls = none) :
    attributeEntries (⟨.word, name⟩ :: ls) = (name, []) :: attributeEntries ls := by
  rw [attributeEntries]
  simp only [takeWhile_endsName hends, List.length_nil, List.drop_zero, hvalue]
  simp [joined]

theorem attributeEntries_valued (name : Text) {ls : List Lexeme} {value : Text} {n : Nat}
    (hends : ls.head?.all Lexeme.endsName = true) (hvalue : valueAfter? ls = some (value, n)) :
    attributeEntries (⟨.word, name⟩ :: ls) = (name, value) :: attributeEntries (ls.drop n) := by
  rw [attributeEntries]
  simp only [takeWhile_endsName hends, List.length_nil, List.drop_zero, hvalue, Nat.zero_add]
  simp [joined]

/-- The first lexeme of a text that ends a name does so too. -/
theorem head?_lexemes_of_partsName {rest : Text} (h : partsName rest = true) :
    (lexemes rest).head?.all Lexeme.endsName = true := by
  cases rest with
  | nil => rw [lexemes_nil]; rfl
  | cons c r =>
    simp only [partsName, List.head?_cons, Option.all_some, Bool.or_eq_true, beq_iff_eq] at h
    rw [lexemes]
    rcases h with hblank | rfl
    · simp [extent, hblank, Lexeme.endsName]
    · simp [extent, Lexeme.endsName, Text.isAsciiBlank]

theorem head?_lexemes_of_blank {rest : Text} (h : rest.head?.all Text.isAsciiBlank = true) :
    (lexemes rest).head?.all Lexeme.isSpace = true := by
  cases rest with
  | nil => rw [lexemes_nil]; rfl
  | cons c r =>
    have hblank : Text.isAsciiBlank c = true := by simpa using h
    rw [lexemes]
    simp [extent, hblank, Lexeme.isSpace]

/-- What may stand behind an attribute: nothing, or blanks with no equals sign behind them. -/
structure EndsAttribute (rest : Text) : Prop where
  blank : rest.head?.all Text.isAsciiBlank = true
  noValue : valueAfter? (lexemes rest) = none

namespace WrittenAttribute

variable (written : WrittenAttribute) {rest : Text}

theorem partsName_spellRest (hblank : rest.head?.all Text.isAsciiBlank = true) :
    partsName (written.spellRest ++ rest) = true := by
  have hstart : ∀ {s : Text}, s.head?.all Text.isAsciiBlank = true → partsName s = true := by
    intro s hs
    cases s with
    | nil => rfl
    | cons c r =>
      have hc : Text.isAsciiBlank c = true := by simpa using hs
      simp [partsName, hc]
  rw [spellRest]
  split
  · exact hstart hblank
  · rename_i before after value _
    obtain ⟨blanks, hblanks⟩ := before
    cases blanks with
    | nil => rfl
    | cons c r => exact hstart (hblanks c List.mem_cons_self)

/-- The name of a written attribute is one word. -/
theorem lexemes_spell (hblank : rest.head?.all Text.isAsciiBlank = true) :
    lexemes (written.spell ++ rest) =
      ⟨.word, written.name⟩ :: lexemes (written.spellRest ++ rest) := by
  rw [spell, List.append_assoc]
  refine lexemes_word written.ne_nil (List.all_eq_true.2 fun c hc => ?_)
    (head_not_isWordPart (written.partsName_spellRest hblank))
  exact isWordPart_iff.2 (written.plain c hc)

/-- A written attribute is read as it was meant. -/
theorem attributeEntries_spell (hrest : EndsAttribute rest) :
    attributeEntries (lexemes (written.spell ++ rest)) =
      (written.name, written.value) :: attributeEntries (lexemes rest) := by
  have hends := head?_lexemes_of_partsName (written.partsName_spellRest hrest.blank)
  rw [written.lexemes_spell hrest.blank]
  rw [spellRest] at hends ⊢
  rw [value]
  cases hvalue : written.value? with
  | none =>
    rw [hvalue, List.nil_append] at hends
    rw [List.nil_append, attributeEntries_bare _ hends hrest.noValue]
  | some given =>
    obtain ⟨before, after, given⟩ := given
    obtain ⟨parts, hparts, hne, hvalueParts, hspaces⟩ := given.exists_lexemes hrest.blank
    have htail : lexemes ((before.text ++ '=' :: (after.text ++ given.spell)) ++ rest) =
        blankLexemes before.text ++ ⟨.equals, ['=']⟩ ::
          (blankLexemes after.text ++ (parts ++ lexemes rest)) := by
      rw [List.append_assoc, List.cons_append, List.append_assoc, lexemes_blanks_append before rfl,
        lexemes_equals, lexemes_blanks_append after (given.head?_spell rest), hparts]
    rw [hvalue] at hends
    dsimp only at hends ⊢
    rw [htail] at hends ⊢
    rw [attributeEntries_valued _ hends (valueAfter?_equals before.text after.text hne hspaces
      (head?_lexemes_of_blank hrest.blank)), hvalueParts]
    congr 2
    -- the value ends where its lexemes do
    have hsplit : blankLexemes before.text ++ ⟨.equals, ['=']⟩ ::
        (blankLexemes after.text ++ (parts ++ lexemes rest)) =
          (blankLexemes before.text ++ ⟨.equals, ['=']⟩ :: (blankLexemes after.text ++ parts)) ++
            lexemes rest := by
      simp
    rw [hsplit]
    apply List.drop_left'
    simp only [List.length_append, List.length_cons]
    omega

end WrittenAttribute

/-! ## Regions -/

/-- Blanks spell nothing. -/
theorem attributeEntries_blanks (blanks : Blanks) {rest : Text}
    (hrest : rest.head?.all (fun c => !Text.isAsciiBlank c) = true) :
    attributeEntries (lexemes (blanks.text ++ rest)) = attributeEntries (lexemes rest) := by
  rw [lexemes_blanks_append blanks hrest, blankLexemes]
  split
  · rfl
  · rw [List.singleton_append, attributeEntries]

/-- Blanks at the end of a region end an attribute. -/
theorem endsAttribute_blanks (blanks : Blanks) : EndsAttribute blanks.text where
  blank := by
    obtain ⟨s, hs⟩ := blanks
    cases s with
    | nil => rfl
    | cons c r => exact hs c List.mem_cons_self
  noValue := by
    have hlexemes := @lexemes_blanks_append blanks [] rfl
    rw [List.append_nil, lexemes_nil, List.append_nil] at hlexemes
    rw [hlexemes, blankLexemes]
    split <;> rfl

theorem WrittenAttribute.head?_spell (written : WrittenAttribute) (rest : Text) :
    (written.spell ++ rest).head?.all (fun c => !Text.isAsciiBlank c) = true := by
  obtain ⟨c, r, hname⟩ := List.exists_cons_of_ne_nil written.ne_nil
  have hc := written.plain c (hname ▸ List.mem_cons_self)
  simp [WrittenAttribute.spell, hname, hc]

/-- Blanks in front of another attribute end the one before them. -/
theorem endsAttribute_separator (separator : Separator) (next : WrittenAttribute) {rest : Text}
    (hblank : rest.head?.all Text.isAsciiBlank = true) :
    EndsAttribute (separator.text ++ (next.spell ++ rest)) where
  blank := by
    obtain ⟨c, r, hs⟩ := List.exists_cons_of_ne_nil separator.ne_nil
    have hc := separator.blank c (hs ▸ List.mem_cons_self)
    simp [hs, hc]
  noValue := by
    rw [lexemes_blanks separator.ne_nil (List.all_eq_true.2 separator.blank)
      (next.head?_spell rest), next.lexemes_spell hblank]
    simp [valueAfter?, Lexeme.isSpace]

/-- Attributes behind separators are read one after the other. -/
theorem attributeEntries_others (others : List (Separator × WrittenAttribute))
    (trailing : Blanks) :
    let rest := (others.flatMap fun other => other.1.text ++ other.2.spell) ++ trailing.text
    EndsAttribute rest ∧
      attributeEntries (lexemes rest) =
        others.map fun other => (other.2.name, other.2.value) := by
  induction others with
  | nil =>
    refine ⟨endsAttribute_blanks trailing, ?_⟩
    have hnone := @attributeEntries_blanks trailing [] rfl
    rw [List.append_nil, lexemes_nil, attributeEntries] at hnone
    exact hnone
  | cons other others ih =>
    obtain ⟨separator, next⟩ := other
    obtain ⟨hends, hread⟩ := ih
    simp only [List.flatMap_cons, List.append_assoc, List.map_cons]
    refine ⟨endsAttribute_separator separator next hends.blank, ?_⟩
    rw [attributeEntries_blanks separator.toBlanks (next.head?_spell _),
      next.attributeEntries_spell hends, hread]

theorem WrittenRegion.attributeEntries_spell (region : WrittenRegion) :
    attributeEntries (lexemes region.spell) =
      region.attributes.map fun written => (written.name, written.value) := by
  obtain ⟨leading, content?, trailing⟩ := region
  cases content? with
  | none =>
    -- nothing but blanks
    have hblanks : ∀ c ∈ leading.text ++ trailing.text, Text.isAsciiBlank c = true := by
      intro c hc
      exact (List.mem_append.1 hc).elim (leading.blank c) (trailing.blank c)
    have hnone := @attributeEntries_blanks ⟨leading.text ++ trailing.text, hblanks⟩ [] rfl
    rw [List.append_nil, lexemes_nil, attributeEntries] at hnone
    exact hnone
  | some content =>
    obtain ⟨first, others⟩ := content
    obtain ⟨hends, hread⟩ := attributeEntries_others others trailing
    simp only [spell, attributes, List.append_assoc, List.map_cons, List.map_map]
    rw [attributeEntries_blanks leading (first.head?_spell _), first.attributeEntries_spell hends,
      hread]
    rfl

/-! ## Maps of entries -/

namespace AttributeMap

theorem ofEntries_concat (entries : List (Text × Text)) (entry : Text × Text) :
    ofEntries (entries ++ [entry]) = (ofEntries entries).insert entry.1 entry.2 := by
  rw [ofEntries, List.foldl_append]
  rfl

/-- The names of a map are those of the entries, in the order in which they come first. -/
theorem names_ofEntries (entries : List (Text × Text)) :
    (ofEntries entries).entries.map Prod.fst = (entries.map Prod.fst).eraseDups := by
  induction entries using List.reverseRecOn with
  | nil => rfl
  | append_singleton entries entry ih =>
    have hinsert : (ofEntries (entries ++ [entry])).entries =
        insertEntry entry.1 entry.2 (ofEntries entries).entries := by
      rw [ofEntries_concat]
      rfl
    rw [hinsert, names_insertEntry, ih, List.map_append, List.map_singleton, List.eraseDups_append]
    split
    · rename_i hknown
      rw [List.mem_eraseDups] at hknown
      simp [List.removeAll, List.mem_map.1 hknown]
    · rename_i hnew
      rw [List.mem_eraseDups] at hnew
      simp [List.removeAll, List.eraseDups_cons, hnew]

theorem lookup_insertEntry (name value key : Text) (entries : List (Text × Text)) :
    (insertEntry name value entries).lookup key =
      if key = name then some value else entries.lookup key := by
  induction entries with
  | nil => by_cases h : key = name <;> simp [insertEntry, h]
  | cons entry rest ih =>
    obtain ⟨n, v⟩ := entry
    rw [insertEntry]
    by_cases hkey : key = n
    · subst hkey
      by_cases hn : key = name <;> simp [hn]
    · have hkey' : (key == n) = false := beq_eq_false_iff_ne.2 hkey
      by_cases hn : n = name
      · rw [if_pos hn, if_neg (hn ▸ hkey), List.lookup_cons, List.lookup_cons, hkey']
      · rw [if_neg hn, List.lookup_cons, List.lookup_cons, hkey', ih]

/-- The value of a name is the one that it is given last. -/
theorem get?_ofEntries (entries : List (Text × Text)) (name : Text) :
    (ofEntries entries).get? name =
      (entries.filter (·.1 == name)).getLast?.map Prod.snd := by
  induction entries using List.reverseRecOn with
  | nil => rfl
  | append_singleton entries entry ih =>
    have hinsert : (ofEntries (entries ++ [entry])).get? name =
        (insertEntry entry.1 entry.2 (ofEntries entries).entries).lookup name := by
      rw [ofEntries_concat]
      rfl
    rw [hinsert, lookup_insertEntry, List.filter_append]
    split
    · rename_i hname
      simp [hname]
    · rename_i hname
      rw [← get?, ih]
      simp [Ne.symm hname]

/-- An attribute region that is written by the rules is read as it was meant: the names come in the
order in which they are written first, and each has the value that it is given last. -/
theorem ofRegion_spell (region : WrittenRegion) :
    (ofRegion region.spell).entries.map Prod.fst =
        (region.attributes.map WrittenAttribute.name).eraseDups ∧
      ∀ name, (ofRegion region.spell).get? name =
        (region.attributes.filter (·.name == name)).getLast?.map WrittenAttribute.value := by
  rw [ofRegion, region.attributeEntries_spell]
  constructor
  · rw [names_ofEntries, List.map_map]
    rfl
  · intro name
    rw [get?_ofEntries, List.filter_map, List.getLast?_map, Option.map_map]
    rfl

-- blanks around an equals sign, a value with slashes and equals signs, and a name that comes twice
example : (ofRegion " a = 'x>y' b c=d/=e\n a=\"\" ".toList).entries =
    [("a".toList, []), ("b".toList, []), ("c".toList, "d/=e".toList)] := by
  decide +kernel

end AttributeMap

end RazorTidy
