import RazorTidy.Doc.Render
import RazorTidy.Proofs.AttributeRegions

/-!
# Printed attributes

The attributes of a region survive printing: written one after the other, each behind a blank, they
are read as the attributes that they were (`AttributeMap.ofRegion_printed`).

A lexeme is read in front of every text that does not carry it on, so the name of an attribute
falls into the same lexemes in front of a blank, an equals sign or the end as it did in its region
(`Lexeme.lexemes_append`). The one exception is a name with a quote that is never closed: it
swallows whatever follows. In a region such a name is the last one and has no value, in the map it
is the last one too (`RegionOrder.ofEntries`), and nothing is printed behind it.
-/

set_option autoImplicit false

namespace RazorTidy

/-! ## Lexemes in new surroundings -/

namespace Lexeme

/-- The lexemes behind some lexemes of a text are those of a text. -/
theorem exists_lexemes_eq {s : Text} {front back : List Lexeme} (h : lexemes s = front ++ back) :
    ∃ t, lexemes t = back := by
  induction front generalizing s with
  | nil => exact ⟨s, h⟩
  | cons l front ih =>
    obtain ⟨rest, -, -, hrest⟩ := exists_reads h
    exact ih hrest

/-- Lexemes without blanks that are not at the end of a text are the same in front of everything
that ends a name. -/
theorem lexemes_append {s : Text} {front back : List Lexeme} (h : lexemes s = front ++ back)
    (hback : back ≠ []) (hfront : ∀ l ∈ front, l.isSpace = false) {rest : Text}
    (hrest : partsName rest = true) : lexemes (joined front ++ rest) = front ++ lexemes rest := by
  induction front generalizing s with
  | nil => rfl
  | cons l front ih =>
    obtain ⟨after, rfl, hreads, hafter⟩ := exists_reads h
    have htail := ih hafter fun m hm => hfront m (List.mem_cons_of_mem _ hm)
    -- the first lexeme sees the same character behind it, or one that ends a name
    have hstop : after.head?.all (fun c => !isWordPart c) = true →
        (joined front ++ rest).head?.all (fun c => !isWordPart c) = true := by
      intro hhead
      cases front with
      | nil => exact head_not_isWordPart hrest
      | cons m front =>
        obtain ⟨after', rfl, hreads', -⟩ := exists_reads hafter
        obtain ⟨c, r, hm⟩ := List.exists_cons_of_ne_nil hreads'.text_ne_nil
        rw [hm] at hhead
        rw [joined, List.flatMap_cons, hm]
        exact hhead
    have hmoved : Reads l (joined front ++ rest) := by
      cases hreads with
      | space => cases hfront _ List.mem_cons_self
      | equals => exact .equals _
      | slash => exact .slash _
      | quoted hq hv => exact .quoted hq hv _
      | word hne hs hhead => exact .word hne hs (hstop hhead)
      | unclosed =>
        -- a quote that is never closed takes everything, but there are lexemes behind it
        rw [lexemes_nil] at hafter
        exact absurd (List.append_eq_nil_iff.1 hafter.symm).2 hback
    rw [joined, List.flatMap_cons, List.append_assoc]
    exact hmoved.lexemes_eq.trans (congrArg _ htail)

theorem closedName_joined {s : Text} {front back : List Lexeme} (h : lexemes s = front ++ back)
    (hback : back ≠ []) (hfront : ∀ l ∈ front, l.isSpace = false) :
    lexemes (joined front) = front ∧ ClosedName (joined front) := by
  have hself : lexemes (joined front) = front := by
    have happend : lexemes (joined front ++ []) = front ++ lexemes [] :=
      lexemes_append h hback hfront rfl
    rwa [lexemes_nil, List.append_nil, List.append_nil] at happend
  refine ⟨hself, ?_⟩
  intro rest hrest
  rw [hself, lexemes_append h hback hfront hrest]

end Lexeme

/-! ## The order of a region -/

open Lexeme

/-- Entries in the order of a region: behind a name that is not closed there is nothing, not even a
value. -/
inductive RegionOrder : List (Text × Text) → Prop
  | nil : RegionOrder []
  | last {name : Text} (h : Spelt (name, [])) : RegionOrder [(name, [])]
  | cons {entry : Text × Text} {rest : List (Text × Text)} (h : Spelt entry)
      (hclosed : ClosedName entry.1) (hrest : RegionOrder rest) : RegionOrder (entry :: rest)

/-- A quoted text where a name is due. -/
theorem spelt_quoted {l : Lexeme} {rest : Text} (h : Reads l rest) (hl : l.kind = .quoted) :
    Spelt (l.text, []) ∧ ClosedName l.text := by
  cases h with
  | @quoted q v hq hv =>
    have hself : lexemes (q :: (v ++ [q])) = [⟨.quoted, q :: (v ++ [q])⟩] := by
      have hreads := (Reads.quoted hq hv []).lexemes_eq
      rwa [List.append_nil, lexemes_nil] at hreads
    refine ⟨.quoted hself, ?_⟩
    intro after _
    rw [hself]
    exact (Reads.quoted hq hv after).lexemes_eq
  | _ => cases hl

/-- The name that starts with a word, and how it is closed: something stands behind it. -/
theorem spelt_word {s : Text} {l : Lexeme} {rest : List Lexeme} (h : lexemes s = l :: rest)
    (hl : l.kind = .word) {more back : List Lexeme} (hmore : more = rest.takeWhile (!·.endsName))
    (hback : back = rest.drop more.length) :
    (∀ value, Spelt (joined (l :: more), value)) ∧
      (back ≠ [] → ClosedName (joined (l :: more))) := by
  have hsplit : rest = more ++ back := by
    have hprefix : more <+: rest := hmore ▸ List.takeWhile_prefix _
    rw [hback]
    exact (List.prefix_iff_eq_append.1 hprefix).symm
  have hends : ∀ m ∈ more, m.endsName = false := by
    intro m hm
    rw [hmore] at hm
    simpa using List.mem_takeWhile_imp hm
  have hspaces : ∀ m ∈ l :: more, m.isSpace = false := by
    intro m hm
    rcases List.mem_cons.1 hm with rfl | hm
    · rw [isSpace, hl]
      rfl
    · have hm := hends m hm
      rw [endsName, Bool.or_eq_false_iff] at hm
      exact hm.1
  rw [hsplit, ← List.cons_append] at h
  by_cases hnil : back = []
  · -- nothing stands behind the name, so the text ends with it
    have hs : joined (l :: more) = s := by
      rw [← text_lexemes s, h, hnil, List.append_nil, joined]
    rw [hnil, List.append_nil] at h
    exact ⟨fun value => .word (hs ▸ h) hl hends, fun hne => absurd hnil hne⟩
  · obtain ⟨hself, hclosed⟩ := closedName_joined h hnil hspaces
    exact ⟨fun value => .word hself hl hends, fun _ => hclosed⟩

/-- The lexemes of a region spell entries in the order of a region. -/
theorem regionOrder_attributeEntries {ls : List Lexeme} (h : ∃ s, lexemes s = ls) :
    RegionOrder (attributeEntries ls) := by
  have htail : ∀ {l : Lexeme} {rest : List Lexeme} (n : Nat), (∃ s, lexemes s = l :: rest) →
      ∃ s, lexemes s = rest.drop n := by
    rintro l rest n ⟨s, hs⟩
    rw [← List.take_append_drop n rest, ← List.cons_append] at hs
    exact exists_lexemes_eq hs
  fun_induction attributeEntries ls with
  | case1 => exact .nil
  | case2 l rest hkind ih => exact ih (htail 0 h)
  | case3 l rest hkind ih => exact ih (htail 0 h)
  | case4 l rest hkind ih => exact ih (htail 0 h)
  | case5 l rest hkind ih =>
    obtain ⟨s, hs⟩ := h
    obtain ⟨after, -, hreads, -⟩ := exists_reads hs
    obtain ⟨hspelt, hclosed⟩ := spelt_quoted hreads hkind
    exact .cons hspelt hclosed (ih (htail 0 ⟨s, hs⟩))
  | case6 l rest hkind more name value n hvalue ih =>
    obtain ⟨s, hs⟩ := h
    obtain ⟨hspelt, hclosed⟩ := spelt_word hs hkind rfl rfl
    refine .cons (hspelt value) (hclosed ?_) (ih (htail _ ⟨s, hs⟩))
    -- a value is read from something
    intro hnil
    rw [hnil] at hvalue
    cases hvalue
  | case7 l rest hkind more name hvalue ih =>
    obtain ⟨s, hs⟩ := h
    obtain ⟨hspelt, hclosed⟩ := spelt_word hs hkind rfl rfl
    by_cases hnil : rest.drop more.length = []
    · rw [hnil, attributeEntries]
      exact .last (hspelt [])
    · exact .cons (hspelt []) (hclosed hnil) (ih (htail _ ⟨s, hs⟩))

theorem RegionOrder.append {front tail : List (Text × Text)}
    (hfront : ∀ entry ∈ front, Spelt entry ∧ ClosedName entry.1) (htail : RegionOrder tail) :
    RegionOrder (front ++ tail) := by
  induction front with
  | nil => exact htail
  | cons entry rest ih =>
    obtain ⟨hspelt, hclosed⟩ := hfront entry List.mem_cons_self
    exact .cons hspelt hclosed (ih fun e he => hfront e (List.mem_cons_of_mem _ he))

/-- Inserting the entries of a region one after the other keeps them in the order of a region: a
name that is not closed is new when it comes, since the names before it are closed. -/
theorem RegionOrder.ofEntries {entries : List (Text × Text)} (h : RegionOrder entries) :
    RegionOrder (AttributeMap.ofEntries entries).entries := by
  have hinsert : ∀ {map : AttributeMap} {entry : Text × Text},
      (∀ e ∈ map.entries, Spelt e ∧ ClosedName e.1) → Spelt entry → ClosedName entry.1 →
      ∀ e ∈ (map.insert entry.1 entry.2).entries, Spelt e ∧ ClosedName e.1 := by
    intro map entry hmap hspelt hclosed e he
    rcases AttributeMap.mem_insertEntry he with rfl | he
    · exact ⟨hspelt, hclosed⟩
    · exact hmap e he
  -- along the insertions, every name that is already there is closed
  have hfold : ∀ map : AttributeMap, (∀ e ∈ map.entries, Spelt e ∧ ClosedName e.1) →
      RegionOrder (entries.foldl (fun map entry => map.insert entry.1 entry.2) map).entries := by
    induction h with
    | nil =>
      intro map hmap
      have horder := RegionOrder.append hmap .nil
      rwa [List.append_nil] at horder
    | @last name hspelt =>
      intro map hmap
      by_cases hclosed : ClosedName name
      · have horder := RegionOrder.append (hinsert hmap hspelt hclosed) .nil
        rwa [List.append_nil] at horder
      · have hnew : name ∉ map.entries.map Prod.fst := by
          intro hmem
          obtain ⟨e, he, rfl⟩ := List.mem_map.1 hmem
          exact hclosed (hmap e he).2
        show RegionOrder (insertEntry name [] map.entries)
        rw [AttributeMap.insertEntry_of_not_mem hnew]
        exact RegionOrder.append hmap (.last hspelt)
    | cons hspelt hclosed _ ih =>
      intro map hmap
      exact ih _ (hinsert hmap hspelt hclosed)
  apply hfold AttributeMap.empty
  intro e he
  cases he

theorem AttributeMap.regionOrder_ofRegion (region : Text) :
    RegionOrder (ofRegion region).entries :=
  (regionOrder_attributeEntries ⟨region, rfl⟩).ofEntries

/-! ## Printed regions -/

/-- An attribute of one line is printed as it is written. -/
theorem render_attributeDoc (printWidth : Nat) {name value : Text} (hname : '\n' ∉ name)
    (hvalue : '\n' ∉ value) :
    (attributeDoc name value).render printWidth = attributeText name value := by
  have hline : (attributeText name value).contains '\n' = false := by
    rw [List.contains_eq_mem, decide_eq_false_iff_not, attributeText]
    split
    · exact hname
    · split <;> simp [hname, hvalue]
  rw [attributeDoc, hline, Doc.ofText]
  cases htext : (attributeText name value).isEmpty with
  | true => rw [List.isEmpty_iff.1 htext]; rfl
  | false =>
    show (Page.put (attributeText name value) {}).text = _
    simp [Page.put, Page.text]

/-- Entries in the order of a region, written one after the other, are read back. -/
theorem RegionOrder.attributeEntries_eq {entries : List (Text × Text)} (h : RegionOrder entries)
    (hquotes : ∀ entry ∈ entries, '"' ∉ entry.2 ∨ '\'' ∉ entry.2) {blanks : List Text}
    (hlength : blanks.length = entries.length)
    (hblanks : ∀ s ∈ blanks, s ≠ [] ∧ s.all Text.isAsciiBlank = true) {region : Text}
    (hregion : region =
      (List.zipWith (· ++ ·) blanks (entries.map fun e => attributeText e.1 e.2)).flatten) :
    attributeEntries (lexemes region) = entries ∧ Apart (lexemes region) ∧
      region.head?.all Text.isAsciiBlank = true := by
  induction h generalizing blanks region with
  | nil =>
    rw [List.map_nil, List.zipWith_nil_right, List.flatten_nil] at hregion
    rw [hregion, lexemes_nil, attributeEntries]
    exact ⟨rfl, Or.inl rfl, rfl⟩
  | @last name hspelt =>
    obtain ⟨s, rfl⟩ := List.length_eq_one_iff.1 hlength
    obtain ⟨hne, hs⟩ := hblanks s List.mem_cons_self
    -- nothing follows, so the name may be one that is not closed
    have hname : lexemes (attributeText name [] ++ []) =
        lexemes name ++ (valueLexemes [] ++ lexemes []) := by
      rw [attributeText_eq_append, show valueLexemes [] = [] from rfl, lexemes_nil]
      simp [joined]
    obtain ⟨hread, hapart⟩ := hspelt.read_printed hne hs hname (lexemes_nil ▸ Or.inl rfl)
    rw [lexemes_nil, attributeEntries] at hread
    have hshape : region = s ++ (attributeText name [] ++ []) := by simpa using hregion
    rw [hshape]
    exact ⟨hread, hapart⟩
  | @cons entry rest hspelt hclosed _ ih =>
    obtain ⟨s, blanks, rfl⟩ := List.exists_cons_of_length_eq_add_one hlength
    obtain ⟨hne, hs⟩ := hblanks s List.mem_cons_self
    rw [List.map_cons, List.zipWith_cons_cons, List.flatten_cons, List.append_assoc] at hregion
    obtain ⟨hread, hapart, hblank⟩ := ih (fun e he => hquotes e (List.mem_cons_of_mem _ he))
      (Nat.succ.inj hlength) (fun t ht => hblanks t (List.mem_cons_of_mem _ ht)) rfl
    obtain ⟨hread', hapart'⟩ := hspelt.read_closed hclosed (hquotes entry List.mem_cons_self) hne hs
      hblank hapart
    rw [hread] at hread'
    rw [hregion]
    exact ⟨hread', hapart'⟩

/-- The attributes of a region survive printing. If none of them holds a line break and no value
holds both quotes, then the printed attributes, each behind some ASCII blanks, are a region with the
same attributes in the same order. -/
theorem AttributeMap.ofRegion_printed (printWidth : Nat) (region : Text)
    (hlines : ∀ entry ∈ (ofRegion region).entries, '\n' ∉ entry.1 ∧ '\n' ∉ entry.2)
    (hquotes : ∀ entry ∈ (ofRegion region).entries, ¬('\'' ∈ entry.2 ∧ '"' ∈ entry.2))
    (blanks : List Text) (hlength : blanks.length = (ofRegion region).entries.length)
    (hblanks : ∀ s ∈ blanks, s ≠ [] ∧ ∀ c ∈ s, Text.isAsciiBlank c = true) :
    ofRegion (List.zipWith (· ++ ·) blanks
      ((ofRegion region).entries.map fun e => (attributeDoc e.1 e.2).render printWidth)).flatten =
        ofRegion region := by
  have horder := regionOrder_ofRegion region
  generalize ofRegion region = attributes at *
  have hprinted : (attributes.entries.map fun e => (attributeDoc e.1 e.2).render printWidth) =
      attributes.entries.map fun e => attributeText e.1 e.2 :=
    List.map_congr_left fun e he => render_attributeDoc printWidth (hlines e he).1 (hlines e he).2
  have hquotes' : ∀ entry ∈ attributes.entries, '"' ∉ entry.2 ∨ '\'' ∉ entry.2 :=
    fun e he => (not_and_or.1 (hquotes e he)).symm
  have hblanks' : ∀ s ∈ blanks, s ≠ [] ∧ s.all Text.isAsciiBlank = true :=
    fun s hs => ⟨(hblanks s hs).1, List.all_eq_true.2 (hblanks s hs).2⟩
  have hread := horder.attributeEntries_eq hquotes' hlength hblanks' rfl
  rw [hprinted, ofRegion, hread.1, ofEntries_entries]

/-- A region with a name that goes on with a quoted text, a value with a double quote, a quoted text
that is a name, a name given twice, and a quote that is never closed. -/
def crowdedRegion : Text :=
  "a.b\"c d\"='x\"y' \"lone\" k=1 / k = 2 z\"open end".toList

/-- The attributes of the crowded region. -/
def crowdedEntries : List (Text × Text) :=
  [("a.b\"c d\"".toList, "x\"y".toList), ("\"lone\"".toList, []), (['k'], ['2']),
    ("z\"open end".toList, [])]

theorem entries_crowdedRegion : (AttributeMap.ofRegion crowdedRegion).entries = crowdedEntries := by
  decide +kernel

theorem AttributeMap.ofRegion_printed_crowdedRegion :
    (AttributeMap.ofRegion crowdedRegion).entries = crowdedEntries ∧
      AttributeMap.ofRegion
          "\n\ta.b\"c d\"='x\"y' \"lone\"\r\nk=\"2\"\x0cz\"open end".toList =
        AttributeMap.ofRegion crowdedRegion := by
  have hprinted := AttributeMap.ofRegion_printed 80 crowdedRegion
    (by rw [entries_crowdedRegion]; decide) (by rw [entries_crowdedRegion]; decide)
    [['\n', '\t'], [' '], ['\r', '\n'], ['\x0c']]
    (by rw [entries_crowdedRegion]; rfl) (by simp [Text.isAsciiBlank])
  rw [entries_crowdedRegion] at hprinted
  exact ⟨entries_crowdedRegion, hprinted⟩

end RazorTidy
