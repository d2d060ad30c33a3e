import RazorTidy.Layout.Node
import RazorTidy.Proofs.Keyword

/-!
# Reading attribute regions

How an attribute region is read piece by piece. The rules for a single lexeme in front of a text
(`Lexeme.Reads`) describe exactly what is read (`Lexeme.Reads.lexemes_eq`, `Lexeme.exists_reads`).
An entry that is written behind blanks is read back (`Spelt.read_closed`), whatever entry comes
after it, as long as its name is closed: a name with an open quote swallows what follows.
-/

set_option autoImplicit false

namespace RazorTidy

/-- A text is a run of characters and a rest that does not go on with it. -/
theorem Text.exists_run (p : Char → Bool) (s : Text) :
    ∃ run rest, s = run ++ rest ∧ s.takeWhile p = run ∧ run.all p = true ∧
      rest.head?.all (fun c => !p c) = true := by
  induction s with
  | nil => exact ⟨[], [], rfl, rfl, rfl, rfl⟩
  | cons c r ih =>
    cases hc : p c with
    | false => exact ⟨[], c :: r, rfl, List.takeWhile_cons_of_neg (by simp [hc]), rfl, by simp [hc]⟩
    | true =>
      obtain ⟨run, rest, rfl, htake, hrun, hrest⟩ := ih
      exact ⟨c :: run, rest, rfl, by rw [List.takeWhile_cons_of_pos hc, htake],
        by rw [List.all_cons, hc, hrun]; rfl, hrest⟩

namespace Lexeme

/-! ## Single lexemes -/

theorem isWordPart_iff {c : Char} :
    isWordPart c = true ↔
      Text.isAsciiBlank c = false ∧ isQuote c = false ∧ c ≠ '=' ∧ c ≠ '/' := by
  simp only [isWordPart, Bool.and_eq_true, Bool.not_eq_true', bne_iff_ne, ne_eq, and_assoc]

/-- A quote starts no other lexeme. -/
theorem marks_of_isQuote {q : Char} (h : isQuote q = true) :
    Text.isAsciiBlank q = false ∧ q ≠ '=' ∧ q ≠ '/' := by
  simp only [isQuote, Bool.or_eq_true, beq_iff_eq] at h
  rcases h with rfl | rfl <;> decide

/-- A run of ASCII blanks is one lexeme. -/
theorem lexemes_blanks {blanks rest : Text} (hne : blanks ≠ [])
    (hblanks : blanks.all Text.isAsciiBlank = true)
    (hrest : rest.head?.all (fun c => !Text.isAsciiBlank c) = true) :
    lexemes (blanks ++ rest) = ⟨.space, blanks⟩ :: lexemes rest := by
  cases blanks with
  | nil => exact absurd rfl hne
  | cons c r =>
    rw [List.all_cons, Bool.and_eq_true] at hblanks
    have hextent : extent c (r ++ rest) = (.space, r.length) := by
      rw [extent, if_pos hblanks.1, Text.takeWhile_append hblanks.2 hrest]
    rw [List.cons_append, lexemes, hextent, List.take_left, List.drop_left]

/-- A run of word characters is one lexeme. -/
theorem lexemes_word {word rest : Text} (hne : word ≠ []) (hword : word.all isWordPart = true)
    (hrest : rest.head?.all (fun c => !isWordPart c) = true) :
    lexemes (word ++ rest) = ⟨.word, word⟩ :: lexemes rest := by
  cases word with
  | nil => exact absurd rfl hne
  | cons c r =>
    rw [List.all_cons, Bool.and_eq_true] at hword
    obtain ⟨hblank, hquote, hequals, hslash⟩ := isWordPart_iff.1 hword.1
    have hextent : extent c (r ++ rest) = (.word, r.length) := by
      simp only [extent, hblank, hquote, hequals, hslash, Bool.false_eq_true, if_false]
      rw [Text.takeWhile_append hword.2 hrest]
    rw [List.cons_append, lexemes, hextent, List.take_left, List.drop_left]

theorem lexemes_equals (rest : Text) :
    lexemes ('=' :: rest) = ⟨.equals, ['=']⟩ :: lexemes rest := by
  have hextent : extent '=' rest = (.equals, 0) := rfl
  rw [lexemes, hextent, List.take_zero, List.drop_zero]

/-- A text in quotes is one lexeme. -/
theorem lexemes_quoted {q : Char} (hq : isQuote q = true) {value : Text} (hvalue : q ∉ value)
    (rest : Text) :
    lexemes (q :: (value ++ q :: rest)) = ⟨.quoted, q :: (value ++ [q])⟩ :: lexemes rest := by
  have hindex : Text.indexOf? [q] (value ++ q :: rest) = some value.length := by
    induction value with
    | nil => simp [Text.indexOf?]
    | cons c r ih =>
      rw [List.mem_cons, not_or] at hvalue
      simp [Text.indexOf?, ih hvalue.2, hvalue.1]
  have hextent : extent q (value ++ q :: rest) = (.quoted, value.length + 1) := by
    simp only [extent, marks_of_isQuote hq, hq, hindex, Bool.false_eq_true, if_false, if_true]
  have hsplit : value ++ q :: rest = (value ++ [q]) ++ rest := by simp
  have hlength : (value ++ [q]).length = value.length + 1 := by simp
  rw [lexemes, hextent, hsplit, ← hlength, List.take_left, List.drop_left]

/-- The lexemes that are read in front of the text `rest`. -/
inductive Reads : Lexeme → Text → Prop
  | space {s rest : Text} (hne : s ≠ []) (hs : s.all Text.isAsciiBlank = true)
      (hrest : rest.head?.all (fun c => !Text.isAsciiBlank c) = true) : Reads ⟨.space, s⟩ rest
  | equals (rest : Text) : Reads ⟨.equals, ['=']⟩ rest
  | slash (rest : Text) : Reads ⟨.slash, ['/']⟩ rest
  | quoted {q : Char} {v : Text} (hq : isQuote q = true) (hv : q ∉ v) (rest : Text) :
      Reads ⟨.quoted, q :: (v ++ [q])⟩ rest
  | word {s rest : Text} (hne : s ≠ []) (hs : s.all isWordPart = true)
      (hrest : rest.head?.all (fun c => !isWordPart c) = true) : Reads ⟨.word, s⟩ rest
  | unclosed {q : Char} {v : Text} (hq : isQuote q = true) (hv : q ∉ v) : Reads ⟨.word, q :: v⟩ []

/-- A quote is found right behind a text without it, or nowhere. -/
theorem indexOf?_quote (q : Char) (s : Text) :
    (∃ v t, s = v ++ q :: t ∧ q ∉ v ∧ Text.indexOf? [q] s = some v.length) ∨
      (q ∉ s ∧ Text.indexOf? [q] s = none) := by
  induction s with
  | nil => exact Or.inr ⟨List.not_mem_nil, rfl⟩
  | cons c r ih =>
    by_cases hc : q = c
    · subst hc
      exact Or.inl ⟨[], r, rfl, List.not_mem_nil, by simp [Text.indexOf?]⟩
    · have hstep : Text.indexOf? [q] (c :: r) = (Text.indexOf? [q] r).map (· + 1) := by
        simp [Text.indexOf?, hc]
      rcases ih with ⟨v, t, rfl, hv, hindex⟩ | ⟨hr, hindex⟩
      · refine Or.inl ⟨c :: v, t, rfl, ?_, by rw [hstep, hindex]; rfl⟩
        rw [List.mem_cons, not_or]
        exact ⟨hc, hv⟩
      · refine Or.inr ⟨?_, by rw [hstep, hindex]; rfl⟩
        rw [List.mem_cons, not_or]
        exact ⟨hc, hr⟩

theorem lexemes_nil : lexemes [] = [] := by rw [lexemes]

theorem Reads.text_ne_nil {l : Lexeme} {rest : Text} (h : Reads l rest) : l.text ≠ [] := by
  cases h with
  | space hne => exact hne
  | word hne => exact hne
  | _ => exact List.cons_ne_nil _ _

/-- What the rules say is read. -/
theorem Reads.lexemes_eq {l : Lexeme} {rest : Text} (h : Reads l rest) :
    lexemes (l.text ++ rest) = l :: lexemes rest := by
  cases h with
  | space hne hs hrest => exact lexemes_blanks hne hs hrest
  | equals => exact lexemes_equals rest
  | slash =>
    have hextent : extent '/' rest = (.slash, 0) := rfl
    rw [List.singleton_append, lexemes, hextent, List.take_zero, List.drop_zero]
  | quoted hq hv =>
    rw [List.cons_append, List.append_assoc]
    exact lexemes_quoted hq hv rest
  | word hne hs hrest => exact lexemes_word hne hs hrest
  | @unclosed q v hq hv =>
    have hextent : extent q v = (.word, v.length) := by
      rcases indexOf?_quote q v with ⟨u, t, rfl, -, -⟩ | ⟨-, hindex⟩
      · exact absurd (List.mem_append_right u List.mem_cons_self) hv
      · simp only [extent, marks_of_isQuote hq, hq, hindex, Bool.false_eq_true, if_false, if_true]
    rw [List.append_nil, lexemes_nil, lexemes, hextent, List.take_length, List.drop_length,
      lexemes_nil]

/-- What is read follows the rules. -/
theorem exists_reads {s : Text} {l : Lexeme} {ls : List Lexeme} (h : lexemes s = l :: ls) :
    ∃ rest, s = l.text ++ rest ∧ Reads l rest ∧ lexemes rest = ls := by
  cases s with
  | nil =>
    rw [lexemes_nil] at h
    cases h
  | cons c r =>
    rw [lexemes, List.cons.injEq] at h
    obtain ⟨rfl, hls⟩ := h
    refine ⟨r.drop (extent c r).2, ?_, ?_, hls⟩
    · rw [List.cons_append, List.take_append_drop]
    -- one case for each branch of `extent`
    rw [extent]
    split
    · rename_i hblank
      obtain ⟨run, rest, rfl, htake, hrun, hrest⟩ := Text.exists_run Text.isAsciiBlank r
      simp only [htake, List.take_left, List.drop_left]
      exact .space (List.cons_ne_nil _ _) (by rw [List.all_cons, hblank, hrun]; rfl) hrest
    split
    · rename_i hequals
      subst hequals
      exact .equals _
    split
    · rename_i hslash
      subst hslash
      exact .slash _
    rename_i hblank hequals hslash
    split
    · rename_i hq
      rcases indexOf?_quote c r with ⟨v, t, rfl, hv, hindex⟩ | ⟨hv, hindex⟩
      · rw [hindex]
        have htake : (v ++ c :: t).take (v.length + 1) = v ++ [c] := by
          rw [List.take_length_add_append]
          rfl
        simp only [htake]
        exact .quoted hq hv _
      · rw [hindex]
        simp only [List.take_length, List.drop_length]
        exact .unclosed hq hv
    · rename_i hq
      have hpart : isWordPart c = true :=
        isWordPart_iff.2 ⟨by simpa using hblank, by simpa using hq, hequals, hslash⟩
      obtain ⟨run, rest, rfl, htake, hrun, hrest⟩ := Text.exists_run isWordPart r
      simp only [htake, List.take_left, List.drop_left]
      exact .word (List.cons_ne_nil _ _) (by rw [List.all_cons, hpart, hrun]; rfl) hrest

/-! ## Names -/

/-- Whether a text behind a name ends it. -/
def partsName (rest : Text) : Bool :=
  rest.head?.all fun c => Text.isAsciiBlank c || c == '='

/-- A name that falls into its lexemes whatever follows it. -/
def ClosedName (name : Text) : Prop :=
  ∀ rest, partsName rest = true → lexemes (name ++ rest) = lexemes name ++ lexemes rest

theorem head_not_isWordPart {rest : Text} (h : partsName rest = true) :
    rest.head?.all (fun c => !isWordPart c) = true := by
  cases rest with
  | nil => rfl
  | cons c r =>
    simp only [partsName, List.head?_cons, Option.all_some, Bool.or_eq_true, beq_iff_eq] at h
    rcases h with hblank | rfl
    · simp [isWordPart, hblank]
    · rfl

end Lexeme

/-! ## Entries of regions -/

open Lexeme

/-- The entries that a region can hold: a quoted text stands for itself and has no value, any other
name starts with a word and goes on up to a blank or an equals sign. -/
inductive Spelt : Text × Text → Prop
  | quoted {name : Text} (h : lexemes name = [⟨.quoted, name⟩]) : Spelt (name, [])
  | word {name value : Text} {l : Lexeme} {more : List Lexeme} (h : lexemes name = l :: more)
      (hl : l.kind = .word) (hmore : ∀ m ∈ more, m.endsName = false) : Spelt (name, value)

/-! ## Printed entries -/

/-- The quote around a printed value. -/
def valueQuote (value : Text) : Char :=
  if value.contains '"' && !value.contains '\'' then '\'' else '"'

/-- The lexemes of a printed value. -/
def valueLexemes (value : Text) : List Lexeme :=
  if value.isEmpty then []
  else [⟨.equals, ['=']⟩, ⟨.quoted, valueQuote value :: (value ++ [valueQuote value])⟩]

/-- Lexemes that belong to no name or value before them. -/
def Apart (ls : List Lexeme) : Prop :=
  ls = [] ∨ ∃ blanks l rest, ls = ⟨.space, blanks⟩ :: l :: rest ∧
    (l.kind = .word ∨ l.kind = .quoted)

section Printed

variable {name value : Text}

theorem attributeText_eq_append (name value : Text) :
    attributeText name value = name ++ joined (valueLexemes value) := by
  rw [attributeText, valueLexemes]
  split
  · exact (List.append_nil name).symm
  · rw [valueQuote]
    split <;> simp [joined]

/-- A printed value is an equals sign and one quoted text, if one of the quotes is free for it. -/
theorem lexemes_value (hquotes : '"' ∉ value ∨ '\'' ∉ value) (rest : Text) :
    lexemes (joined (valueLexemes value) ++ rest) = valueLexemes value ++ lexemes rest := by
  rw [valueLexemes]
  split
  · rfl
  · have hq : isQuote (valueQuote value) = true ∧ valueQuote value ∉ value := by
      rw [valueQuote]
      split
      · rename_i hsingle
        simp only [Bool.and_eq_true, Bool.not_eq_true', List.contains_eq_mem,
          decide_eq_false_iff_not] at hsingle
        exact ⟨rfl, hsingle.2⟩
      · rename_i hdouble
        simp only [Bool.and_eq_true, Bool.not_eq_true', List.contains_eq_mem, decide_eq_true_eq,
          decide_eq_false_iff_not, not_and, Classical.not_not] at hdouble
        refine ⟨rfl, fun hmem => ?_⟩
        rcases hquotes with h | h
        · exact h hmem
        · exact h (hdouble hmem)
    have hshape : joined [⟨.equals, ['=']⟩,
        ⟨.quoted, valueQuote value :: (value ++ [valueQuote value])⟩] ++ rest =
          '=' :: valueQuote value :: (value ++ valueQuote value :: rest) := by
      simp [joined]
    rw [hshape, lexemes_equals, lexemes_quoted hq.1 hq.2]
    rfl

theorem partsName_value (value : Text) {rest : Text}
    (hrest : rest.head?.all Text.isAsciiBlank = true) :
    partsName (joined (valueLexemes value) ++ rest) = true := by
  rw [valueLexemes]
  split
  · cases rest with
    | nil => rfl
    | cons c r =>
      have hc : Text.isAsciiBlank c = true := by simpa using hrest
      simp [joined, partsName, hc]
  · rfl

/-- A name starts with a word or a quoted text, so with no blank. -/
theorem Spelt.exists_cons (h : Spelt (name, value)) :
    ∃ l more, lexemes name = l :: more ∧ (l.kind = .word ∨ l.kind = .quoted) ∧
      ∀ rest : Text, (name ++ rest).head?.all (fun c => !Text.isAsciiBlank c) = true := by
  have hfirst : ∃ l more, lexemes name = l :: more ∧ (l.kind = .word ∨ l.kind = .quoted) := by
    cases h with
    | quoted h => exact ⟨_, _, h, Or.inr rfl⟩
    | word h hl => exact ⟨_, _, h, Or.inl hl⟩
  obtain ⟨l, more, hlexemes, hkind⟩ := hfirst
  refine ⟨l, more, hlexemes, hkind, ?_⟩
  intro rest
  obtain ⟨after, rfl, hreads, -⟩ := exists_reads hlexemes
  cases hreads with
  | space => simp at hkind
  | equals => simp at hkind
  | slash => simp at hkind
  | quoted hq => simp [marks_of_isQuote hq]
  | unclosed hq => simp [marks_of_isQuote hq]
  | @word s _ hne hs =>
    obtain ⟨c, r, rfl⟩ := List.exists_cons_of_ne_nil hne
    rw [List.all_cons, Bool.and_eq_true, isWordPart_iff] at hs
    simp [hs.1.1]

/-- Blanks in front of a name that follows are not taken for those in front of an equals sign. -/
theorem valueAfter?_apart {ls : List Lexeme} (h : Apart ls) : valueAfter? ls = none := by
  rcases h with rfl | ⟨blanks, ⟨kind, text⟩, rest, rfl, hkind⟩
  · rfl
  · rcases hkind with rfl | rfl <;> simp [valueAfter?, isSpace]

/-- The value behind a name is the printed one, without its quotes. -/
theorem valueAfter?_value (hvalue : value.isEmpty = false) {ls : List Lexeme} (h : Apart ls) :
    valueAfter? (valueLexemes value ++ ls) = some (value, 2) := by
  have hparts : ls.takeWhile (fun l => !(l.kind == .space)) = [] := by
    rcases h with rfl | ⟨blanks, l, rest, rfl, -⟩
    · rfl
    · rfl
  simp [valueLexemes, hvalue, valueAfter?, isSpace, Lexeme.value, hparts]

/-- The lexemes of a printed entry spell it. -/
theorem Spelt.attributeEntries_eq (h : Spelt (name, value)) {ls : List Lexeme} (hls : Apart ls) :
    attributeEntries (lexemes name ++ (valueLexemes value ++ ls)) =
      (name, value) :: attributeEntries ls := by
  cases h with
  | quoted h =>
    rw [h, List.singleton_append, attributeEntries]
    rfl
  | @word _ _ l more h hl hmore =>
    have hname : joined (l :: more) = name := by rw [joined, ← h, text_lexemes]
    -- the name ends where its lexemes do: at the equals sign, at a blank or at the end
    have hstop : (valueLexemes value ++ ls).takeWhile (!·.endsName) = [] := by
      rw [valueLexemes]
      split
      · rcases hls with rfl | ⟨blanks, l', rest, rfl, -⟩
        · rfl
        · rfl
      · rfl
    have htake : (more ++ (valueLexemes value ++ ls)).takeWhile (!·.endsName) = more := by
      rw [List.takeWhile_append_of_pos fun m hm => by rw [hmore m hm]; rfl, hstop,
        List.append_nil]
    rw [h, List.cons_append, attributeEntries]
    simp only [hl, htake, List.drop_left, hname]
    cases hvalue : value.isEmpty with
    | true =>
      rw [List.isEmpty_iff.1 hvalue, show valueLexemes [] = [] from rfl, List.nil_append,
        valueAfter?_apart hls]
    | false =>
      have hdrop : (more ++ (valueLexemes value ++ ls)).drop (more.length + 2) = ls := by
        rw [List.drop_append, valueLexemes, hvalue]
        simp
      rw [valueAfter?_value hvalue hls]
      simp only [hdrop]

/-- A printed entry behind blanks is read back, and what is read before it ends there. The name has
to fall into its own lexemes. -/
theorem Spelt.read_printed (h : Spelt (name, value)) {blanks rest : Text} (hne : blanks ≠ [])
    (hblanks : blanks.all Text.isAsciiBlank = true)
    (hname : lexemes (attributeText name value ++ rest) =
      lexemes name ++ (valueLexemes value ++ lexemes rest))
    (hrest : Apart (lexemes rest)) :
    attributeEntries (lexemes (blanks ++ (attributeText name value ++ rest))) =
        (name, value) :: attributeEntries (lexemes rest) ∧
      Apart (lexemes (blanks ++ (attributeText name value ++ rest))) ∧
        (blanks ++ (attributeText name value ++ rest)).head?.all Text.isAsciiBlank = true := by
  obtain ⟨l, more, hlexemes, hkind, hhead⟩ := h.exists_cons
  have hstart : (attributeText name value ++ rest).head?.all (fun c => !Text.isAsciiBlank c) =
      true := by
    rw [attributeText_eq_append, List.append_assoc]
    exact hhead _
  rw [lexemes_blanks hne hblanks hstart, hname]
  refine ⟨?_, ?_, ?_⟩
  · rw [attributeEntries]
    exact h.attributeEntries_eq hrest
  · rw [hlexemes]
    exact Or.inr ⟨blanks, l, _, rfl, hkind⟩
  · obtain ⟨c, r, rfl⟩ := List.exists_cons_of_ne_nil hne
    rw [List.all_cons, Bool.and_eq_true] at hblanks
    exact hblanks.1

/-- A printed entry with a closed name is read back whatever entry follows. -/
theorem Spelt.read_closed (h : Spelt (name, value)) (hclosed : ClosedName name)
    (hquotes : '"' ∉ value ∨ '\'' ∉ value) {blanks rest : Text} (hne : blanks ≠ [])
    (hblanks : blanks.all Text.isAsciiBlank = true)
    (hblank : rest.head?.all Text.isAsciiBlank = true) (hrest : Apart (lexemes rest)) :
    attributeEntries (lexemes (blanks ++ (attributeText name value ++ rest))) =
        (name, value) :: attributeEntries (lexemes rest) ∧
      Apart (lexemes (blanks ++ (attributeText name value ++ rest))) ∧
        (blanks ++ (attributeText name value ++ rest)).head?.all Text.isAsciiBlank = true := by
  have hname := hclosed _ (partsName_value value hblank)
  rw [lexemes_value hquotes, ← List.append_assoc, ← attributeText_eq_append] at hname
  exact h.read_printed hne hblanks hname hrest

end Printed

/-! ## Entries of maps -/

namespace AttributeMap

theorem insertEntry_of_not_mem {name : Text} {entries : List (Text × Text)}
    (h : name ∉ entries.map Prod.fst) (value : Text) :
    insertEntry name value entries = entries ++ [(name, value)] := by
  induction entries with
  | nil => rfl
  | cons entry rest ih =>
    rcases entry with ⟨n, v⟩
    rw [List.map_cons, List.mem_cons, not_or] at h
    rw [insertEntry, if_neg (fun heq => h.1 heq.symm), ih h.2]
    rfl

theorem mem_insertEntry {name value : Text} {entries : List (Text × Text)} {entry : Text × Text}
    (h : entry ∈ insertEntry name value entries) : entry = (name, value) ∨ entry ∈ entries := by
  induction entries with
  | nil => exact Or.inl (List.mem_singleton.1 h)
  | cons first rest ih =>
    rcases first with ⟨n, v⟩
    rw [insertEntry] at h
    split at h
    · rename_i hname
      subst hname
      exact (List.mem_cons.1 h).imp_right (List.mem_cons_of_mem _)
    · rcases List.mem_cons.1 h with rfl | h
      · exact Or.inr List.mem_cons_self
      · exact (ih h).imp_right (List.mem_cons_of_mem _)

/-- Every entry of a map is one of those that were inserted. -/
theorem mem_of_mem_ofEntries {entries : List (Text × Text)} {entry : Text × Text}
    (h : entry ∈ (ofEntries entries).entries) : entry ∈ entries := by
  have hfold : ∀ (es : List (Text × Text)) (map : AttributeMap),
      entry ∈ (es.foldl (fun map entry => map.insert entry.1 entry.2) map).entries →
      entry ∈ map.entries ∨ entry ∈ es := by
    intro es
    induction es with
    | nil => exact fun map hmem => Or.inl hmem
    | cons first rest ih =>
      intro map hmem
      rcases ih _ hmem with hmem | hmem
      · rcases mem_insertEntry hmem with rfl | hmem
        · exact Or.inr List.mem_cons_self
        · exact Or.inl hmem
      · exact Or.inr (List.mem_cons_of_mem _ hmem)
  rcases hfold entries empty h with hmem | hmem
  · cases hmem
  · exact hmem

/-- Inserting entries with distinct names keeps them as they are. -/
theorem ofEntries_entries (map : AttributeMap) : ofEntries map.entries = map := by
  -- generalised over the entries that are already there
  have hfold : ∀ (entries : List (Text × Text)) (before : AttributeMap),
      ((before.entries ++ entries).map Prod.fst).Nodup →
        (entries.foldl (fun map entry => map.insert entry.1 entry.2) before).entries =
          before.entries ++ entries := by
    intro entries
    induction entries with
    | nil =>
      intro before _
      exact (List.append_nil _).symm
    | cons entry rest ih =>
      intro before hnodup
      have hnew : entry.1 ∉ before.entries.map Prod.fst := by
        rw [List.map_append, List.nodup_append] at hnodup
        intro hmem
        exact hnodup.2.2 _ hmem _ (by simp) rfl
      have hinsert : (before.insert entry.1 entry.2).entries = before.entries ++ [entry] :=
        insertEntry_of_not_mem hnew entry.2
      have hshape : before.entries ++ entry :: rest = (before.entries ++ [entry]) ++ rest := by simp
      rw [List.foldl_cons, ih _ (by rw [hinsert, ← hshape]; exact hnodup), hinsert, hshape]
  have hentries := hfold map.entries empty map.nodup
  rcases map with ⟨entries, hnodup⟩
  rw [ofEntries]
  generalize hresult : entries.foldl _ empty = result at hentries ⊢
  rcases result with ⟨entries', hnodup'⟩
  simp only [empty, List.nil_append] at hentries
  subst hentries
  rfl

end AttributeMap

end RazorTidy
