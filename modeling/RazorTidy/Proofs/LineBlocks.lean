import RazorTidy.Proofs.LineBreaks
import RazorTidy.Proofs.Plain
import RazorTidy.Proofs.Visible

/-!
# The shape of line blocks

The lines of a block are clean (`LineBlock.clean_normalize`): no line holds a line feed or ends with
a blank, the first and the last line are not empty, and no two empty lines follow each other. So a
block of a text that is not blank can be laid out after any line breaks (`solid_blockDoc`).
-/

set_option autoImplicit false

namespace RazorTidy

namespace Text

theorem newline_not_mem_of_mem_lines {s line : Text} (h : line ∈ lines s) : '\n' ∉ line := by
  fun_induction lines s generalizing line with
  | case1 => cases h
  | case2 r ih =>
    rcases List.mem_cons.1 h with rfl | h
    · exact List.not_mem_nil
    · exact ih h
  | case3 r ih =>
    rcases List.mem_cons.1 h with rfl | h
    · exact List.not_mem_nil
    · exact ih h
  | case4 c r hcr hc hlines ih =>
    rw [List.mem_singleton.1 h, List.mem_singleton]
    exact fun heq => hc heq.symm
  | case5 c r hcr hc line' rest hlines ih =>
    rw [hlines] at ih
    rcases List.mem_cons.1 h with rfl | h
    · rw [List.mem_cons, not_or]
      exact ⟨fun heq => hc heq.symm, ih List.mem_cons_self⟩
    · exact ih (List.mem_cons_of_mem _ h)

theorem endsBlank_trimEnd (s : Text) : endsBlank (trimEnd s) = false := by
  rw [endsBlank, trimEnd, dropEndWhile, List.reverse_reverse]
  have hhead := List.head?_dropWhile_not isBlank s.reverse
  cases hdrop : s.reverse.dropWhile isBlank with
  | nil => rfl
  | cons c r =>
    rw [hdrop] at hhead
    simpa [startsBlank] using hhead

theorem mem_of_mem_trimEnd {s : Text} {c : Char} (h : c ∈ trimEnd s) : c ∈ s := by
  obtain ⟨blanks, -, hs⟩ := exists_trimEnd_append s
  rw [hs]
  exact List.mem_append_left _ h

theorem mem_of_mem_trim {s : Text} {c : Char} (h : c ∈ trim s) : c ∈ s :=
  (List.dropWhile_suffix isBlank).subset (mem_of_mem_trimEnd h)

/-- A line that does not end with a blank is empty or holds more than spaces. -/
theorem all_space_of_endsBlank {line : Text} (h : endsBlank line = false) (hne : line ≠ []) :
    line.all (· == ' ') = false := by
  rcases List.eq_nil_or_concat line with rfl | ⟨front, c, rfl⟩
  · exact absurd rfl hne
  · have hc : isBlank c = false := by
      rw [endsBlank, List.concat_eq_append, List.reverse_append] at h
      exact h
    have hspace : c ≠ ' ' := by
      rintro rfl
      exact absurd hc (by decide)
    simp [hspace]

end Text

namespace LineBlock

/-- Lines without line feeds and without blanks at their ends, of which neither the first nor the
last is empty and no two empty ones follow each other. -/
structure Clean (ls : List Text) : Prop where
  lines : ∀ line ∈ ls, '\n' ∉ line ∧ Text.endsBlank line = false
  first : ls.head? ≠ some []
  last : ls.getLast? ≠ some []
  apart : ls.IsChain fun line next => line = [] → next ≠ []

/-! ## Squeezed lines -/

theorem squeeze_cons {line : Text} (h : line ≠ []) (afterEmpty : Bool) (ls : List Text) :
    squeeze afterEmpty (line :: ls) = line :: squeeze false ls := by
  have hempty : line.isEmpty = false := by simpa using h
  rw [squeeze, hempty]
  rfl

theorem squeeze_concat {line : Text} (h : line ≠ []) (afterEmpty : Bool) (ls : List Text) :
    squeeze afterEmpty (ls ++ [line]) = squeeze afterEmpty ls ++ [line] := by
  induction ls generalizing afterEmpty with
  | nil => exact squeeze_cons h afterEmpty []
  | cons first rest ih =>
    rw [List.cons_append, squeeze, squeeze]
    split
    · exact ih true
    · rw [ih, List.cons_append]

theorem mem_of_mem_squeeze {afterEmpty : Bool} {ls : List Text} {line : Text}
    (h : line ∈ squeeze afterEmpty ls) : line ∈ ls := by
  fun_induction squeeze afterEmpty ls with
  | case1 => cases h
  | case2 afterEmpty first rest _ ih => exact List.mem_cons_of_mem _ (ih h)
  | case3 afterEmpty first rest _ ih =>
    rcases List.mem_cons.1 h with rfl | h
    · exact List.mem_cons_self
    · exact List.mem_cons_of_mem _ (ih h)

/-- No two empty lines follow each other, and none comes first after an empty line. -/
theorem isChain_squeeze (afterEmpty : Bool) (ls : List Text) :
    (squeeze afterEmpty ls).IsChain (fun line next => line = [] → next ≠ []) ∧
      (afterEmpty = true → (squeeze afterEmpty ls).head? ≠ some []) := by
  fun_induction squeeze afterEmpty ls with
  | case1 afterEmpty => exact ⟨.nil, fun _ h => by cases h⟩
  | case2 afterEmpty line rest h ih => exact ⟨ih.1, fun _ => ih.2 rfl⟩
  | case3 afterEmpty line rest h ih =>
    obtain ⟨hchain, hhead⟩ := ih
    constructor
    · cases hsqueeze : squeeze line.isEmpty rest with
      | nil => exact .singleton line
      | cons next others =>
        rw [hsqueeze] at hchain hhead
        refine .cons_cons ?_ hchain
        rintro rfl rfl
        exact hhead rfl rfl
    · rintro rfl hempty
      rw [List.head?_cons, Option.some.injEq] at hempty
      rw [hempty] at h
      exact h rfl

theorem clean_squeeze {ls : List Text}
    (hlines : ∀ line ∈ ls, '\n' ∉ line ∧ Text.endsBlank line = false)
    (hfirst : ls.head? ≠ some []) (hlast : ls.getLast? ≠ some []) : Clean (squeeze false ls) where
  lines line hline := hlines line (mem_of_mem_squeeze hline)
  first := by
    cases ls with
    | nil => exact hfirst
    | cons line rest =>
      have hne : line ≠ [] := fun heq => hfirst (congrArg some heq)
      rw [squeeze_cons hne]
      exact hfirst
  last := by
    rcases List.eq_nil_or_concat ls with rfl | ⟨front, line, rfl⟩
    · exact hlast
    · rw [List.concat_eq_append] at hlast ⊢
      have hne : line ≠ [] := fun heq => hlast (by simp [heq])
      rw [squeeze_concat hne]
      simpa using hne
  apart := (isChain_squeeze false ls).1

/-! ## Normalised lines -/

theorem mem_of_mem_dedent {n : Nat} {line : Text} {c : Char} (h : c ∈ dedent n line) :
    c ∈ line := by
  fun_induction dedent n line with
  | case1 line => exact h
  | case2 n => cases h
  | case3 n d r hd ih => exact List.mem_cons_of_mem _ (ih h)
  | case4 n d r hd => exact h

theorem trimEnd_dedent_ne_nil {line : Text} (h : Text.allBlank line = false) (n : Nat) :
    Text.trimEnd (dedent n line) ≠ [] := by
  intro hnil
  have hvisible : Text.visible (Text.trimEnd (dedent n line)) = Text.visible line := by
    rw [Text.visible_trimEnd, visible_dedent]
  rw [hnil, Text.visible_nil, eq_comm, Text.visible_eq_nil_iff_allBlank, h] at hvisible
  cases hvisible

theorem mem_of_mem_dropBlankEnd {ls : List Text} {line : Text} (h : line ∈ dropBlankEnd ls) :
    line ∈ ls := by
  rw [dropBlankEnd, List.mem_reverse] at h
  exact List.mem_reverse.1 ((List.dropWhile_suffix Text.allBlank).subset h)

theorem allBlank_of_getLast?_dropBlankEnd {ls : List Text} {line : Text}
    (h : (dropBlankEnd ls).getLast? = some line) : Text.allBlank line = false := by
  rw [dropBlankEnd, List.getLast?_reverse] at h
  have hhead := List.head?_dropWhile_not Text.allBlank ls.reverse
  rw [h] at hhead
  exact hhead

/-- The lines of dedented lines are free of line feeds and blanks at their ends. -/
theorem lines_dedentAll {ls : List Text} (h : ∀ line ∈ ls, '\n' ∉ line) :
    ∀ line ∈ dedentAll ls, '\n' ∉ line ∧ Text.endsBlank line = false := by
  intro line hline
  obtain ⟨raw, hraw, rfl⟩ := List.mem_map.1 hline
  refine ⟨fun hbreak => ?_, Text.endsBlank_trimEnd _⟩
  exact h raw hraw (mem_of_mem_dedent (Text.mem_of_mem_trimEnd hbreak))

/-- The last of dedented lines is not empty if the last line was not blank. -/
theorem getLast?_dedentAll {ls : List Text}
    (h : ∀ line, ls.getLast? = some line → Text.allBlank line = false) :
    (dedentAll ls).getLast? ≠ some [] := by
  rw [dedentAll, List.getLast?_map]
  cases hlast : ls.getLast? with
  | none => exact fun heq => by cases heq
  | some line => exact fun heq => trimEnd_dedent_ne_nil (h line hlast) _ (Option.some.inj heq)

/-- The lines of a block are clean. -/
theorem clean_normalize (s : Text) : Clean (normalize s) := by
  have hlines : ∀ line ∈ dropBlankEnd (Text.lines s), '\n' ∉ line := fun line hline =>
    Text.newline_not_mem_of_mem_lines (mem_of_mem_dropBlankEnd hline)
  have hlast : ∀ line, (dropBlankEnd (Text.lines s)).getLast? = some line →
      Text.allBlank line = false := fun _ => allBlank_of_getLast?_dropBlankEnd
  rw [normalize]
  split
  · exact ⟨by simp, by simp, by simp, .nil⟩
  rename_i first rest heq
  rw [heq] at hlines hlast
  -- what is said of the last line holds of the last line of any rest
  have hrest : ∀ line, rest.getLast? = some line → Text.allBlank line = false := by
    intro line hline
    apply hlast line
    rw [List.getLast?_cons, hline]
    rfl
  split
  · have hsuffix := List.dropWhile_suffix (l := rest) Text.allBlank
    apply clean_squeeze
    · exact lines_dedentAll fun line hline =>
        hlines line (List.mem_cons_of_mem _ (hsuffix.subset hline))
    · rw [dedentAll, List.head?_map]
      have hhead := List.head?_dropWhile_not Text.allBlank rest
      cases hdrop : (rest.dropWhile Text.allBlank).head? with
      | none => exact fun heq => by cases heq
      | some line =>
        rw [hdrop] at hhead
        exact fun heq => trimEnd_dedent_ne_nil hhead _ (Option.some.inj heq)
    · apply getLast?_dedentAll
      intro line hline
      obtain ⟨front, hfront⟩ := hsuffix
      apply hrest line
      rw [← hfront, List.getLast?_append, hline]
      rfl
  · rename_i hfirst
    rw [Bool.not_eq_true] at hfirst
    have htrim : Text.trim first ≠ [] := by
      rw [Ne, Text.trim_eq_nil_iff, hfirst]
      exact Bool.false_ne_true
    apply clean_squeeze
    · intro line hline
      rcases List.mem_cons.1 hline with rfl | hline
      · exact ⟨fun hbreak => hlines first List.mem_cons_self (Text.mem_of_mem_trim hbreak),
          Text.endsBlank_trimEnd _⟩
      · exact lines_dedentAll (fun l hl => hlines l (List.mem_cons_of_mem _ hl)) line hline
    · exact fun heq => htrim (Option.some.inj heq)
    · rw [List.getLast?_cons]
      have hdedent := getLast?_dedentAll hrest
      cases hlines' : (dedentAll rest).getLast? with
      | none => exact fun heq => htrim (Option.some.inj heq)
      | some line =>
        rw [hlines'] at hdedent
        exact hdedent

theorem normalize_ne_nil {s : Text} (h : Text.allBlank s = false) : normalize s ≠ [] := by
  intro hnil
  have hvisible := visible_normalize s
  rw [hnil, List.flatMap_nil, eq_comm, Text.visible_eq_nil_iff_allBlank, h] at hvisible
  cases hvisible

end LineBlock

/-! ## Laid out lines -/

/-- Clean lines can be laid out after one line break, and after two if the first line is not
empty. -/
theorem breaksAfterAll_lines {ls : List Text} (hne : ls ≠ [])
    (hlines : ∀ line ∈ ls, '\n' ∉ line ∧ Text.endsBlank line = false)
    (hlast : ls.getLast? ≠ some [])
    (hapart : ls.IsChain fun line next => line = [] → next ≠ []) {k : Nat} (hk : k ≤ 2)
    (hfirst : ls.head? = some [] → k ≤ 1) :
    Doc.breaksAfterAll k ((ls.map Doc.ofText).intersperse Doc.hardLine) = some 0 := by
  have hsolid : ∀ line ∈ ls, line ≠ [] → (Doc.ofText line).Solid := by
    intro line hline hline'
    obtain ⟨hbreak, hend⟩ := hlines line hline
    exact Doc.solid_ofText hbreak (Text.all_space_of_endsBlank hend hline')
  -- the induction is on the lines, from any count of line breaks that the first of them allows
  induction ls generalizing k with
  | nil => exact absurd rfl hne
  | cons line rest ih =>
    cases rest with
    | nil =>
      have hline : line ≠ [] := fun heq => hlast (congrArg some heq)
      rw [List.map_singleton, List.intersperse_singleton, Doc.breaksAfterAll_singleton]
      exact hsolid line List.mem_cons_self hline k hk
    | cons next others =>
      obtain ⟨hnext, hapart'⟩ := List.isChain_cons_cons.1 hapart
      rw [List.getLast?_cons_cons] at hlast
      have hrest := fun k hk hfirst => ih (List.cons_ne_nil next others)
        (fun l hl => hlines l (List.mem_cons_of_mem _ hl)) hlast hapart' (k := k) hk hfirst
        fun l hl => hsolid l (List.mem_cons_of_mem _ hl)
      rw [List.map_cons, List.map_cons, List.intersperse_cons_cons, ← List.map_cons]
      by_cases hline : line = []
      · -- an empty line adds its line break to those before it
        subst hline
        have hk' : k < 2 := Nat.lt_succ_of_le (hfirst rfl)
        rw [Doc.breaksAfterAll, show Doc.ofText [] = .nil from rfl, Doc.breaksAfter_nil,
          Option.bind_some, Doc.breaksAfterAll, Doc.breaksAfter_hardLine hk', Option.bind_some]
        exact hrest (k + 1) hk' fun hhead =>
          absurd (Option.some.inj hhead) (hnext rfl)
      · rw [(hsolid line List.mem_cons_self hline).breaksAfterAll hk, Doc.breaksAfterAll,
          Doc.breaksAfter_hardLine (by decide), Option.bind_some]
        exact hrest 1 (by decide) fun _ => Nat.le_refl 1

/-- The block of a text that is not blank is solid. -/
theorem solid_blockDoc {s : Text} (h : Text.allBlank s = false) : (blockDoc s).Solid := by
  intro k hk
  have hclean := LineBlock.clean_normalize s
  rw [blockDoc, Doc.ofLines, Doc.breaksAfter_seq]
  exact breaksAfterAll_lines (LineBlock.normalize_ne_nil h) hclean.lines hclean.last hclean.apart
    hk fun hhead => absurd hhead hclean.first

end RazorTidy
