import RazorTidy.Proofs.OneLine
import Mathlib.Data.List.Chain

/-!
# Blocks under indentation

The printer puts the lines of a block behind the indentation of their surroundings. When the printed
lines are made a block again, this indentation is taken off, whatever it is
(`LineBlock.normalize_reindent`): the first line of a text is trimmed and has no say in the shared
indentation, and the other lines share what they were given.

So the lines of a block are a fixed point in two ways. They have no indentation in common
(`sharedIndentation_dedentAll`), and more of it changes nothing (`dedentAll_map_shiftLine`).
-/

set_option autoImplicit false

namespace RazorTidy

namespace Text

/-! ## Lines put together -/

/-- A line that ends with neither a line feed nor a carriage return is read up to its line feed. -/
theorem lines_append_newline {line : Text} (hbreak : '\n' ∉ line)
    (hlast : line.getLast? ≠ some '\r') (rest : Text) :
    lines (line ++ '\n' :: rest) = line :: lines rest := by
  induction line with
  | nil => rw [List.nil_append, lines]
  | cons c r ih =>
    rw [List.mem_cons, not_or] at hbreak
    rw [List.cons_append]
    -- a carriage return at the front is followed by another character of the line
    cases r with
    | nil =>
      have hcr : c ≠ '\r' := fun heq => hlast (congrArg some heq)
      exact lines_cons (fun heq => hbreak.1 heq.symm) (fun _ heq => absurd heq hcr) rfl
    | cons d r' =>
      rw [List.getLast?_cons_cons] at hlast
      refine lines_cons (fun heq => hbreak.1 heq.symm) ?_ (ih hbreak.2 hlast)
      rintro rest' - heq
      rw [List.cons_append, List.cons.injEq] at heq
      exact hbreak.2 (heq.1 ▸ List.mem_cons_self)

/-- Lines that do not end with a blank are the lines of their joined text, if the last of them is
not empty. -/
theorem lines_joinWith {ls : List Text}
    (hlines : ∀ line ∈ ls, '\n' ∉ line ∧ endsBlank line = false)
    (hlast : ls.getLast? ≠ some []) : lines (joinWith ['\n'] ls) = ls := by
  induction ls with
  | nil => rfl
  | cons line rest ih =>
    obtain ⟨hbreak, hend⟩ := hlines line List.mem_cons_self
    cases rest with
    | nil =>
      have hne : line ≠ [] := fun heq => hlast (congrArg some heq)
      rw [joinWith, lines_of_no_newline line hbreak, if_neg (by simpa using hne)]
    | cons next others =>
      have hcr : line.getLast? ≠ some '\r' := by
        intro hcr
        rw [← List.head?_reverse] at hcr
        obtain ⟨r, hr⟩ := List.head?_eq_some_iff.1 hcr
        rw [endsBlank, hr] at hend
        cases hend
      rw [List.getLast?_cons_cons] at hlast
      rw [joinWith_cons _ _ (List.cons_ne_nil _ _), List.append_assoc, List.singleton_append,
        lines_append_newline hbreak hcr,
        ih (fun l hl => hlines l (List.mem_cons_of_mem _ hl)) hlast]

/-- A text that is not blank starts with some blanks and a visible character. -/
theorem exists_blanks_append {s : Text} (h : allBlank s = false) :
    ∃ blanks c r, s = blanks ++ c :: r ∧ allBlank blanks = true ∧ isBlank c = false := by
  induction s with
  | nil => cases h
  | cons c r ih =>
    cases hc : isBlank c with
    | false => exact ⟨[], c, r, rfl, rfl, hc⟩
    | true =>
      rw [allBlank, List.all_cons, hc, Bool.true_and] at h
      obtain ⟨blanks, d, r', hr, hblanks, hd⟩ := ih h
      refine ⟨c :: blanks, d, r', by rw [hr]; rfl, ?_, hd⟩
      rw [allBlank, List.all_cons, hc]
      exact hblanks

end Text

namespace LineBlock

/-! ## Indentation of a line -/

/-- A line with so many spaces in front of it; an empty line stays empty. -/
def shiftLine (k : Nat) (line : Text) : Text :=
  if line.isEmpty then [] else List.replicate k ' ' ++ line

/-- Lines with so many spaces in front of all but the first. -/
def hang (k : Nat) : List Text → List Text
  | [] => []
  | first :: rest => first :: rest.map (shiftLine k)

theorem allBlank_replicate (k : Nat) : Text.allBlank (List.replicate k ' ') = true := by
  rw [Text.allBlank, List.all_replicate]
  split
  · rfl
  · decide

theorem indentation_append {blanks : Text} (hblanks : Text.allBlank blanks = true) (line : Text) :
    indentation (blanks ++ line) = blanks.length + indentation line := by
  rw [indentation, indentation, List.takeWhile_append_of_pos (List.all_eq_true.1 hblanks),
    List.length_append]

/-- Blanks in front of a line are the first that dedenting takes off. -/
theorem dedent_append {blanks : Text} (hblanks : Text.allBlank blanks = true) (n : Nat)
    (line : Text) : dedent (blanks.length + n) (blanks ++ line) = dedent n line := by
  induction blanks with
  | nil => rw [List.length_nil, Nat.zero_add, List.nil_append]
  | cons c r ih =>
    rw [Text.allBlank, List.all_cons, Bool.and_eq_true] at hblanks
    rw [List.length_cons, Nat.add_right_comm, List.cons_append, dedent, if_pos hblanks.1]
    exact ih hblanks.2

/-- Dedenting and trimming leave nothing visible out. -/
theorem allBlank_trimEnd_dedent (n : Nat) (line : Text) :
    Text.allBlank (Text.trimEnd (dedent n line)) = Text.allBlank line := by
  rw [Bool.eq_iff_iff, ← Text.visible_eq_nil_iff_allBlank, ← Text.visible_eq_nil_iff_allBlank,
    Text.visible_trimEnd, visible_dedent]

/-- Dedenting takes off as much indentation as it is told, if there is so much. -/
theorem indentation_trimEnd_dedent {line : Text} (hline : Text.allBlank line = false) {n : Nat}
    (hn : n ≤ indentation line) :
    indentation (Text.trimEnd (dedent n line)) + n = indentation line := by
  obtain ⟨blanks, c, r, rfl, hblanks, hc⟩ := Text.exists_blanks_append hline
  have hword : ∀ t, indentation (c :: t) = 0 := by
    intro t
    rw [indentation, List.takeWhile_cons_of_neg (by simp [hc])]
    rfl
  rw [indentation_append hblanks, hword, Nat.add_zero] at hn ⊢
  -- the blanks that are taken off, and those that stay
  have htake : Text.allBlank (blanks.take n) = true :=
    List.all_eq_true.2 fun d hd => List.all_eq_true.1 hblanks d (List.mem_of_mem_take hd)
  have hdrop : Text.allBlank (blanks.drop n) = true :=
    List.all_eq_true.2 fun d hd => List.all_eq_true.1 hblanks d (List.mem_of_mem_drop hd)
  have hlength : (blanks.take n).length = n := by rw [List.length_take, Nat.min_eq_left hn]
  have hdedent : dedent n (blanks ++ c :: r) = blanks.drop n ++ c :: r := by
    have hstart := dedent_append htake 0 (blanks.drop n ++ c :: r)
    rw [hlength, Nat.add_zero, ← List.append_assoc, List.take_append_drop] at hstart
    exact hstart
  rw [hdedent, Text.trimEnd_blanks_append _ (Text.allBlank_cons hc r), Text.trimEnd_cons hc,
    indentation_append hdrop, hword, List.length_drop]
  omega

/-! ## Shared indentation -/

/-- The shared indentation is that of some line, and no line has less. -/
theorem sharedIndentation_spec {ls : List Text} (h : ∃ line ∈ ls, Text.allBlank line = false) :
    (∃ line ∈ ls, Text.allBlank line = false ∧ indentation line = sharedIndentation ls) ∧
      ∀ line ∈ ls, Text.allBlank line = false → sharedIndentation ls ≤ indentation line := by
  obtain ⟨visible, hmem, hvisible⟩ := h
  cases hmin : ((ls.filter (!Text.allBlank ·)).map indentation).min? with
  | none =>
    have hnil := List.map_eq_nil_iff.1 (List.min?_eq_none_iff.1 hmin)
    have hin : visible ∈ ls.filter (!Text.allBlank ·) :=
      List.mem_filter.2 ⟨hmem, by simp [hvisible]⟩
    rw [hnil] at hin
    cases hin
  | some n =>
    have hshared : sharedIndentation ls = n := by rw [sharedIndentation, hmin]; rfl
    obtain ⟨hn, hle⟩ := List.min?_eq_some_iff.1 hmin
    rw [hshared]
    constructor
    · obtain ⟨line, hline, heq⟩ := List.mem_map.1 hn
      obtain ⟨hline, hblank⟩ := List.mem_filter.1 hline
      exact ⟨line, hline, by simpa using hblank, heq⟩
    · intro line hline hblank
      exact hle _ (List.mem_map_of_mem (List.mem_filter.2 ⟨hline, by simp [hblank]⟩))

theorem sharedIndentation_eq {ls : List Text} {n : Nat}
    (h : ∃ line ∈ ls, Text.allBlank line = false ∧ indentation line = n)
    (hle : ∀ line ∈ ls, Text.allBlank line = false → n ≤ indentation line) :
    sharedIndentation ls = n := by
  obtain ⟨line, hline, hvisible, rfl⟩ := h
  obtain ⟨⟨least, hleast, hleastVisible, heq⟩, hall⟩ :=
    sharedIndentation_spec ⟨line, hline, hvisible⟩
  have hge := hle least hleast hleastVisible
  have hle := hall line hline hvisible
  omega

theorem sharedIndentation_of_allBlank {ls : List Text}
    (h : ∀ line ∈ ls, Text.allBlank line = true) : sharedIndentation ls = 0 := by
  have hnil : ls.filter (!Text.allBlank ·) = [] := by
    rw [List.filter_eq_nil_iff]
    intro line hline
    simp [h line hline]
  rw [sharedIndentation, hnil]
  rfl

theorem allBlank_or_exists (ls : List Text) :
    (∀ line ∈ ls, Text.allBlank line = true) ∨ ∃ line ∈ ls, Text.allBlank line = false := by
  by_cases h : ∃ line ∈ ls, Text.allBlank line = false
  · exact Or.inr h
  · refine Or.inl fun line hline => ?_
    rw [← Bool.not_eq_false]
    exact fun hvisible => h ⟨line, hline, hvisible⟩

/-- Dedented lines have no indentation in common. -/
theorem sharedIndentation_dedentAll (ls : List Text) : sharedIndentation (dedentAll ls) = 0 := by
  rcases allBlank_or_exists ls with h | h
  · apply sharedIndentation_of_allBlank
    intro line hline
    obtain ⟨raw, hraw, rfl⟩ := List.mem_map.1 hline
    rw [allBlank_trimEnd_dedent]
    exact h raw hraw
  · obtain ⟨⟨least, hleast, hvisible, heq⟩, -⟩ := sharedIndentation_spec h
    refine sharedIndentation_eq ⟨_, List.mem_map_of_mem hleast, ?_, ?_⟩ fun _ _ _ => Nat.zero_le _
    · rw [allBlank_trimEnd_dedent, hvisible]
    · have hindent := indentation_trimEnd_dedent hvisible (Nat.le_of_eq heq.symm)
      omega

/-- Empty lines have no part in the shared indentation. -/
theorem sharedIndentation_squeeze (afterEmpty : Bool) (ls : List Text) :
    sharedIndentation (squeeze afterEmpty ls) = sharedIndentation ls := by
  have hfilter : (squeeze afterEmpty ls).filter (!Text.allBlank ·) =
      ls.filter (!Text.allBlank ·) := by
    fun_induction squeeze afterEmpty ls with
    | case1 => rfl
    | case2 afterEmpty line rest h ih =>
      rw [Bool.and_eq_true, List.isEmpty_iff] at h
      rw [ih, h.1]
      rfl
    | case3 afterEmpty line rest h ih => rw [List.filter_cons, List.filter_cons, ih]
  rw [sharedIndentation, hfilter, sharedIndentation]

/-- Lines that share no indentation and do not end with blanks are dedented. -/
theorem dedentAll_eq_self {ls : List Text} (hshared : sharedIndentation ls = 0)
    (hends : ∀ line ∈ ls, Text.endsBlank line = false) : dedentAll ls = ls := by
  have hline : ∀ line ∈ ls, Text.trimEnd (dedent (sharedIndentation ls) line) = line := by
    intro line hline
    rw [hshared, dedent]
    exact Text.trimEnd_of_endsBlank (hends line hline)
  rw [dedentAll, List.map_congr_left hline, List.map_id']

/-! ## Lines behind more indentation -/

theorem shiftLine_ne_nil {line : Text} (h : line ≠ []) (k : Nat) :
    shiftLine k line = List.replicate k ' ' ++ line := by
  rw [shiftLine, if_neg (by simpa using h)]

theorem allBlank_shiftLine (k : Nat) (line : Text) :
    Text.allBlank (shiftLine k line) = Text.allBlank line := by
  rw [shiftLine]
  split
  · rename_i h
    rw [List.isEmpty_iff.1 h]
  · rw [allBlank_append, allBlank_replicate, Bool.true_and]

/-- The shared indentation of lines that are moved to the right grows by as much. -/
theorem sharedIndentation_map_shiftLine {ls : List Text}
    (h : ∃ line ∈ ls, Text.allBlank line = false) (k : Nat) :
    sharedIndentation (ls.map (shiftLine k)) = k + sharedIndentation ls := by
  have hindent : ∀ line, Text.allBlank line = false →
      indentation (shiftLine k line) = k + indentation line := by
    intro line hline
    have hne : line ≠ [] := by
      rintro rfl
      cases hline
    rw [shiftLine_ne_nil hne, indentation_append (allBlank_replicate k), List.length_replicate]
  obtain ⟨⟨least, hleast, hvisible, heq⟩, hall⟩ := sharedIndentation_spec h
  apply sharedIndentation_eq
  · refine ⟨_, List.mem_map_of_mem hleast, ?_, ?_⟩
    · rw [allBlank_shiftLine, hvisible]
    · rw [hindent least hvisible, heq]
  · intro line hline hblank
    obtain ⟨raw, hraw, rfl⟩ := List.mem_map.1 hline
    rw [allBlank_shiftLine] at hblank
    rw [hindent raw hblank]
    exact Nat.add_le_add_left (hall raw hraw hblank) k

/-- Moving lines to the right does not change what they are dedented to. -/
theorem dedentAll_map_shiftLine (k : Nat) (ls : List Text) :
    dedentAll (ls.map (shiftLine k)) = dedentAll ls := by
  have hblank : ∀ (n : Nat) {line : Text}, Text.allBlank line = true →
      Text.trimEnd (dedent n line) = [] := by
    intro n line hline
    rw [← Text.visible_eq_nil_iff_allBlank, ← visible_dedent n,
      Text.visible_eq_nil_iff_allBlank] at hline
    exact Text.trimEnd_of_allBlank hline
  rw [dedentAll, dedentAll, List.map_map]
  apply List.map_congr_left
  intro line hline
  rw [Function.comp_apply]
  cases hvisible : Text.allBlank line with
  | true => rw [hblank _ hvisible, hblank _ ((allBlank_shiftLine k line).trans hvisible)]
  | false =>
    have hne : line ≠ [] := by
      rintro rfl
      cases hvisible
    have hdedent := dedent_append (allBlank_replicate k) (sharedIndentation ls) line
    rw [List.length_replicate] at hdedent
    rw [sharedIndentation_map_shiftLine ⟨line, hline, hvisible⟩, shiftLine_ne_nil hne, hdedent]

/-- Lines that do not end with blanks keep their ends, and stay without line feeds. -/
theorem lines_map_shiftLine {ls : List Text}
    (h : ∀ line ∈ ls, '\n' ∉ line ∧ Text.endsBlank line = false) (k : Nat) :
    ∀ line ∈ ls.map (shiftLine k), '\n' ∉ line ∧ Text.endsBlank line = false := by
  intro line hline
  obtain ⟨raw, hraw, rfl⟩ := List.mem_map.1 hline
  obtain ⟨hbreak, hend⟩ := h raw hraw
  rw [shiftLine]
  split
  · exact ⟨List.not_mem_nil, rfl⟩
  · rename_i hne
    constructor
    · intro hmem
      rcases List.mem_append.1 hmem with hmem | hmem
      · exact absurd (List.eq_of_mem_replicate hmem) (by decide)
      · exact hbreak hmem
    · rw [Text.endsBlank] at hend
      rw [Text.endsBlank, List.reverse_append]
      cases hreverse : raw.reverse with
      | nil => exact absurd (by simpa using hreverse) hne
      | cons c r =>
        rw [hreverse] at hend
        exact hend

/-! ## Blocks -/

/-- Lines of which no two empty ones follow each other stay as they are. -/
theorem squeeze_eq_self {ls : List Text}
    (h : ls.IsChain fun line next => line = [] → next ≠ []) : squeeze false ls = ls := by
  -- the flag may only be set where the lines do not start with an empty one
  have hflag : ∀ afterEmpty : Bool, (afterEmpty = true → ls.head? ≠ some []) →
      squeeze afterEmpty ls = ls := by
    induction ls with
    | nil => exact fun _ _ => rfl
    | cons line rest ih =>
      intro afterEmpty hfirst
      have hkeep : (line.isEmpty && afterEmpty) = false := by
        rw [Bool.eq_false_iff, ne_eq, Bool.and_eq_true, List.isEmpty_iff, not_and]
        exact fun hline hafter => hfirst hafter (congrArg some hline)
      rw [squeeze, hkeep, if_neg Bool.false_ne_true]
      congr 1
      obtain ⟨hnext, hrest⟩ := List.isChain_cons.1 h
      apply ih hrest
      intro hline hhead
      exact hnext [] hhead (List.isEmpty_iff.1 hline) rfl
  exact hflag false fun h => by cases h

/-- The lines of a block below its first line, moved to the right, are the same block. -/
theorem squeeze_dedentAll_map_shiftLine {ls : List Text} (hshared : sharedIndentation ls = 0)
    (hends : ∀ line ∈ ls, Text.endsBlank line = false)
    (hapart : ls.IsChain fun line next => line = [] → next ≠ []) (k : Nat) :
    squeeze false (dedentAll (ls.map (shiftLine k))) = ls := by
  rw [dedentAll_map_shiftLine, dedentAll_eq_self hshared hends, squeeze_eq_self hapart]

theorem dropBlankEnd_eq_self {ls : List Text}
    (h : ∀ line, ls.getLast? = some line → Text.allBlank line = false) : dropBlankEnd ls = ls := by
  rcases List.eq_nil_or_concat ls with rfl | ⟨front, line, rfl⟩
  · rfl
  · rw [List.concat_eq_append] at h ⊢
    have hline := h line (by simp)
    rw [dropBlankEnd, List.reverse_append, List.reverse_singleton, List.singleton_append,
      List.dropWhile_cons_of_neg (by simp [hline]), List.reverse_cons, List.reverse_reverse]

/-- A line of a block is blank only if it is empty. -/
theorem allBlank_of_endsBlank {line : Text} (hend : Text.endsBlank line = false)
    (hne : line ≠ []) : Text.allBlank line = false := by
  rw [← Bool.not_eq_true]
  intro hblank
  have htrim := Text.trimEnd_of_endsBlank hend
  rw [Text.trimEnd_of_allBlank hblank] at htrim
  exact hne htrim.symm

/-- The last line stays visible behind more indentation. -/
theorem allBlank_getLast?_map_shiftLine {ls : List Text}
    (hends : ∀ line ∈ ls, Text.endsBlank line = false) (hlast : ls.getLast? ≠ some []) (k : Nat) :
    ∀ line, (ls.map (shiftLine k)).getLast? = some line → Text.allBlank line = false := by
  intro line hline
  rw [List.getLast?_map, Option.map_eq_some_iff] at hline
  obtain ⟨raw, hraw, rfl⟩ := hline
  rw [allBlank_shiftLine]
  refine allBlank_of_endsBlank (hends raw (List.mem_of_getLast? hraw)) ?_
  rintro rfl
  exact hlast hraw

/-- A block below a line break keeps its lines when they are moved to the right. -/
theorem Clean.normalize_newline {ls : List Text} (h : Clean ls)
    (hshared : sharedIndentation ls = 0) (k : Nat) :
    normalize ('\n' :: Text.joinWith ['\n'] (ls.map (shiftLine k))) = ls := by
  have hends := fun line hline => (h.lines line hline).2
  have hvisible := allBlank_getLast?_map_shiftLine hends h.last k
  have hlast : (ls.map (shiftLine k)).getLast? ≠ some [] := fun heq => by
    cases hvisible [] heq
  have hlines : Text.lines ('\n' :: Text.joinWith ['\n'] (ls.map (shiftLine k))) =
      [] :: ls.map (shiftLine k) := by
    rw [Text.lines, Text.lines_joinWith (lines_map_shiftLine h.lines k) hlast]
  rw [normalize, hlines]
  cases ls with
  | nil => rfl
  | cons first rest =>
    have hblock : dropBlankEnd ([] :: (first :: rest).map (shiftLine k)) =
        [] :: (first :: rest).map (shiftLine k) := by
      apply dropBlankEnd_eq_self
      rw [List.map_cons, List.getLast?_cons_cons, ← List.map_cons]
      exact hvisible
    have hfirst : Text.allBlank (shiftLine k first) = false := by
      rw [allBlank_shiftLine]
      exact allBlank_of_endsBlank (hends first List.mem_cons_self)
        fun heq => h.first (congrArg some heq)
    have hdrop : ((first :: rest).map (shiftLine k)).dropWhile Text.allBlank =
        (first :: rest).map (shiftLine k) := by
      rw [List.map_cons, List.dropWhile_cons_of_neg (by simp [hfirst])]
    rw [hblock]
    simp only [allBlank_nil, if_true]
    rw [hdrop, squeeze_dedentAll_map_shiftLine hshared hends h.apart]

/-- A block that starts on the first line keeps its lines when the others are moved to the right. -/
theorem Clean.normalize_hang {first : Text} {rest : List Text} (h : Clean (first :: rest))
    (htrim : Text.trim first = first) (hshared : sharedIndentation rest = 0) (k : Nat) :
    normalize (Text.joinWith ['\n'] (hang k (first :: rest))) = first :: rest := by
  have hne : first ≠ [] := fun heq => h.first (congrArg some heq)
  have hfirst : Text.allBlank first = false :=
    allBlank_of_endsBlank (h.lines first List.mem_cons_self).2 hne
  have hrest := fun line hline => h.lines line (List.mem_cons_of_mem _ hline)
  have hends := fun line hline => (hrest line hline).2
  -- the last line is the first one, or it stands further to the right
  have hvisible : ∀ line, (hang k (first :: rest)).getLast? = some line →
      Text.allBlank line = false := by
    intro line hline
    rw [hang, List.getLast?_cons, Option.some.injEq] at hline
    cases hlast : (rest.map (shiftLine k)).getLast? with
    | none =>
      rw [hlast] at hline
      rw [← hline]
      exact hfirst
    | some last =>
      rw [hlast] at hline
      refine allBlank_getLast?_map_shiftLine hends (fun heq => h.last ?_) k line (hline ▸ hlast)
      rw [List.getLast?_cons, heq]
      rfl
  have hlast : (hang k (first :: rest)).getLast? ≠ some [] := fun heq => by
    cases hvisible [] heq
  have hlines : Text.lines (Text.joinWith ['\n'] (hang k (first :: rest))) =
      hang k (first :: rest) := by
    refine Text.lines_joinWith ?_ hlast
    intro line hline
    rcases List.mem_cons.1 hline with rfl | hline
    · exact h.lines line List.mem_cons_self
    · exact lines_map_shiftLine hrest k line hline
  rw [normalize, hlines, dropBlankEnd_eq_self hvisible, hang]
  simp only [hfirst, Bool.false_eq_true, if_false]
  rw [htrim, squeeze_cons hne,
    squeeze_dedentAll_map_shiftLine hshared hends (List.isChain_cons.1 h.apart).2]

/-- What the first line of a text says about its block: if it is blank, the lines of the block share
no indentation; else it is trimmed, and the other lines share none. -/
theorem normalize_cases (s : Text) :
    (Text.allBlank ((Text.lines s).headD []) = true ∧ sharedIndentation (normalize s) = 0) ∨
      (Text.allBlank ((Text.lines s).headD []) = false ∧
        ∃ first rest, normalize s = first :: rest ∧ Text.trim first = first ∧
          sharedIndentation rest = 0) := by
  obtain ⟨blanks, hblanks⟩ : dropBlankEnd (Text.lines s) <+: Text.lines s := by
    rw [dropBlankEnd, ← List.reverse_suffix, List.reverse_reverse]
    exact List.dropWhile_suffix _
  rw [normalize]
  split
  · rename_i hnil
    refine Or.inl ⟨?_, rfl⟩
    -- all lines are blank, so the first is
    rw [dropBlankEnd, List.reverse_eq_nil_iff, List.dropWhile_eq_nil_iff] at hnil
    cases hlines : Text.lines s with
    | nil => rfl
    | cons first rest => exact hnil first (by simp [hlines])
  · rename_i first rest heq
    have hfirst : (Text.lines s).headD [] = first := by
      rw [← hblanks, heq]
      rfl
    rw [hfirst]
    cases hblank : Text.allBlank first with
    | true =>
      refine Or.inl ⟨rfl, ?_⟩
      rw [if_pos rfl, sharedIndentation_squeeze, sharedIndentation_dedentAll]
    | false =>
      refine Or.inr ⟨rfl, Text.trim first, squeeze false (dedentAll rest), ?_, Text.trim_trim first,
        ?_⟩
      · rw [if_neg Bool.false_ne_true, squeeze_cons]
        rw [ne_eq, Text.trim_eq_nil_iff, hblank]
        exact Bool.false_ne_true
      · rw [sharedIndentation_squeeze, sharedIndentation_dedentAll]

/-- Making a block of a block that was moved to the right gives the same lines: all of them are
moved where the text starts with a blank line, and all but the first where it does not. The first
and the last line of a block are not empty, no two empty lines follow each other, and no line ends
with a blank. -/
theorem normalize_reindent (s : Text) (k : Nat) :
    normalize (if Text.allBlank ((Text.lines s).headD [])
        then '\n' :: Text.joinWith ['\n'] ((normalize s).map (shiftLine k))
        else Text.joinWith ['\n'] (hang k (normalize s))) = normalize s ∧
      (normalize s).head? ≠ some [] ∧ (normalize s).getLast? ≠ some [] ∧
      ((normalize s).IsChain fun line next => line = [] → next ≠ []) ∧
      ∀ line ∈ normalize s, Text.endsBlank line = false := by
  have hclean := clean_normalize s
  refine ⟨?_, hclean.first, hclean.last, hclean.apart, fun line hline =>
    (hclean.lines line hline).2⟩
  rcases normalize_cases s with ⟨hblank, hshared⟩ | ⟨hblank, first, rest, heq, htrim, hshared⟩
  · rw [if_pos hblank, hclean.normalize_newline hshared]
  · rw [heq] at hclean ⊢
    rw [hblank, if_neg Bool.false_ne_true, hclean.normalize_hang htrim hshared]

end LineBlock

end RazorTidy
