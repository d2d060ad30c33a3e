import RazorTidy.Proofs.Isolation
import RazorTidy.Proofs.LineBlocks
import RazorTidy.Proofs.Printable
import RazorTidy.Proofs.Respacing
import RazorTidy.Proofs.Strokes

/-!
# Documents on one line

A document can be written on one line, with a space for each line break (`Doc.flat`). Up to the
lengths of blanks this is the printed document, whatever the width is (`Doc.respaced_render`): a
line break with its indentation is a run of blanks. On a page that holds something already this is
so behind what it holds, if no space of it is taken back (`Page.exists_continues_drawAll`).

The lines of a block of text, written this way, are the text without the blanks at its end
(`respaced_blockDoc`). Between blanks this holds of every text (`respacedApart_blockDoc`).
-/

set_option autoImplicit false

namespace RazorTidy

/-! ## Printed documents -/

namespace Doc

mutual
/-- A document on one line. -/
def flat : Doc → Text
  | .nil => []
  | .text s => s
  | .line _ => [' ']
  | .concat items => flatAll items
  | .indent _ body => flat body
  | .group body => flat body
/-- Documents on one line, one after the other. -/
def flatAll : List Doc → Text
  | [] => []
  | d :: rest => flat d ++ flatAll rest
end

attribute [local simp] flat flatAll in
theorem flatAll_eq_flatMap (ds : List Doc) : flatAll ds = ds.flatMap flat := by
  induction ds with
  | nil => rfl
  | cons d rest ih => simp [ih]

@[simp] theorem flat_nil : flat .nil = [] := by rw [flat]

@[simp] theorem flat_hardLine : flat hardLine = [' '] := by rw [hardLine, flat]

@[simp] theorem flat_softLine : flat softLine = [' '] := by rw [softLine, flat]

@[simp] theorem flat_ofText (s : Text) : flat (ofText s) = s := by
  rw [ofText]
  split
  · rename_i hempty
    rw [flat, List.isEmpty_iff.1 hempty]
  · rw [flat]

theorem flatMap_flat_parts (d : Doc) : d.parts.flatMap flat = flat d := by
  cases d with
  | nil => rw [flat_nil]; rfl
  | concat items => rw [flat, flatAll_eq_flatMap]; rfl
  | _ => exact List.flatMap_singleton _ _

@[simp] theorem flat_seq (ds : List Doc) : flat (seq ds) = ds.flatMap flat := by
  have hparts : (ds.flatMap parts).flatMap flat = ds.flatMap flat := by
    rw [List.flatMap_assoc]
    simp only [flatMap_flat_parts]
  rw [← hparts, seq]
  split
  · rename_i hnil
    rw [hnil, flat_nil]
    rfl
  · rename_i d hone
    rw [hone, List.flatMap_singleton]
  · rw [flat, flatAll_eq_flatMap]

@[simp] theorem flat_indentBy (spaces : Nat) (d : Doc) : flat (indentBy spaces d) = flat d := by
  rw [indentBy]
  split
  · rfl
  · rw [flat]

@[simp] theorem flat_grouped (d : Doc) : flat (grouped d) = flat d := by
  rw [grouped]
  split
  · rfl
  · rw [flat]

end Doc

/-! ## Strokes -/

namespace Stroke

/-- What a stroke adds to a line. -/
def flat : Stroke → Text
  | .put s => s
  | .newLine _ => [' ']

/-- Strokes that start a line only behind something visible. -/
def Led (ks : List Stroke) : Prop :=
  ∀ front indent back, ks = front ++ .newLine indent :: back → front.flatMap visible ≠ []

theorem led_nil : Led [] := by
  intro front indent back heq
  simp at heq

theorem Led.append {ks ls : List Stroke} (hks : Led ks) (hls : Led ls) : Led (ks ++ ls) := by
  intro front indent back heq
  rcases List.append_eq_append_iff.1 heq with ⟨more, rfl, hmore⟩ | ⟨more, rfl, hmore⟩
  · -- the line is started in the second list
    rw [List.flatMap_append]
    exact fun hnil => hls more indent back hmore (List.append_eq_nil_iff.1 hnil).2
  · cases more with
    | nil => exact absurd rfl (hls [] indent back hmore.symm)
    | cons k rest =>
      rw [List.cons_append, List.cons.injEq] at hmore
      rw [← hmore.1] at hks
      exact hks front indent rest rfl

theorem led_cons_visible {s : Text} (hs : Text.visible s ≠ []) (ks : List Stroke) :
    Led (.put s :: ks) := by
  intro front indent back heq
  cases front with
  | nil => cases heq
  | cons k rest =>
    rw [List.cons_append, List.cons.injEq] at heq
    rw [← heq.1, List.flatMap_cons]
    exact fun hnil => hs (List.append_eq_nil_iff.1 hnil).1

theorem Led.cons_put {ks : List Stroke} (h : Led ks) (s : Text) : Led (.put s :: ks) := by
  have hput : Led [.put s] := by
    intro front indent back heq
    cases front with
    | nil => cases heq
    | cons k rest => simp at heq
  exact hput.append h

theorem Led.of_append {ks ls : List Stroke} (h : Led (ks ++ ls)) : Led ks := by
  intro front indent back heq
  apply h front indent (back ++ ls)
  rw [heq, List.append_assoc, List.cons_append]

end Stroke

namespace Doc

mutual
/-- The strokes of a document make up the document on one line. -/
theorem flat_strokes :
    ∀ (d : Doc) {indent : Nat} {mode : LineMode} {ks : List Stroke}, Strokes indent mode d ks →
      ks.flatMap Stroke.flat = flat d
  | .nil, _, _, _, h => by
    rw [Strokes] at h
    rw [h, flat]
    rfl
  | .text s, _, _, _, h => by
    rw [Strokes] at h
    rw [h, flat]
    exact List.append_nil s
  | .line .hard, _, _, _, h => by
    rw [Strokes] at h
    rw [h, flat]
    rfl
  | .line .soft, _, mode, _, h => by
    rw [flat]
    cases mode with
    | flat =>
      rw [Strokes] at h
      rw [h]
      rfl
    | broken =>
      rw [Strokes] at h
      rw [h]
      rfl
  | .concat items, _, _, _, h => by
    rw [Strokes] at h
    rw [flat]
    exact flat_strokesAll items h
  | .indent spaces body, _, _, _, h => by
    rw [Strokes] at h
    rw [flat]
    exact flat_strokes body h
  | .group body, _, _, _, h => by
    rw [Strokes] at h
    rw [flat]
    rcases h with ⟨-, h⟩ | h
    · exact flat_strokes body h
    · exact flat_strokes body h
theorem flat_strokesAll :
    ∀ (ds : List Doc) {indent : Nat} {mode : LineMode} {ks : List Stroke},
      StrokesAll indent mode ds ks → ks.flatMap Stroke.flat = flatAll ds
  | [], _, _, _, h => by
    rw [StrokesAll] at h
    rw [h, flatAll]
    rfl
  | d :: rest, _, _, _, h => by
    rw [StrokesAll] at h
    obtain ⟨ks₁, ks₂, rfl, hd, hrest⟩ := h
    rw [List.flatMap_append, flatAll, flat_strokes d hd, flat_strokesAll rest hrest]
end

end Doc

namespace Page

/-- Text that stands behind the text of `p` on a page: up to the lengths of blanks it is `t`, behind
some of the indentation that `p` waits for. Indentation is pending on the page only behind a line
break, or still from `p`. -/
structure Continues (p : Page) (t : Text) (written : Text) (q : Page) : Prop where
  text : q.text = p.text ++ written
  respaced : ∃ n ≤ p.pending, Text.Respaced written (List.replicate n ' ' ++ t)
  pending : q.pending = 0 ∨ written.getLast? = some '\n' ∨ (written = [] ∧ t = [] ∧ q = p)

theorem allBlank_replicate_space (n : Nat) : Text.allBlank (List.replicate n ' ') = true := by
  rw [← Text.visible_eq_nil_iff_allBlank]
  exact Text.visible_replicate_space n

theorem Continues.put {p q : Page} {t written : Text} (h : Continues p t written q) (s : Text) :
    Continues p (t ++ s) (written ++ List.replicate q.pending ' ' ++ s) (q.put s) where
  text := by
    rw [text_put, h.text]
    simp only [List.append_assoc]
  respaced := by
    obtain ⟨n, hn, hrespaced⟩ := h.respaced
    rcases h.pending with hzero | hbreak | ⟨rfl, rfl, rfl⟩
    · refine ⟨n, hn, ?_⟩
      rw [hzero, List.replicate_zero, List.append_nil, ← List.append_assoc]
      exact hrespaced.append_right s
    · -- the indentation stands behind a line break
      refine ⟨n, hn, ?_⟩
      obtain ⟨front, rfl⟩ := List.getLast?_eq_some_iff.1 hbreak
      have hline : Text.Respaced (['\n'] ++ List.replicate q.pending ' ') ['\n'] := by
        refine (Text.respaced_space (by simp) ?_).trans
          (Text.respaced_space (by simp) (by decide)).symm
        rw [allBlank_append, allBlank_replicate_space]
        decide
      rw [← List.append_assoc]
      refine (Text.Respaced.trans ?_ hrespaced).append_right s
      rw [List.append_assoc]
      exact hline.append_left front
    · exact ⟨q.pending, Nat.le_refl _, Text.Respaced.refl _⟩
  pending := Or.inl rfl

/-- A line may be started if this takes no space back from `p`. -/
theorem Continues.newLine {p q : Page} {t written : Text} (h : Continues p t written q)
    (hfirm : p.reversed.head? ≠ some ' ' ∨ Text.visible written ≠ []) (indent : Nat) :
    ∃ written', Continues p (t ++ [' ']) written' (q.newLine indent) := by
  have hreversed : q.reversed = written.reverse ++ p.reversed := by
    have htext := congrArg List.reverse h.text
    rwa [Page.text, Page.text, List.reverse_reverse, List.reverse_append,
      List.reverse_reverse] at htext
  -- the spaces that are taken back all belong to what was written
  have hdrop : q.reversed.dropWhile (· == ' ') =
      written.reverse.dropWhile (· == ' ') ++ p.reversed := by
    rw [hreversed, List.dropWhile_append]
    split
    · rename_i hempty
      rw [List.isEmpty_iff] at hempty
      rw [hempty, List.nil_append]
      rcases hfirm with hhead | hvisible
      · cases hp : p.reversed with
        | nil => rfl
        | cons c r =>
          rw [hp] at hhead
          rw [List.dropWhile_cons_of_neg]
          simpa using hhead
      · rw [List.dropWhile_eq_nil_iff] at hempty
        refine absurd (Text.visible_eq_nil_of_forall fun c hc => ?_) hvisible
        have hspace := hempty c (List.mem_reverse.2 hc)
        rw [beq_iff_eq] at hspace
        rw [hspace]
        decide
    · rfl
  obtain ⟨n, hn, hrespaced⟩ := h.respaced
  refine ⟨(written.reverse.dropWhile (· == ' ')).reverse ++ ['\n'], ?_, ⟨n, hn, ?_⟩, ?_⟩
  · rw [Page.newLine, Page.text, Page.text, hdrop]
    simp
  · have hspaces : Text.allBlank (written.reverse.takeWhile (· == ' ')).reverse = true := by
      rw [Text.allBlank, List.all_eq_true]
      intro c hc
      have hspace := List.mem_takeWhile_imp (List.mem_reverse.1 hc)
      rw [beq_iff_eq] at hspace
      rw [hspace]
      decide
    have hwritten : written = (written.reverse.dropWhile (· == ' ')).reverse ++
        (written.reverse.takeWhile (· == ' ')).reverse := by
      rw [← List.reverse_append, List.takeWhile_append_dropWhile, List.reverse_reverse]
    have hbreak := (Text.respaced_space (List.cons_ne_nil '\n' []) (by decide)).trans
      (Text.respaced_append_space hspaces).symm
    rw [← List.append_assoc]
    refine Text.Respaced.trans ?_ (hrespaced.append_right [' '])
    conv => rhs; rw [hwritten, List.append_assoc]
    exact hbreak.append_left _
  · exact Or.inr (Or.inl List.getLast?_concat)

/-- Strokes on a page write a text behind what the page holds, and up to the lengths of blanks it is
the strokes on one line. -/
theorem exists_continues_drawAll (p : Page) {ks : List Stroke}
    (h : p.reversed.head? ≠ some ' ' ∨ Stroke.Led ks) :
    ∃ written, Continues p (ks.flatMap Stroke.flat) written (p.drawAll ks) := by
  induction ks using List.reverseRecOn with
  | nil =>
    refine ⟨[], (List.append_nil _).symm, ⟨0, Nat.zero_le _, Text.Respaced.refl _⟩, ?_⟩
    exact Or.inr (Or.inr ⟨rfl, rfl, rfl⟩)
  | append_singleton ks k ih =>
    obtain ⟨written, hwritten⟩ := ih (h.imp_right Stroke.Led.of_append)
    rw [List.flatMap_append, drawAll_append]
    cases k with
    | put s =>
      rw [List.flatMap_singleton]
      exact ⟨_, hwritten.put s⟩
    | newLine indent =>
      have hvisible := visible_drawAll p ks
      rw [hwritten.text, Text.visible_append, List.append_cancel_left_eq] at hvisible
      rw [List.flatMap_singleton]
      apply hwritten.newLine
      rw [hvisible]
      exact h.imp_right fun hled => hled ks indent [] rfl

end Page

namespace Doc

/-- A printed document is the document on one line, up to the lengths of blanks. -/
theorem respaced_render (printWidth : Nat) (d : Doc) :
    Text.Respaced (d.render printWidth) (flat d) := by
  obtain ⟨ks, hks, hrender⟩ := exists_strokes_render printWidth d
  obtain ⟨written, hwritten⟩ := @Page.exists_continues_drawAll {} ks (Or.inl (by simp))
  obtain ⟨n, hn, hrespaced⟩ := hwritten.respaced
  rw [Nat.le_zero.1 hn, List.replicate_zero, List.nil_append, flat_strokes d hks] at hrespaced
  rw [hrender, hwritten.text]
  exact hrespaced

end Doc

/-! ## Trimmed texts -/

namespace Text

theorem trimEnd_of_allBlank {s : Text} (h : allBlank s = true) : trimEnd s = [] :=
  trimEnd_append h []

/-- Blanks in front of a text stay, unless there is nothing else. -/
theorem trimEnd_blanks_append (blanks : Text) {s : Text} (h : allBlank s = false) :
    trimEnd (blanks ++ s) = blanks ++ trimEnd s := by
  have hne : trimEnd s ≠ [] := by
    intro hnil
    have hvisible := visible_trimEnd s
    rw [hnil, visible_nil, eq_comm, visible_eq_nil_iff_allBlank, h] at hvisible
    cases hvisible
  induction blanks with
  | nil => rfl
  | cons b rest ih =>
    have hrest : trimEnd (rest ++ s) ≠ [] := by
      rw [ih]
      exact fun hnil => hne (List.append_eq_nil_iff.1 hnil).2
    rw [List.cons_append, trimEnd_cons_of_ne hrest, ih, List.cons_append]

theorem allBlank_trimEnd (s : Text) : allBlank (trimEnd s) = allBlank s := by
  rw [Bool.eq_iff_iff, ← visible_eq_nil_iff_allBlank, visible_trimEnd,
    visible_eq_nil_iff_allBlank]

/-- Before a space, blanks at the end of a text do not matter. -/
theorem respaced_trimEnd_space (s : Text) : Respaced (trimEnd s ++ [' ']) (s ++ [' ']) := by
  obtain ⟨blanks, hblanks, hs⟩ := exists_trimEnd_append s
  conv => rhs; rw [hs, List.append_assoc]
  apply Respaced.append_left
  exact (respaced_append_space (List.all_eq_true.2 hblanks)).symm

/-- Behind a space, blanks in front of a text do not matter. -/
theorem respaced_space_dropBlanks {b : Text} (h : allBlank b = true) (s : Text) :
    Respaced ([' '] ++ s) ([' '] ++ (b ++ s)) := by
  rw [← List.append_assoc]
  exact ((respaced_space_append h).append_right s).symm

end Text

/-! ## Lines -/

namespace LineBlock

/-- Lines one after the other, each behind a space. -/
def spread (ls : List Text) : Text := ls.flatMap ([' '] ++ ·)

theorem spread_cons (line : Text) (rest : List Text) :
    spread (line :: rest) = [' '] ++ line ++ spread rest := List.flatMap_cons

theorem respaced_spread_map {f g : Text → Text}
    (h : ∀ line, Text.Respaced ([' '] ++ f line) ([' '] ++ g line)) (ls : List Text) :
    Text.Respaced (spread (ls.map f)) (spread (ls.map g)) := by
  induction ls with
  | nil => exact Text.Respaced.refl _
  | cons line rest ih =>
    rw [List.map_cons, List.map_cons, spread_cons, spread_cons]
    exact (h line).append ih

/-- Runs of empty lines are like one empty line. -/
theorem respaced_spread_squeeze (ls : List Text) :
    Text.Respaced (spread (squeeze false ls)) (spread ls) ∧
      Text.Respaced ([' '] ++ spread (squeeze true ls)) ([' '] ++ spread ls) := by
  induction ls with
  | nil => exact ⟨Text.Respaced.refl _, Text.Respaced.refl _⟩
  | cons line rest ih =>
    by_cases hline : line = []
    · subst hline
      have hsqueeze : squeeze true ([] :: rest) = squeeze true rest := rfl
      have hsqueeze' : squeeze false ([] :: rest) = [] :: squeeze true rest := rfl
      rw [hsqueeze, hsqueeze', spread_cons, spread_cons, List.append_nil]
      refine ⟨ih.2, ih.2.trans ?_⟩
      exact Text.respaced_space_dropBlanks (b := [' ']) (by decide) (spread rest)
    · rw [squeeze_cons hline, squeeze_cons hline, spread_cons, spread_cons]
      have hrest := ih.1.append_left ([' '] ++ line)
      exact ⟨hrest, hrest.append_left [' ']⟩

/-- What dedenting takes off is blank. -/
theorem exists_dedent_append (n : Nat) (line : Text) :
    ∃ blanks, Text.allBlank blanks = true ∧ line = blanks ++ dedent n line := by
  fun_induction dedent n line with
  | case1 line => exact ⟨[], rfl, rfl⟩
  | case2 n => exact ⟨[], rfl, rfl⟩
  | case3 n c r hc ih =>
    obtain ⟨blanks, hblanks, heq⟩ := ih
    refine ⟨c :: blanks, ?_, by rw [List.cons_append, ← heq]⟩
    rw [Text.allBlank, List.all_cons, hc]
    exact hblanks
  | case4 n c r hc => exact ⟨[], rfl, rfl⟩

theorem respaced_trimEnd_dedent (n : Nat) (line : Text) :
    Text.Respaced ([' '] ++ Text.trimEnd (dedent n line)) ([' '] ++ Text.trimEnd line) := by
  obtain ⟨blanks, hblanks, heq⟩ := exists_dedent_append n line
  cases hline : Text.allBlank (dedent n line) with
  | true =>
    have hall : Text.allBlank line = true := by
      rw [heq, allBlank_append, hblanks, hline]
      rfl
    rw [Text.trimEnd_of_allBlank hall, Text.trimEnd_of_allBlank hline]
    exact Text.Respaced.refl _
  | false =>
    conv => rhs; rw [heq, Text.trimEnd_blanks_append blanks hline]
    exact Text.respaced_space_dropBlanks hblanks _

theorem respaced_spread_dedentAll (ls : List Text) :
    Text.Respaced (spread (dedentAll ls)) (spread (ls.map Text.trimEnd)) :=
  respaced_spread_map (respaced_trimEnd_dedent _) ls

/-- Blank lines in front of others read like a space. -/
theorem respaced_spread_dropWhile {ls : List Text} (h : ∃ line ∈ ls, Text.allBlank line = false) :
    Text.Respaced (spread ((ls.dropWhile Text.allBlank).map Text.trimEnd))
      ([' '] ++ spread (ls.map Text.trimEnd)) := by
  induction ls with
  | nil =>
    obtain ⟨line, hline, -⟩ := h
    cases hline
  | cons line rest ih =>
    cases hblank : Text.allBlank line with
    | true =>
      have hrest : ∃ l ∈ rest, Text.allBlank l = false := by
        obtain ⟨l, hl, hvisible⟩ := h
        rcases List.mem_cons.1 hl with rfl | hl
        · rw [hblank] at hvisible
          cases hvisible
        · exact ⟨l, hl, hvisible⟩
      rw [List.dropWhile_cons_of_pos hblank, List.map_cons, Text.trimEnd_of_allBlank hblank,
        spread_cons, List.append_nil]
      refine (ih hrest).trans ?_
      exact Text.respaced_space_dropBlanks (b := [' ']) (by decide) _
    | false =>
      rw [List.dropWhile_cons_of_neg (by simp [hblank]), List.map_cons, spread_cons,
        List.append_assoc]
      exact Text.respaced_space_dropBlanks (b := [' ']) (by decide) _

/-- The lines of a block read like its lines before they were dedented. -/
theorem respaced_spread_normalize {s first : Text} {rest : List Text}
    (h : dropBlankEnd (Text.lines s) = first :: rest) :
    Text.Respaced (spread (normalize s)) (spread ((first :: rest).map Text.trimEnd)) := by
  rw [normalize, h]
  dsimp only
  split
  · rename_i hblank
    have hvisible : ∃ line ∈ rest, Text.allBlank line = false := by
      cases hlast : (first :: rest).getLast? with
      | none => cases List.getLast?_eq_none_iff.1 hlast
      | some line =>
        have hline := allBlank_of_getLast?_dropBlankEnd (h ▸ hlast)
        refine ⟨line, ?_, hline⟩
        rcases List.mem_cons.1 (List.mem_of_getLast? hlast) with rfl | hmem
        · rw [hblank] at hline
          cases hline
        · exact hmem
    refine (respaced_spread_squeeze _).1.trans ((respaced_spread_dedentAll _).trans ?_)
    rw [List.map_cons, Text.trimEnd_of_allBlank hblank, spread_cons, List.append_nil]
    exact respaced_spread_dropWhile hvisible
  · refine (respaced_spread_squeeze _).1.trans ?_
    rw [List.map_cons, spread_cons, spread_cons]
    refine Text.Respaced.append ?_ (respaced_spread_dedentAll rest)
    -- the first line also loses the blanks in front
    obtain ⟨blanks, hblanks, hstart⟩ : ∃ blanks, Text.allBlank blanks = true ∧
        first = blanks ++ Text.trimStart first :=
      ⟨first.takeWhile Text.isBlank, List.all_eq_true.2 fun c hc => List.mem_takeWhile_imp hc,
        List.takeWhile_append_dropWhile.symm⟩
    rename_i hfirst
    have hvisible : Text.allBlank (Text.trimStart first) = false := by
      rw [← Bool.not_eq_true, ← Text.visible_eq_nil_iff_allBlank, Text.visible_trimStart,
        Text.visible_eq_nil_iff_allBlank]
      exact hfirst
    conv => rhs; rw [hstart, Text.trimEnd_blanks_append blanks hvisible]
    exact Text.respaced_space_dropBlanks hblanks _

end LineBlock

/-! ## Lines of a text -/

namespace Text

open LineBlock (spread spread_cons dropBlankEnd)

/-- Blanks at the end of a line may be dropped before or after a character is put in front of the
line, unless it is the last line and blank. -/
theorem respaced_cons_trimEnd (c : Char) {line : Text} {rest : List Text}
    (hend : (trimEnd line :: rest).getLast? ≠ some []) :
    Respaced (c :: (trimEnd line ++ spread rest)) (trimEnd (c :: line) ++ spread rest) := by
  by_cases hline : trimEnd line = []
  · cases hblank : isBlank c with
    | false =>
      rw [trimEnd_cons hblank]
      exact Respaced.refl _
    | true =>
      -- a blank line is followed by another, which a space stands in front of
      have hnil : trimEnd (c :: line) = [] := by
        rw [trimEnd_cons_congr (t := []) hline c]
        exact trimEnd_of_allBlank (by rw [allBlank, List.all_cons, hblank]; rfl)
      cases rest with
      | nil => exact absurd (congrArg some hline) hend
      | cons next others =>
        rw [hnil, hline, List.nil_append, spread_cons, List.append_assoc]
        have hc : allBlank [c] = true := by rw [allBlank, List.all_cons, hblank]; rfl
        exact (respaced_append_space hc).append_right (next ++ spread others)
  · rw [trimEnd_cons_of_ne hline]
    exact Respaced.refl _

/-- A text that ends with something visible reads like its lines without blanks at their ends, of
which the last is not empty. -/
theorem exists_respaced_lines {s : Text} {c : Char} (hlast : s.getLast? = some c)
    (hc : isBlank c = false) :
    ∃ first rest, (lines s).map trimEnd = first :: rest ∧ (first :: rest).getLast? ≠ some [] ∧
      Respaced s (first ++ spread rest) := by
  have htail : ∀ d r, (d :: r : Text).getLast? = some c → r ≠ [] → r.getLast? = some c := by
    intro d r h hr
    exact (List.getLast?_append_of_ne_nil [d] hr).symm.trans h
  have hbreak : c ≠ '\n' := by
    rintro rfl
    exact absurd hc (by decide)
  fun_induction lines s with
  | case1 => cases hlast
  | case2 r ih =>
    have hr : r ≠ [] := by
      rintro rfl
      exact hbreak (Option.some.inj hlast).symm
    obtain ⟨first, rest, heq, hend, hrespaced⟩ := ih (htail _ _ (htail _ _ hlast (by simp)) hr)
    refine ⟨[], first :: rest, by rw [List.map_cons, heq]; rfl, hend, ?_⟩
    rw [List.nil_append, spread_cons, List.append_assoc]
    exact (respaced_space (s := ['\r', '\n']) (by simp) (by decide)).append hrespaced
  | case3 r ih =>
    have hr : r ≠ [] := by
      rintro rfl
      exact hbreak (Option.some.inj hlast).symm
    obtain ⟨first, rest, heq, hend, hrespaced⟩ := ih (htail _ _ hlast hr)
    refine ⟨[], first :: rest, by rw [List.map_cons, heq]; rfl, hend, ?_⟩
    rw [List.nil_append, spread_cons, List.append_assoc]
    exact (respaced_space (s := ['\n']) (by simp) (by decide)).append hrespaced
  | case4 d r hdr hd hlines ih =>
    have hr : r = [] := by
      by_contra hr
      obtain ⟨first, rest, heq, -⟩ := ih (htail d r hlast hr)
      rw [hlines] at heq
      cases heq
    subst hr
    have hdc : d = c := Option.some.inj hlast
    subst hdc
    refine ⟨[d], [], ?_, by simp, Respaced.refl _⟩
    rw [List.map_singleton, trimEnd_cons hc]
    rfl
  | case5 d r hdr hd line rest hlines ih =>
    have hr : r ≠ [] := by
      rintro rfl
      cases hlines
    obtain ⟨first, rest', heq, hend, hrespaced⟩ := ih (htail d r hlast hr)
    rw [hlines, List.map_cons, List.cons.injEq] at heq
    obtain ⟨rfl, hrest⟩ := heq
    refine ⟨trimEnd (d :: line), rest', by rw [List.map_cons, hrest], ?_,
      (hrespaced.append_left [d]).trans (respaced_cons_trimEnd d hend)⟩
    cases rest' with
    | nil =>
      have hline : trimEnd line ≠ [] := fun hnil => hend (congrArg some hnil)
      rw [trimEnd_cons_of_ne hline]
      simp
    | cons next others => exact hend

theorem lines_cons {c : Char} {r line : Text} {rest : List Text} (hc : c ≠ '\n')
    (hcr : ∀ r', c = '\r' → r ≠ '\n' :: r') (h : lines r = line :: rest) :
    lines (c :: r) = (c :: line) :: rest := by
  rw [lines, h]
  · exact hcr
  · exact hc

theorem lines_ne_nil {s : Text} (h : s ≠ []) : lines s ≠ [] := by
  fun_cases lines s with
  | case1 => exact absurd rfl h
  | case2 r => exact List.cons_ne_nil _ _
  | case3 r => exact List.cons_ne_nil _ _
  | case4 c r hcr hc hlines => exact List.cons_ne_nil _ _
  | case5 c r hcr hc line rest hlines => exact List.cons_ne_nil _ _

/-- A blank at the end of a text adds an empty line at most. -/
theorem map_trimEnd_lines_concat (s : Text) {b : Char} (hb : isBlank b = true) :
    (lines (s ++ [b])).map trimEnd = (lines s).map trimEnd ∨
      (lines (s ++ [b])).map trimEnd = (lines s).map trimEnd ++ [[]] := by
  have hblank : allBlank [b] = true := by
    rw [allBlank, List.all_cons, hb]
    rfl
  have hone : (lines [b]).map trimEnd = [[]] := by
    by_cases hbreak : b = '\n'
    · rw [hbreak]
      rfl
    · rw [lines_of_no_newline [b] (by simpa using Ne.symm hbreak)]
      exact congrArg (· :: []) (trimEnd_of_allBlank hblank)
  fun_induction lines s with
  | case1 => exact Or.inr hone
  | case2 r ih => exact ih.imp (congrArg ([] :: ·)) (congrArg ([] :: ·))
  | case3 r ih => exact ih.imp (congrArg ([] :: ·)) (congrArg ([] :: ·))
  | case4 c r hcr hc hlines ih =>
    have hr : r = [] := by
      by_contra hr
      exact lines_ne_nil hr hlines
    subst hr
    apply Or.inl
    rw [List.cons_append, List.nil_append]
    by_cases hreturn : c = '\r' ∧ b = '\n'
    · rw [hreturn.1, hreturn.2]
      decide
    · have hnext : ∀ r', c = '\r' → [b] ≠ '\n' :: r' :=
        fun r' hc' heq => hreturn ⟨hc', (List.cons.inj heq).1⟩
      cases hline : lines [b] with
      | nil => exact absurd hline (lines_ne_nil (List.cons_ne_nil b []))
      | cons line rest =>
        rw [hline, List.map_cons, List.cons.injEq, List.map_eq_nil_iff] at hone
        rw [lines_cons hc hnext hline, hone.2, List.map_singleton, List.map_singleton,
          trimEnd_cons_congr (t := []) hone.1 c]
  | case5 c r hcr hc line rest hlines ih =>
    have hr : r ≠ [] := by
      rintro rfl
      cases hlines
    have hnext : ∀ r', c = '\r' → r ++ [b] ≠ '\n' :: r' := by
      intro r' hc' heq
      cases r with
      | nil => exact hr rfl
      | cons d r'' => exact hcr r'' hc' (by rw [(List.cons.inj heq).1])
    cases hline : lines (r ++ [b]) with
    | nil => exact absurd hline (lines_ne_nil (by simp))
    | cons line' rest' =>
      rw [hlines, hline] at ih
      simp only [List.map_cons, List.cons_append, List.cons.injEq] at ih
      rw [List.cons_append, lines_cons hc hnext hline]
      simp only [List.map_cons, List.cons_append, List.cons.injEq]
      exact ih.imp (fun h => ⟨trimEnd_cons_congr h.1 c, h.2⟩)
        (fun h => ⟨trimEnd_cons_congr h.1 c, h.2⟩)

theorem dropBlankEnd_concat_nil (ls : List Text) : dropBlankEnd (ls ++ [[]]) = dropBlankEnd ls := by
  rw [dropBlankEnd, dropBlankEnd, List.reverse_append]
  rfl

theorem map_trimEnd_dropBlankEnd (ls : List Text) :
    (dropBlankEnd ls).map trimEnd = dropBlankEnd (ls.map trimEnd) := by
  have hsame : allBlank ∘ trimEnd = allBlank := funext allBlank_trimEnd
  rw [dropBlankEnd, dropBlankEnd, ← List.map_reverse, List.dropWhile_map, hsame, List.map_reverse]

/-- Blanks at the end of a text add blank lines at most. -/
theorem dropBlankEnd_lines_append (s : Text) {blanks : Text} (h : allBlank blanks = true) :
    dropBlankEnd ((lines (s ++ blanks)).map trimEnd) = dropBlankEnd ((lines s).map trimEnd) := by
  induction blanks generalizing s with
  | nil => rw [List.append_nil]
  | cons b rest ih =>
    rw [allBlank, List.all_cons, Bool.and_eq_true] at h
    rw [show s ++ b :: rest = (s ++ [b]) ++ rest by simp, ih (s ++ [b]) h.2]
    rcases map_trimEnd_lines_concat s h.1 with heq | heq
    · rw [heq]
    · rw [heq, dropBlankEnd_concat_nil]

theorem exists_getLast?_trimEnd {s : Text} (hs : allBlank s = false) :
    ∃ c, (trimEnd s).getLast? = some c ∧ isBlank c = false := by
  cases hlast : (trimEnd s).getLast? with
  | none =>
    have hall := allBlank_trimEnd s
    rw [List.getLast?_eq_none_iff.1 hlast, hs] at hall
    cases hall
  | some c => exact ⟨c, rfl, isBlank_getLast?_trimEnd hlast⟩

/-- Without blank lines at the end, the lines of a text are those of the text trimmed there. -/
theorem map_trimEnd_dropBlankEnd_lines {s : Text} (hs : allBlank s = false) :
    (dropBlankEnd (lines s)).map trimEnd = (lines (trimEnd s)).map trimEnd := by
  obtain ⟨blanks, hblanks, heq⟩ := exists_trimEnd_append s
  have hdrop := dropBlankEnd_lines_append (trimEnd s) (List.all_eq_true.2 hblanks)
  rw [← heq] at hdrop
  rw [map_trimEnd_dropBlankEnd, hdrop]
  -- the last line is not blank, so nothing is dropped
  obtain ⟨c, hlast, hc⟩ := exists_getLast?_trimEnd hs
  obtain ⟨first, rest, hlines, hend, -⟩ := exists_respaced_lines hlast hc
  rcases List.eq_nil_or_concat ((lines (trimEnd s)).map trimEnd) with hnil | ⟨front, line, hline⟩
  · rw [hnil]
    rfl
  · rw [List.concat_eq_append] at hline
    have hmem : line ∈ (lines (trimEnd s)).map trimEnd := by simp [hline]
    obtain ⟨raw, -, hraw⟩ := List.mem_map.1 hmem
    have hne : line ≠ [] := by
      rintro rfl
      rw [← hlines, hline, List.getLast?_concat] at hend
      exact hend rfl
    have hvisible : allBlank line = false := by
      by_contra hblank
      rw [Bool.not_eq_false, ← hraw, allBlank_trimEnd] at hblank
      exact hne (hraw.symm.trans (trimEnd_of_allBlank hblank))
    rw [hline, dropBlankEnd, List.reverse_append, List.reverse_singleton, List.singleton_append,
      List.dropWhile_cons_of_neg (by simp [hvisible]), List.reverse_cons, List.reverse_reverse]

/-- The first line of a text that starts visibly starts with the same character. -/
theorem exists_lines_cons {c : Char} (hc : isBlank c = false) (r : Text) :
    ∃ line rest, lines (c :: r) = (c :: line) :: rest := by
  have hne : c ≠ '\n' ∧ c ≠ '\r' := by
    constructor
    · rintro rfl
      exact absurd hc (by decide)
    · rintro rfl
      exact absurd hc (by decide)
  cases hr : lines r with
  | nil =>
    have hnil : r = [] := by
      by_contra hr'
      exact lines_ne_nil hr' hr
    rw [hnil, lines_of_no_newline [c] (by simpa using Ne.symm hne.1)]
    exact ⟨[], [], rfl⟩
  | cons line rest =>
    exact ⟨line, rest, lines_cons hne.1 (fun _ heq => absurd heq hne.2) hr⟩

theorem dropBlankEnd_cons {line : Text} (h : allBlank line = false) (rest : List Text) :
    dropBlankEnd (line :: rest) = line :: dropBlankEnd rest := by
  rw [dropBlankEnd, dropBlankEnd, List.reverse_cons, List.dropWhile_append]
  split
  · rename_i hempty
    rw [List.isEmpty_iff.1 hempty, List.dropWhile_cons_of_neg (by simp [h])]
    rfl
  · rw [List.reverse_append]
    rfl

end Text

/-! ## Blocks -/

/-- Lines laid out read like lines with a space in front of all but the first. -/
theorem flat_ofLines_cons (line : Text) (rest : List Text) :
    (Doc.ofLines (line :: rest)).flat = line ++ LineBlock.spread rest := by
  rw [Doc.ofLines, Doc.flat_seq]
  induction rest generalizing line with
  | nil =>
    rw [List.map_singleton, List.intersperse_singleton, List.flatMap_singleton, Doc.flat_ofText]
    exact (List.append_nil line).symm
  | cons next others ih =>
    rw [List.map_cons, List.map_cons, List.intersperse_cons_cons, List.flatMap_cons,
      List.flatMap_cons, ← List.map_cons, ih, Doc.flat_ofText, Doc.flat_hardLine,
      LineBlock.spread_cons, List.append_assoc]

/-- Behind a space, a block reads like its text without the blanks at its end. -/
theorem respaced_space_blockDoc {s : Text} (hs : Text.allBlank s = false) :
    Text.Respaced ([' '] ++ (blockDoc s).flat) ([' '] ++ Text.trimEnd s) := by
  obtain ⟨c, hlast, hc⟩ := Text.exists_getLast?_trimEnd hs
  obtain ⟨first, rest, hlines, -, hrespaced⟩ := Text.exists_respaced_lines hlast hc
  have hends := Text.map_trimEnd_dropBlankEnd_lines hs
  rw [hlines] at hends
  have hne : LineBlock.dropBlankEnd (Text.lines s) ≠ [] := by
    intro hnil
    rw [hnil] at hends
    cases hends
  obtain ⟨line, others, hdrop⟩ := List.exists_cons_of_ne_nil hne
  have hspread := LineBlock.respaced_spread_normalize hdrop
  rw [← hdrop, hends, LineBlock.spread_cons, List.append_assoc] at hspread
  have hblock : [' '] ++ (blockDoc s).flat = LineBlock.spread (LineBlock.normalize s) := by
    rw [blockDoc]
    cases hnormal : LineBlock.normalize s with
    | nil => exact absurd hnormal (LineBlock.normalize_ne_nil hs)
    | cons line rest =>
      rw [flat_ofLines_cons, LineBlock.spread_cons, List.append_assoc]
  rw [hblock]
  exact hspread.trans (hrespaced.append_left [' ']).symm

/-- Between blanks, a block reads like its text. -/
theorem respacedApart_blockDoc {s : Text} (hs : Text.allBlank s = false) :
    Text.RespacedApart (blockDoc s).flat s := by
  refine ((respaced_space_blockDoc hs).append_right [' ']).trans ?_
  rw [List.append_assoc, List.append_assoc]
  exact (Text.respaced_trimEnd_space s).append_left [' ']

/-- A block of a text that starts visibly reads like the text without the blanks at its end. -/
theorem respaced_blockDoc {s : Text} (hs : Text.StartsVisible s) :
    Text.Respaced (blockDoc s).flat (Text.trimEnd s) := by
  have hblank := hs.allBlank
  obtain ⟨d, hlast, hd⟩ := Text.exists_getLast?_trimEnd hblank
  obtain ⟨first, rest, hlines, -, hrespaced⟩ := Text.exists_respaced_lines hlast hd
  have hends := Text.map_trimEnd_dropBlankEnd_lines hblank
  obtain ⟨c, r, rfl, hc⟩ := hs
  obtain ⟨line, others, hcut⟩ := Text.exists_lines_cons hc r
  have hline : Text.allBlank (c :: line) = false := Text.allBlank_cons hc line
  rw [hcut, Text.dropBlankEnd_cons hline, hlines, List.map_cons, List.cons.injEq] at hends
  obtain ⟨rfl, rfl⟩ := hends
  -- the first line starts visibly, so it is only trimmed at its end
  have hnormal : LineBlock.normalize (c :: r) = Text.trimEnd (c :: line) ::
      LineBlock.squeeze false (LineBlock.dedentAll (LineBlock.dropBlankEnd others)) := by
    have hne : Text.trimEnd (c :: line) ≠ [] := by
      rw [Text.trimEnd_cons hc]
      exact List.cons_ne_nil _ _
    rw [LineBlock.normalize, hcut, Text.dropBlankEnd_cons hline]
    dsimp only
    rw [hline, if_neg Bool.false_ne_true, Text.trim_cons hc, ← Text.trimEnd_cons hc,
      LineBlock.squeeze_cons hne]
  rw [blockDoc, hnormal, flat_ofLines_cons]
  refine Text.Respaced.trans ?_ hrespaced.symm
  apply Text.Respaced.append_left
  exact (LineBlock.respaced_spread_squeeze _).1.trans (LineBlock.respaced_spread_dedentAll _)

end RazorTidy
