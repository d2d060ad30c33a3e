import RazorTidy.Proofs.PrintMarks

/-!
# Flat groups

A group that the printer chooses to print flat is on one line, with all groups inside it, and no
line on which a soft line was printed as a space is too wide (`Doc.flat_groups_fit`).

Both need an argument, because the printer measures each group anew. A group inside a flat one finds
the room that was measured for the outer group, less what was printed since, so it fits again
(`Doc.measure_flat_write`). The soft lines of what follows a group are measured as ends of the line,
but a later group may turn them into spaces; it then has made sure itself that the line fits up to
the next possible end. `Doc.Keeps` says that marks stay within what was measured for them, and
passing it from the end of the document to its start carries the bound along a line
(`Doc.keeps_trace`).
-/

set_option autoImplicit false

namespace RazorTidy

namespace Doc

/-! ## Measuring documents without hard lines -/

mutual
/-- Without a hard line, the answer at hard lines does not matter. -/
theorem measure_of_not_hasHardLine (mode : LineMode) (hardFits hardFits' : Bool) :
    ∀ d : Doc, hasHardLine d = false →
      ∀ left, measure hardFits mode d left = measure hardFits' mode d left
  | .nil, _, _ => rfl
  | .text s, _, _ => rfl
  | .line .hard, h, _ => by cases h
  | .line .soft, _, _ => rfl
  | .concat items, h, left => by
    rw [hasHardLine] at h
    rw [measure, measure]
    exact measureAll_of_not_anyHardLine mode hardFits hardFits' items h left
  | .indent spaces body, h, left => by
    rw [hasHardLine] at h
    rw [measure, measure]
    exact measure_of_not_hasHardLine mode hardFits hardFits' body h left
  | .group body, h, left => by
    rw [hasHardLine] at h
    rw [measure, measure]
    exact measure_of_not_hasHardLine mode hardFits hardFits' body h left
theorem measureAll_of_not_anyHardLine (mode : LineMode) (hardFits hardFits' : Bool) :
    ∀ ds : List Doc, anyHardLine ds = false →
      ∀ left, measureAll hardFits mode ds left = measureAll hardFits' mode ds left
  | [], _, _ => rfl
  | d :: ds, h, left => by
    rw [anyHardLine, Bool.or_eq_false_iff] at h
    rw [measureAll, measureAll,
      measure_of_not_hasHardLine mode hardFits hardFits' d h.1 left]
    congr 1
    funext left'
    exact measureAll_of_not_anyHardLine mode hardFits hardFits' ds h.2 left'
end

/-- A document fits if it has no hard line and there is room for it and what follows. -/
theorem fits_iff (left : Nat) (d : Doc) (rest : Rest) :
    fits left d rest = true ↔ hasHardLine d = false ∧
      ((measure true .flat d left).andThen (measureRest rest)).toBool = true := by
  constructor
  · intro h
    have hhard := hasHardLine_of_fits h
    rw [fits, measure_of_not_hasHardLine .flat false true d hhard] at h
    exact ⟨hhard, h⟩
  · rintro ⟨hhard, h⟩
    rw [fits, measure_of_not_hasHardLine .flat false true d hhard]
    exact h

/-- What follows is measured document by document. -/
theorem measureRest_cons (mode : LineMode) (d : Doc) (ds : List Doc) (rest : Rest) (left : Nat) :
    measureRest ((mode, d :: ds) :: rest) left =
      (measure true mode d left).andThen (measureRest ((mode, ds) :: rest)) := by
  rw [measureRest, measureAll, andThen_assoc]
  rfl

/-- Where there is room after some characters, they take no more than what is left. -/
theorem toBool_take_andThen {n left : Nat} {next : Nat → Measure}
    (h : ((Measure.take n left).andThen next).toBool = true) :
    n ≤ left ∧ (next (left - n)).toBool = true := by
  rw [Measure.take] at h
  split at h
  · rename_i hle
    exact ⟨hle, h⟩
  · cases h

/-! ## Flat documents -/

mutual
/-- A flat document for which there is room takes as much of it as was measured, and breaks no
line. -/
theorem measure_flat_write (width indent : Nat) :
    ∀ (d : Doc) (rest : Rest) (p : Page), hasHardLine d = false →
      ((measure true .flat d (width - p.column)).andThen (measureRest rest)).toBool = true →
        measure true .flat d (width - p.column) =
            .room (width - (write width indent .flat d rest p).column) ∧
          Mark.lineBreaks (trace width indent .flat d rest p) = 0
  | .nil, rest, p, _, _ => ⟨rfl, rfl⟩
  | .text s, rest, p, _, h => by
    rw [measure] at h
    obtain ⟨hle, -⟩ := toBool_take_andThen h
    refine ⟨?_, rfl⟩
    rw [measure, Measure.take, if_pos hle, Nat.sub_sub]
    rfl
  | .line .hard, rest, p, hhard, _ => by cases hhard
  | .line .soft, rest, p, _, h => by
    rw [measure] at h
    obtain ⟨hle, -⟩ := toBool_take_andThen h
    refine ⟨?_, rfl⟩
    rw [measure, Measure.take, if_pos hle, Nat.sub_sub]
    rfl
  | .concat items, rest, p, hhard, h => by
    rw [hasHardLine] at hhard
    rw [measure] at h
    rw [measure, write, trace]
    exact measureAll_flat_writeAll width indent items rest p hhard h
  | .indent spaces body, rest, p, hhard, h => by
    rw [hasHardLine] at hhard
    rw [measure] at h
    rw [measure, write, trace]
    exact measure_flat_write width (indent + spaces) body rest p hhard h
  | .group body, rest, p, hhard, h => by
    rw [hasHardLine] at hhard
    rw [measure] at h
    -- the group is measured again, in the room that is left for it
    have hfits : fits (width - p.column) body rest = true := (fits_iff _ _ _).2 ⟨hhard, h⟩
    obtain ⟨hroom, hbreaks⟩ := measure_flat_write width indent body rest p hhard h
    rw [measure, write, trace, if_pos hfits]
    refine ⟨hroom, ?_⟩
    rw [Mark.lineBreaks] at hbreaks ⊢
    rw [List.countP_cons, List.countP_append, hbreaks]
    rfl
theorem measureAll_flat_writeAll (width indent : Nat) :
    ∀ (ds : List Doc) (rest : Rest) (p : Page), anyHardLine ds = false →
      (measureRest ((.flat, ds) :: rest) (width - p.column)).toBool = true →
        measureAll true .flat ds (width - p.column) =
            .room (width - (writeAll width indent .flat ds rest p).column) ∧
          Mark.lineBreaks (traceAll width indent .flat ds rest p) = 0
  | [], rest, p, _, _ => ⟨rfl, rfl⟩
  | d :: ds, rest, p, hhard, h => by
    rw [anyHardLine, Bool.or_eq_false_iff] at hhard
    rw [measureRest_cons] at h
    obtain ⟨hroom, hbreaks⟩ := measure_flat_write width indent d ((.flat, ds) :: rest) p hhard.1 h
    rw [hroom] at h
    obtain ⟨hrooms, hbreaks'⟩ := measureAll_flat_writeAll width indent ds rest _ hhard.2 h
    rw [measureAll, hroom, writeAll, traceAll]
    refine ⟨hrooms, ?_⟩
    rw [Mark.lineBreaks] at hbreaks hbreaks' ⊢
    rw [List.countP_append, hbreaks, hbreaks']
end

end Doc

/-! ## Line breaks outside of flat groups -/

namespace Mark

/-- Whether no line break stands in a flat group, where `modes` are those of the groups that are
open in front of the marks. -/
def BreaksOutside (modes : List LineMode) : List Mark → Prop
  | [] => True
  | m :: ms => (m.isLineBreak = true → .flat ∉ modes) ∧ BreaksOutside (m.openAfter modes) ms

theorem breaksOutside_append (modes : List LineMode) (as bs : List Mark) :
    BreaksOutside modes (as ++ bs) ↔
      BreaksOutside modes as ∧ BreaksOutside (as.foldl openAfter modes) bs := by
  induction as generalizing modes with
  | nil => exact ⟨fun h => ⟨trivial, h⟩, And.right⟩
  | cons m ms ih =>
    rw [List.cons_append, BreaksOutside, BreaksOutside, ih, and_assoc]
    rfl

theorem breaksOutside_of_lineBreaks {ms : List Mark} (h : lineBreaks ms = 0)
    (modes : List LineMode) : BreaksOutside modes ms := by
  induction ms generalizing modes with
  | nil => trivial
  | cons m ms ih =>
    rw [lineBreaks, List.countP_eq_zero] at h
    refine ⟨fun hm => absurd hm (h m List.mem_cons_self), ih ?_ _⟩
    rw [lineBreaks, List.countP_eq_zero]
    exact fun m' hm' => h m' (List.mem_cons_of_mem _ hm')

end Mark

namespace Doc

mutual
/-- Every group that a document opens is closed after it. -/
theorem openAfter_trace (width : Nat) (modes : List LineMode) :
    ∀ (d : Doc) {indent : Nat} {mode : LineMode} {rest : Rest} {p : Page},
      (trace width indent mode d rest p).foldl Mark.openAfter modes = modes
  | .nil, _, _, _, _ => rfl
  | .text _, _, _, _, _ => rfl
  | .line .hard, _, _, _, _ => rfl
  | .line .soft, _, mode, _, _ => by cases mode <;> rfl
  | .concat items, _, _, _, _ => by
    rw [trace]
    exact openAfter_traceAll width modes items
  | .indent _ body, _, _, _, _ => by
    rw [trace]
    exact openAfter_trace width modes body
  | .group body, _, _, _, _ => by
    rw [trace, List.foldl_cons, List.foldl_append, openAfter_trace width _ body]
    rfl
theorem openAfter_traceAll (width : Nat) (modes : List LineMode) :
    ∀ (ds : List Doc) {indent : Nat} {mode : LineMode} {rest : Rest} {p : Page},
      (traceAll width indent mode ds rest p).foldl Mark.openAfter modes = modes
  | [], _, _, _, _ => rfl
  | d :: ds, _, _, _, _ => by
    rw [traceAll, List.foldl_append, openAfter_trace width modes d,
      openAfter_traceAll width modes ds]
end

mutual
/-- In a broken document, line breaks stand outside of flat groups. -/
theorem breaksOutside_trace (width : Nat) :
    ∀ (d : Doc) {indent : Nat} {rest : Rest} {p : Page} {modes : List LineMode}, .flat ∉ modes →
      Mark.BreaksOutside modes (trace width indent .broken d rest p)
  | .nil, _, _, _, _, _ => trivial
  | .text _, _, _, _, _, _ => ⟨fun htext => (by cases htext), trivial⟩
  | .line .hard, _, _, _, _, h => ⟨fun _ => h, trivial⟩
  | .line .soft, _, _, _, _, h => ⟨fun _ => h, trivial⟩
  | .concat items, _, _, _, _, h => by
    rw [trace]
    exact breaksOutside_traceAll width items h
  | .indent _ body, _, _, _, _, h => by
    rw [trace]
    exact breaksOutside_trace width body h
  | .group body, margin, rest, p, modes, h => by
    rw [trace, Mark.BreaksOutside, Mark.breaksOutside_append]
    refine ⟨fun henter => (by cases henter), ?_, fun hleave => (by cases hleave), trivial⟩
    by_cases hfits : fits (width - p.column) body rest = true
    · -- a flat group has no line break at all
      obtain ⟨hhard, hroom⟩ := (fits_iff _ _ _).1 hfits
      rw [if_pos hfits]
      exact Mark.breaksOutside_of_lineBreaks
        (measure_flat_write width margin body rest p hhard hroom).2 _
    · rw [if_neg hfits]
      refine breaksOutside_trace width body ?_
      exact List.not_mem_cons_of_ne_of_not_mem (by decide) h
theorem breaksOutside_traceAll (width : Nat) :
    ∀ (ds : List Doc) {indent : Nat} {rest : Rest} {p : Page} {modes : List LineMode},
      .flat ∉ modes → Mark.BreaksOutside modes (traceAll width indent .broken ds rest p)
  | [], _, _, _, _, _ => trivial
  | d :: ds, _, _, _, _, h => by
    rw [traceAll, Mark.breaksOutside_append, openAfter_trace]
    exact ⟨breaksOutside_trace width d h, breaksOutside_traceAll width ds h⟩
end

end Doc

/-! ## Lines with spaces -/

namespace Mark

/-- Whether, from a column on, every line with a space among the marks ends within the width. -/
def SpacesFit (width : Nat) : Nat → List Mark → Prop
  | _, [] => True
  | column, m :: ms =>
    (m = .space → column + 1 + lineRest ms ≤ width) ∧ SpacesFit width (m.columnAfter column) ms

theorem SpacesFit.of_append {width : Nat} {before after : List Mark} {p : Page}
    (h : SpacesFit width p.column (before ++ .space :: after)) :
    (p.drawMarks before).column + 1 + lineRest after ≤ width := by
  induction before generalizing p with
  | nil => exact h.1 rfl
  | cons m ms ih =>
    rw [Page.drawMarks_cons]
    apply ih
    rw [Page.column_drawAll_strokes]
    exact h.2

end Mark

namespace Doc

/-- Whether marks stay within the width if there was room for what they are the marks of. -/
def Keeps (width : Nat) (rest : Rest) (next : List Mark) (column : Nat) : Prop :=
  column ≤ width → (measureRest rest (width - column)).toBool = true →
    column + Mark.lineRest next ≤ width

/-- The end of a group takes no room. -/
theorem Keeps.leave {width column : Nat} {rest : Rest} {next : List Mark}
    (h : Keeps width rest next column) : Keeps width rest (.leave :: next) column := h

mutual
/-- A line goes on within the width if there is room up to its next possible end: whether a group on
it is flat or broken, it ends the line there or has measured it again. -/
theorem keeps_trace (width : Nat) :
    ∀ (d : Doc) {indent : Nat} {mode : LineMode} {rest : Rest} {p : Page} {next : List Mark},
      (mode = .flat → hasHardLine d = false) →
        Keeps width rest next (write width indent mode d rest p).column → p.column ≤ width →
          ((measure true mode d (width - p.column)).andThen (measureRest rest)).toBool = true →
            p.column + Mark.lineRest (trace width indent mode d rest p ++ next) ≤ width
  | .nil, _, _, _, _, _, _, hnext, hcolumn, hroom => hnext hcolumn hroom
  | .text s, _, mode, _, p, next, _, hnext, hcolumn, hroom => by
    rw [measure] at hroom
    obtain ⟨hle, hrest⟩ := toBool_take_andThen hroom
    rw [Nat.sub_sub] at hrest
    have hline := hnext (show p.column + s.length ≤ width by omega) hrest
    have hwrite : ∀ {margin rest}, (write width margin mode (.text s) rest p).column =
        p.column + s.length := rfl
    rw [hwrite] at hline
    rw [trace, List.singleton_append, Mark.lineRest]
    omega
  | .line .hard, _, _, _, p, next, _, _, hcolumn, _ => hcolumn
  | .line .soft, _, mode, _, p, next, _, hnext, hcolumn, hroom => by
    cases mode with
    | flat =>
      rw [measure] at hroom
      obtain ⟨hle, hrest⟩ := toBool_take_andThen hroom
      rw [Nat.sub_sub] at hrest
      have hline := hnext (show p.column + 1 ≤ width by omega) hrest
      have hwrite : ∀ {margin rest}, (write width margin .flat (.line .soft) rest p).column =
          p.column + 1 := rfl
      rw [hwrite] at hline
      rw [trace, List.singleton_append, Mark.lineRest]
      omega
    | broken => exact hcolumn
  | .concat items, _, _, _, _, _, hhard, hnext, hcolumn, hroom => by
    rw [hasHardLine] at hhard
    rw [measure] at hroom
    rw [write] at hnext
    rw [trace]
    exact keeps_traceAll width items hhard hnext hcolumn hroom
  | .indent _ body, _, _, _, _, _, hhard, hnext, hcolumn, hroom => by
    rw [hasHardLine] at hhard
    rw [measure] at hroom
    rw [write] at hnext
    rw [trace]
    exact keeps_trace width body hhard hnext hcolumn hroom
  | .group body, _, mode, rest, p, next, hhard, hnext, hcolumn, hroom => by
    rw [hasHardLine] at hhard
    rw [measure] at hroom
    rw [write] at hnext
    rw [trace, List.cons_append, List.append_assoc, List.singleton_append, Mark.lineRest]
    by_cases hfits : fits (width - p.column) body rest = true
    · obtain ⟨hflat, hroom'⟩ := (fits_iff _ _ _).1 hfits
      rw [if_pos hfits] at hnext ⊢
      exact keeps_trace width body (fun _ => hflat) hnext.leave hcolumn hroom'
    · -- in a flat document, the group would fit
      have hmode : mode = .broken := by
        cases mode with
        | flat => exact absurd ((fits_iff _ _ _).2 ⟨hhard rfl, hroom⟩) hfits
        | broken => rfl
      subst hmode
      rw [if_neg hfits] at hnext ⊢
      exact keeps_trace width body (fun hflat => by cases hflat) hnext.leave hcolumn hroom
theorem keeps_traceAll (width : Nat) :
    ∀ (ds : List Doc) {indent : Nat} {mode : LineMode} {rest : Rest} {p : Page}
      {next : List Mark}, (mode = .flat → anyHardLine ds = false) →
        Keeps width rest next (writeAll width indent mode ds rest p).column →
          Keeps width ((mode, ds) :: rest) (traceAll width indent mode ds rest p ++ next) p.column
  | [], _, _, _, _, _, _, hnext => hnext
  | d :: ds, _, _, _, _, _, hhard, hnext => by
    intro hcolumn hroom
    rw [measureRest_cons] at hroom
    rw [traceAll, List.append_assoc]
    have hhard' := fun hflat => Bool.or_eq_false_iff.1 (hhard hflat)
    exact keeps_trace width d (fun hflat => (hhard' hflat).1)
      (keeps_traceAll width ds (fun hflat => (hhard' hflat).2) hnext) hcolumn hroom
end

mutual
/-- The lines with spaces of a document end within the width, if those of what follows do. -/
theorem spacesFit_trace (width : Nat) :
    ∀ (d : Doc) {indent : Nat} {mode : LineMode} {rest : Rest} {p : Page} {next : List Mark},
      (mode = .flat → hasHardLine d = false ∧
        ((measure true .flat d (width - p.column)).andThen (measureRest rest)).toBool = true) →
        Keeps width rest next (write width indent mode d rest p).column →
          Mark.SpacesFit width (write width indent mode d rest p).column next →
            Mark.SpacesFit width p.column (trace width indent mode d rest p ++ next)
  | .nil, _, _, _, _, _, _, _, hspaces => hspaces
  | .text _, _, _, _, _, _, _, _, hspaces => ⟨fun htext => (by cases htext), hspaces⟩
  | .line .hard, _, _, _, _, _, _, _, hspaces => ⟨fun hline => (by cases hline), hspaces⟩
  | .line .soft, _, mode, _, p, _, hflat, hnext, hspaces => by
    cases mode with
    | flat =>
      -- the space is printed because there is room for it and for what follows
      obtain ⟨-, hroom⟩ := hflat rfl
      rw [measure] at hroom
      obtain ⟨hle, hrest⟩ := toBool_take_andThen hroom
      rw [Nat.sub_sub] at hrest
      exact ⟨fun _ => hnext (show p.column + 1 ≤ width by omega) hrest, hspaces⟩
    | broken => exact ⟨fun hline => (by cases hline), hspaces⟩
  | .concat items, _, _, _, _, _, hflat, hnext, hspaces => by
    rw [write] at hnext hspaces
    rw [trace]
    refine spacesFit_traceAll width items (fun hmode => ?_) hnext hspaces
    have hfits := hflat hmode
    rw [hasHardLine, measure] at hfits
    exact hfits
  | .indent _ body, _, _, _, _, _, hflat, hnext, hspaces => by
    rw [write] at hnext hspaces
    rw [trace]
    refine spacesFit_trace width body (fun hmode => ?_) hnext hspaces
    have hfits := hflat hmode
    rw [hasHardLine, measure] at hfits
    exact hfits
  | .group body, _, _, rest, p, next, _, hnext, hspaces => by
    rw [write] at hnext hspaces
    rw [trace, List.cons_append, List.append_assoc, List.singleton_append]
    refine ⟨fun henter => (by cases henter), ?_⟩
    refine spacesFit_trace width body (fun hmode => ?_) hnext.leave
      ⟨fun hleave => (by cases hleave), hspaces⟩
    by_cases hfits : fits (width - p.column) body rest = true
    · exact (fits_iff _ _ _).1 hfits
    · rw [if_neg hfits] at hmode
      cases hmode
theorem spacesFit_traceAll (width : Nat) :
    ∀ (ds : List Doc) {indent : Nat} {mode : LineMode} {rest : Rest} {p : Page}
      {next : List Mark},
      (mode = .flat → anyHardLine ds = false ∧
        (measureRest ((.flat, ds) :: rest) (width - p.column)).toBool = true) →
        Keeps width rest next (writeAll width indent mode ds rest p).column →
          Mark.SpacesFit width (writeAll width indent mode ds rest p).column next →
            Mark.SpacesFit width p.column (traceAll width indent mode ds rest p ++ next)
  | [], _, _, _, _, _, _, _, hspaces => hspaces
  | d :: ds, margin, mode, rest, p, next, hflat, hnext, hspaces => by
    rw [traceAll, List.append_assoc]
    have hhard : mode = .flat → hasHardLine d = false ∧ anyHardLine ds = false := fun hmode =>
      Bool.or_eq_false_iff.1 (hflat hmode).1
    have hfirst : mode = .flat → hasHardLine d = false ∧ ((measure true .flat d
        (width - p.column)).andThen (measureRest ((mode, ds) :: rest))).toBool = true := by
      rintro rfl
      obtain ⟨-, hroom⟩ := hflat rfl
      rw [measureRest_cons] at hroom
      exact ⟨(hhard rfl).1, hroom⟩
    refine spacesFit_trace width d hfirst (keeps_traceAll width ds (fun h => (hhard h).2) hnext)
      (spacesFit_traceAll width ds ?_ hnext hspaces)
    -- a flat document leaves the room that was measured for what follows it
    rintro rfl
    obtain ⟨hd, hroom⟩ := hfirst rfl
    rw [(measure_flat_write width margin d ((.flat, ds) :: rest) p hd hroom).1] at hroom
    exact ⟨(hhard rfl).2, hroom⟩
end

/-- Where the texts of a document have no line breaks, the printed document is drawn by its marks,
no line break stands in a flat group, and every line on which a soft line is printed as a space is
within the width. -/
theorem flat_groups_fit (printWidth : Nat) (d : Doc) (hd : ∀ s ∈ d.texts, '\n' ∉ s) :
    d.render printWidth = (Page.drawMarks {} (d.marks printWidth)).text ∧
      (∀ before indent after, d.marks printWidth = before ++ .lineBreak indent :: after →
        LineMode.flat ∉ Mark.openModes before) ∧
      ∀ before after, d.marks printWidth = before ++ .space :: after →
        ∃ line, (Text.splitAtChar '\n' (d.render printWidth))[Mark.lineBreaks before]? =
            some line ∧ line.length ≤ lineWidth printWidth := by
  refine ⟨render_eq_drawMarks printWidth d, ?_, ?_⟩
  · intro before indent after hmarks
    have houtside : Mark.BreaksOutside [] (d.marks printWidth) :=
      breaksOutside_trace (lineWidth printWidth) d List.not_mem_nil
    rw [hmarks, Mark.breaksOutside_append] at houtside
    exact houtside.2.1 rfl
  · intro before after hmarks
    have htexts : ∀ s, .text s ∈ before ++ .space :: after → '\n' ∉ s := fun s hs =>
      hd s (mem_texts_of_mem_trace d (hmarks ▸ hs))
    have hspaces : Mark.SpacesFit (lineWidth printWidth) (Page.column {})
        (d.marks printWidth ++ []) :=
      spacesFit_trace (lineWidth printWidth) d (fun hmode => by cases hmode) (fun hle _ => hle)
        trivial
    rw [List.append_nil, hmarks] at hspaces
    obtain ⟨line, hline, hlength⟩ := Page.exists_line_drawMarks
      (fun s hs => htexts s (List.mem_append_left _ hs))
      (fun s hs => htexts s (List.mem_append_right _ (List.mem_cons_of_mem _ hs)))
    rw [render_eq_drawMarks, hmarks]
    exact ⟨line, hline, Nat.le_trans hlength hspaces.of_append⟩

/-- A group inside a group, a text, a group whose soft line stays on the line, and one whose soft
line does not. -/
def nestedGroups : Doc :=
  .concat
    [.group (.concat
      [.text "aaaa".toList, .line .soft,
       .group (.concat [.text "bb".toList, .line .soft, .text "cc".toList])]),
     .text "dddd".toList,
     .group (.concat [.line .soft, .text "f".toList]),
     .group (.indent 2 (.concat [.line .soft, .text "eeeeeeeeee".toList]))]

theorem flat_groups_fit_nestedGroups :
    (∀ s ∈ nestedGroups.texts, '\n' ∉ s) ∧
      nestedGroups.render 20 = "aaaa bb ccdddd f\n  eeeeeeeeee".toList ∧
      LineMode.flat ∉ Mark.openModes ((nestedGroups.marks 20).take 15) ∧
      ∃ line, (Text.splitAtChar '\n' (nestedGroups.render 20))[0]? = some line ∧
        line.length ≤ 20 := by
  have htexts : ∀ s ∈ nestedGroups.texts, '\n' ∉ s := by decide
  obtain ⟨-, hbreaks, hspaces⟩ := flat_groups_fit 20 nestedGroups htexts
  refine ⟨htexts, by decide, hbreaks _ 2 ((nestedGroups.marks 20).drop 16) (by decide), ?_⟩
  -- the space of the third group
  exact hspaces ((nestedGroups.marks 20).take 11) ((nestedGroups.marks 20).drop 12) (by decide)

end Doc

end RazorTidy
