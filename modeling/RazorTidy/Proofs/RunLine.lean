import RazorTidy.Proofs.OneLine

/-!
# Runs on one line

The blanks between the pieces of a run are neither lost nor added to. A run can be written down
without any layout, its pieces one after the other (`Inline.spelledAll`); only an empty text inside
it counts as a space there. Wherever the run is printed, what is printed is this text up to the
lengths of blanks and the blanks at its ends (`Inline.trim_collapse_write`).

Each piece is laid out as itself (`respaced_textDoc`, `Inline.respaced_doc`), so the layout of a run
on one line is known. Printing it takes no space back from what stands before the run, since a run
starts a line only behind something visible (`Inline.led_runDoc`).
-/

set_option autoImplicit false

namespace RazorTidy

namespace Text

theorem exists_trim_append (s : Text) :
    ∃ front back, allBlank front = true ∧ allBlank back = true ∧ s = front ++ trim s ++ back := by
  obtain ⟨back, hback, hend⟩ := exists_trimEnd_append (trimStart s)
  refine ⟨s.takeWhile isBlank, back, ?_, List.all_eq_true.2 hback, ?_⟩
  · exact List.all_eq_true.2 fun c hc => List.mem_takeWhile_imp hc
  · rw [List.append_assoc, trim, ← hend, trimStart, List.takeWhile_append_dropWhile]

theorem startsVisible_trim {s : Text} (h : allBlank s = false) : StartsVisible (trim s) := by
  cases htrim : trim s with
  | nil =>
    rw [trim_eq_nil_iff, h] at htrim
    cases htrim
  | cons c r =>
    refine ⟨c, r, rfl, isBlank_head_of_trim (r := r) ?_⟩
    rw [← htrim, trim_trim]

theorem StartsVisible.append {s : Text} (h : StartsVisible s) (t : Text) :
    StartsVisible (s ++ t) := by
  obtain ⟨c, r, rfl, hc⟩ := h
  exact ⟨c, r ++ t, rfl, hc⟩

theorem StartsVisible.endsBlank_append {s : Text} (h : StartsVisible s) (front : Text)
    (hs : endsBlank s = false) : endsBlank (front ++ s) = false := by
  obtain ⟨c, r, rfl, -⟩ := h
  rw [endsBlank, List.reverse_append]
  rw [endsBlank] at hs
  cases hreverse : (c :: r).reverse with
  | nil => cases List.reverse_eq_nil_iff.1 hreverse
  | cons d u =>
    rw [hreverse] at hs
    exact hs

theorem trimEnd_trim (s : Text) : trimEnd (trim s) = trim s :=
  trimEnd_of_endsBlank (endsBlank_trimEnd _)

end Text

/-! ## Texts -/

/-- A space, where one is to be put. -/
def pad (present : Bool) : Text := if present then [' '] else []

theorem respaced_pad_trailing {content core back : Text} (hcore : Text.endsBlank core = false)
    (hback : Text.allBlank back = true) (heq : content = core ++ back) (atEnd : Bool) :
    Text.Respaced (pad (!atEnd && Text.endsBlank content) ++ pad atEnd) (back ++ pad atEnd) := by
  cases atEnd with
  | true => exact (Text.respaced_append_space hback).symm
  | false =>
    have hends : Text.endsBlank content = !back.isEmpty := by
      rw [heq, Text.endsBlank, List.reverse_append]
      cases hreverse : back.reverse with
      | nil =>
        rw [List.reverse_eq_nil_iff.1 hreverse]
        exact hcore
      | cons c r =>
        have hc : c ∈ back := List.mem_reverse.1 (hreverse ▸ List.mem_cons_self)
        cases back with
        | nil => cases hc
        | cons d rest => exact List.all_eq_true.1 hback c hc
    cases back with
    | nil =>
      rw [hends]
      exact Text.Respaced.refl _
    | cons d rest =>
      rw [hends]
      exact (Text.respaced_space (List.cons_ne_nil d rest) hback).symm.append_right []

theorem respaced_pad_leading {content core front : Text} (hcore : Text.StartsVisible core)
    (hfront : Text.allBlank front = true) (heq : content = front ++ core) (atStart : Bool) :
    Text.Respaced (pad atStart ++ pad (!atStart && Text.startsBlank content))
      (pad atStart ++ front) := by
  cases atStart with
  | true => exact (Text.respaced_space_append hfront).symm
  | false =>
    obtain ⟨c, r, rfl, hc⟩ := hcore
    cases front with
    | nil =>
      have hstarts : Text.startsBlank content = false := by rw [heq]; exact hc
      rw [hstarts]
      exact Text.Respaced.refl _
    | cons d rest =>
      have hd : Text.startsBlank content = true := by
        rw [heq]
        exact List.all_eq_true.1 hfront d List.mem_cons_self
      rw [hd]
      exact (Text.respaced_space (List.cons_ne_nil d rest) hfront).symm

/-- A text with something visible is laid out as its block, with a space for the blanks on a side
where it is not at the end of its run. -/
theorem flat_textDoc (container : Container) (atStart atEnd : Bool) {content : Text}
    (h : Text.allBlank content = false) :
    (textDoc container atStart atEnd content).flat =
      pad (!atStart && Text.startsBlank content) ++ (blockDoc (Text.trim content)).flat ++
        pad (!atEnd && Text.endsBlank content) := by
  have hcore : (Text.trim content).isEmpty = false := by
    rw [← Bool.not_eq_true, List.isEmpty_iff, Text.trim_eq_nil_iff, h]
    exact Bool.false_ne_true
  have hleading : (if (!atStart && Text.startsBlank content) = true then Doc.ofText [' ']
      else Doc.nil).flat = pad (!atStart && Text.startsBlank content) := by
    rw [pad]
    split
    · exact Doc.flat_ofText _
    · exact Doc.flat_nil
  have htrailing : (if (atEnd || !Text.endsBlank content) = true then Doc.nil
      else if container = .block ∧ endsInLineComment (Text.trim content) = true then Doc.hardLine
      else Doc.ofText [' ']).flat = pad (!atEnd && Text.endsBlank content) := by
    have hnot : (!atEnd && Text.endsBlank content) = !(atEnd || !Text.endsBlank content) := by
      rw [Bool.not_or, Bool.not_not]
    rw [hnot, pad]
    cases atEnd || !Text.endsBlank content with
    | true => exact Doc.flat_nil
    | false =>
      rw [if_neg Bool.false_ne_true]
      split
      · exact Doc.flat_hardLine
      · exact Doc.flat_ofText _
  rw [textDoc]
  dsimp only
  rw [hcore, if_neg Bool.false_ne_true, Doc.flat_seq, List.flatMap_cons, List.flatMap_cons,
    List.flatMap_singleton, hleading, htrailing, List.append_assoc]

/-- A text laid out reads like the text, with blanks on the sides where it is at the end of its
run. -/
theorem respaced_textDoc (container : Container) (atStart atEnd : Bool) {content : Text}
    (hne : content ≠ []) :
    Text.Respaced (pad atStart ++ (textDoc container atStart atEnd content).flat ++ pad atEnd)
      (pad atStart ++ content ++ pad atEnd) := by
  cases hblank : Text.allBlank content with
  | true =>
    rw [textDoc, (Text.trim_eq_nil_iff content).2 hblank]
    dsimp only
    rw [List.isEmpty_nil, if_pos rfl]
    cases atStart with
    | true =>
      rw [Bool.true_or, if_pos rfl, Doc.flat_nil, List.append_nil]
      exact (Text.respaced_space_append hblank).symm.append_right _
    | false =>
      cases atEnd with
      | true =>
        rw [Bool.or_true, if_pos rfl, Doc.flat_nil]
        exact (Text.respaced_append_space hblank).symm
      | false =>
        rw [Bool.or_false, if_neg Bool.false_ne_true, Doc.flat_ofText]
        exact ((Text.respaced_space hne hblank).symm.append_right [])
  | false =>
    have hstarts := Text.startsVisible_trim hblank
    obtain ⟨front, back, hfront, hback, heq⟩ := Text.exists_trim_append content
    have hblock := respaced_blockDoc hstarts
    rw [Text.trimEnd_trim] at hblock
    have hlead := respaced_pad_leading (hstarts.append back) hfront
      (heq.trans (List.append_assoc _ _ _)) atStart
    have htrail := respaced_pad_trailing (hstarts.endsBlank_append front (Text.endsBlank_trimEnd _))
      hback heq atEnd
    rw [flat_textDoc container atStart atEnd hblank]
    conv => rhs; rw [heq]
    have hall := (hlead.append hblock).append htrail
    simpa only [List.append_assoc] using hall

namespace Inline

/-- An inline node on one line. -/
def flat : Inline → Text
  | .text content => content
  | .expression keyword => Text.trim keyword

/-- An inline node as it counts in its run: an empty text inside the run is a space. -/
def spelled (atStart atEnd : Bool) (piece : Inline) : Text :=
  if piece = .text [] then pad (!(atStart || atEnd)) else piece.flat

/-- The pieces of a run one after the other, with whether the first of them starts the run. -/
def spelledAll (atStart : Bool) : List Inline → Text
  | [] => []
  | piece :: rest => piece.spelled atStart rest.isEmpty ++ spelledAll false rest

/-- Without an empty text inside, a run is its pieces one after the other. -/
theorem spelledAll_eq_flatMap {run : List Inline}
    (h : ∀ content, .text content ∈ run.tail.dropLast → content ≠ []) :
    spelledAll true run = run.flatMap flat := by
  have hinner : ∀ run : List Inline, (∀ content, .text content ∈ run.dropLast → content ≠ []) →
      spelledAll false run = run.flatMap flat := by
    intro run
    induction run with
    | nil => exact fun _ => rfl
    | cons piece rest ih =>
      intro hrun
      cases rest with
      | nil =>
        rw [spelledAll, spelled, List.flatMap_cons]
        split
        · rename_i hpiece
          rw [hpiece]
          rfl
        · rfl
      | cons next others =>
        rw [List.dropLast_cons_cons] at hrun
        have hpiece : piece ≠ .text [] := by
          rintro rfl
          exact hrun [] List.mem_cons_self rfl
        rw [spelledAll, spelled, if_neg hpiece, List.flatMap_cons,
          ih fun content hmem => hrun content (List.mem_cons_of_mem _ hmem)]
  cases run with
  | nil => rfl
  | cons piece rest =>
    rw [spelledAll, spelled, List.flatMap_cons, hinner rest h]
    split
    · rename_i hpiece
      rw [hpiece]
      rfl
    · rfl

/-- An inline node laid out is itself, with blanks on the sides where it is at the end of its
run. -/
theorem respaced_doc (container : Container) (atStart atEnd : Bool) {piece : Inline}
    (h : ∀ keyword, piece = .expression keyword → Text.startsBlank keyword = false) :
    Text.Respaced (pad atStart ++ (piece.doc container atStart atEnd).flat ++ pad atEnd)
      (pad atStart ++ piece.spelled atStart atEnd ++ pad atEnd) := by
  cases piece with
  | text content =>
    by_cases hne : content = []
    · subst hne
      have hflat : (textDoc container atStart atEnd []).flat = pad (!(atStart || atEnd)) := by
        rw [textDoc, pad]
        cases atStart || atEnd <;> rfl
      rw [doc, hflat]
      exact Text.Respaced.refl _
    · have hpiece : Inline.text content ≠ .text [] := fun heq => hne (Inline.text.inj heq)
      rw [spelled, if_neg hpiece]
      exact respaced_textDoc container atStart atEnd hne
  | expression keyword =>
    have hstart := h keyword rfl
    have hblock : Text.Respaced (blockDoc keyword).flat (Text.trim keyword) := by
      cases keyword with
      | nil => exact Text.Respaced.refl _
      | cons c r =>
        rw [Text.trim_cons hstart, ← Text.trimEnd_cons hstart]
        exact respaced_blockDoc ⟨c, r, rfl, hstart⟩
    exact (hblock.append_left _).append_right _

/-- A run laid out is its pieces one after the other, but for the blanks at its ends. -/
theorem respacedApart_runDoc (container : Container) {run : List Inline}
    (h : ∀ keyword, .expression keyword ∈ run → Text.startsBlank keyword = false) :
    Text.RespacedApart (runDoc container run).flat (spelledAll true run) := by
  -- the induction is on the run; only its first piece may be at the start
  have hdocs : ∀ (run : List Inline) (atStart : Bool),
      (∀ keyword, .expression keyword ∈ run → Text.startsBlank keyword = false) →
        Text.Respaced (pad atStart ++ (docs container atStart run).flatMap Doc.flat ++ [' '])
          (pad atStart ++ spelledAll atStart run ++ [' ']) := by
    intro run
    induction run with
    | nil => exact fun _ _ => Text.Respaced.refl _
    | cons piece rest ih =>
      intro atStart hrun
      have hpiece : ∀ keyword, piece = .expression keyword → Text.startsBlank keyword = false :=
        fun keyword heq => hrun keyword (heq ▸ List.mem_cons_self)
      rw [docs, List.flatMap_cons, spelledAll]
      cases rest with
      | nil =>
        have hlast := respaced_doc container atStart true hpiece
        simp only [docs, spelledAll, List.flatMap_nil, List.append_nil]
        exact hlast
      | cons next others =>
        have hfirst := respaced_doc container atStart false hpiece
        have hrest := ih false fun keyword hmem => hrun keyword (List.mem_cons_of_mem _ hmem)
        have hboth := hfirst.append hrest
        simpa only [pad, Bool.false_eq_true, if_false, List.nil_append, List.append_nil,
          List.append_assoc, List.isEmpty_cons] using hboth
  have hrun := hdocs run true h
  rw [runDoc, Doc.flat_seq]
  exact hrun

/-! ## Lines in a run -/

/-- The strokes of a block start with something visible, if there are any. -/
theorem strokes_blockDoc_first {s : Text} {indent : Nat} {mode : LineMode} {ks : List Stroke}
    (h : Doc.Strokes indent mode (blockDoc s) ks) :
    ks = [] ∨ ∃ line more, ks = .put line :: more ∧ Text.visible line ≠ [] := by
  have hclean := LineBlock.clean_normalize s
  rw [blockDoc] at h
  cases hlines : LineBlock.normalize s with
  | nil =>
    rw [hlines] at h
    exact Or.inl h
  | cons line rest =>
    rw [hlines] at h hclean
    have hne : line ≠ [] := fun heq => hclean.first (congrArg some heq)
    obtain ⟨more, rfl⟩ := Doc.strokes_ofLines_first hne h
    refine Or.inr ⟨line, more, rfl, ?_⟩
    intro hvisible
    rw [Text.visible_eq_nil_iff_allBlank] at hvisible
    have hend := (hclean.lines line List.mem_cons_self).2
    have htrim := Text.trimEnd_of_allBlank hvisible
    rw [Text.trimEnd_of_endsBlank hend] at htrim
    exact hne htrim

theorem led_doc {container : Container} {atStart atEnd : Bool} {piece : Inline} {indent : Nat}
    {mode : LineMode} {ks : List Stroke}
    (h : Doc.Strokes indent mode (piece.doc container atStart atEnd) ks) : Stroke.Led ks := by
  cases piece with
  | expression keyword =>
    rcases strokes_blockDoc_first h with rfl | ⟨line, more, rfl, hline⟩
    · exact Stroke.led_nil
    · exact Stroke.led_cons_visible hline more
  | text content =>
    rw [doc, textDoc] at h
    dsimp only at h
    split at h
    · split at h
      · rw [Doc.Strokes] at h
        rw [h]
        exact Stroke.led_nil
      · rw [Doc.strokes_ofText (by simp)] at h
        rw [h]
        exact Stroke.led_nil.cons_put [' ']
    · -- the block comes before the line that its text may end with, and is not empty
      rename_i hcore
      rw [Doc.strokes_seq, Doc.StrokesAll] at h
      obtain ⟨leading, more, rfl, hleading, hmore⟩ := h
      rw [Doc.StrokesAll] at hmore
      obtain ⟨block, trailing, rfl, hblock, -⟩ := hmore
      have hled : Stroke.Led (block ++ trailing) := by
        rcases strokes_blockDoc_first hblock with rfl | ⟨line, others, rfl, hline⟩
        · have hvisible := Doc.visible_strokes _ hblock
          rw [visible_blockDoc, Text.visible_trim, List.flatMap_nil, eq_comm,
            Text.visible_eq_nil_iff_allBlank, ← Text.trim_eq_nil_iff] at hvisible
          exact absurd (List.isEmpty_iff.2 hvisible) hcore
        · exact Stroke.led_cons_visible hline _
      split at hleading
      · rw [Doc.strokes_ofText (by simp)] at hleading
        rw [hleading]
        exact hled.cons_put [' ']
      · rw [Doc.Strokes] at hleading
        rw [hleading]
        exact hled

/-- A run starts a line only behind something visible. -/
theorem led_runDoc {container : Container} {run : List Inline} {indent : Nat} {mode : LineMode}
    {ks : List Stroke} (h : Doc.Strokes indent mode (runDoc container run) ks) : Stroke.Led ks := by
  rw [runDoc, Doc.strokes_seq] at h
  generalize true = atStart at h
  induction run generalizing atStart ks with
  | nil =>
    rw [docs, Doc.strokesAll_nil] at h
    rw [h]
    exact Stroke.led_nil
  | cons piece rest ih =>
    rw [docs, Doc.StrokesAll] at h
    obtain ⟨own, more, rfl, hown, hmore⟩ := h
    exact (led_doc hown).append (ih false hmore)

/-! ## Printed runs -/

theorem flat_of_trim {run : List Inline}
    (h : ∀ keyword, .expression keyword ∈ run → Text.trim keyword = keyword) :
    run.flatMap flat = run.flatMap source := by
  apply List.flatMap_congr
  intro piece hpiece
  cases piece with
  | text content => rfl
  | expression keyword => exact h keyword hpiece

/-- A run whose keywords are trimmed is written behind what is on the page, in every container and
at every indentation and width, and the blanks between its pieces are kept: up to the lengths of
blanks and the blanks at its ends it is its pieces one after the other, where an empty text inside
the run is a space. -/
theorem trim_collapse_write (container : Container) {run : List Inline}
    (h : ∀ keyword, .expression keyword ∈ run → Text.trim keyword = keyword)
    (width indent : Nat) (mode : LineMode) (rest : Rest) (p : Page) :
    ∃ written, ((runDoc container run).write width indent mode rest p).text = p.text ++ written ∧
      Text.trim (Text.collapse written) = Text.trim (Text.collapse (spelledAll true run)) ∧
      ((∀ content, .text content ∈ run.tail.dropLast → content ≠ []) →
        Text.trim (Text.collapse written) =
          Text.trim (Text.collapse (run.flatMap source))) := by
  obtain ⟨ks, hks, hwrite⟩ :=
    Doc.exists_strokes_write width indent mode (runDoc container run) rest p
  obtain ⟨written, hwritten⟩ := p.exists_continues_drawAll (Or.inr (led_runDoc hks))
  obtain ⟨n, -, hrespaced⟩ := hwritten.respaced
  have hkeyword : ∀ keyword, .expression keyword ∈ run → Text.startsBlank keyword = false := by
    intro keyword hmem
    have htrim := h keyword hmem
    cases keyword with
    | nil => rfl
    | cons c r => exact Text.isBlank_head_of_trim htrim
  have hspelled : Text.trim (Text.collapse written) =
      Text.trim (Text.collapse (spelledAll true run)) := by
    calc Text.trim (Text.collapse written)
        = Text.trim (Text.collapse (List.replicate n ' ' ++ (runDoc container run).flat)) := by
          rw [← Doc.flat_strokes _ hks]
          exact hrespaced.apart.trim_collapse
      _ = Text.trim (Text.collapse (runDoc container run).flat) :=
          Text.trim_collapse_blanks_append (Page.allBlank_replicate_space n) _
      _ = Text.trim (Text.collapse (spelledAll true run)) :=
          (respacedApart_runDoc container hkeyword).trim_collapse
  refine ⟨written, by rw [hwrite, hwritten.text], hspelled, ?_⟩
  intro hinner
  rw [hspelled, spelledAll_eq_flatMap hinner, flat_of_trim h]

/-- A run in a brace block, with line breaks and a line comment in it, written behind the brace. -/
theorem trim_collapse_write_comment :
    let run : List Inline := [.text "\n  x".toList, .expression "@a".toList,
      .text "\t// b \n\n ".toList, .expression "@(c\n      d)".toList, .text "; ".toList]
    let p : Page := ⟨" \x7b".toList, 6, 0⟩
    (∀ keyword, .expression keyword ∈ run → Text.trim keyword = keyword) ∧
      (∀ content, .text content ∈ run.tail.dropLast → content ≠ []) ∧
      ∃ written, ((runDoc .block run).write 20 4 .broken [] p).text = p.text ++ written ∧
        Text.trim (Text.collapse written) = "x@a // b @(c d);".toList := by
  intro run p
  have hkeyword : ∀ keyword, .expression keyword ∈ run → Text.trim keyword = keyword := by
    simp only [run, List.mem_cons, reduceCtorEq, Inline.expression.injEq, List.not_mem_nil,
      or_false, false_or, forall_eq_or_imp, forall_eq]
    decide
  have hinner : ∀ content, .text content ∈ run.tail.dropLast → content ≠ [] := by
    simp only [run, List.tail_cons, List.dropLast_cons_cons, List.dropLast_singleton, List.mem_cons,
      reduceCtorEq, Inline.text.injEq, List.not_mem_nil, or_false, false_or, forall_eq]
    decide
  obtain ⟨written, htext, -, hplain⟩ := trim_collapse_write .block hkeyword 20 4 .broken [] p
  exact ⟨hkeyword, hinner, written, htext, (hplain hinner).trans (by decide)⟩

/-- An empty text between two expressions is printed as a space. -/
theorem trim_collapse_write_emptyText :
    ¬ ∀ (container : Container) (run : List Inline),
      (∀ keyword, .expression keyword ∈ run → Text.trim keyword = keyword) →
      ∀ (width indent : Nat) (mode : LineMode) (rest : Rest) (p : Page),
        ∃ written,
          ((runDoc container run).write width indent mode rest p).text = p.text ++ written ∧
          Text.trim (Text.collapse written) =
            Text.trim (Text.collapse (run.flatMap source)) := by
  intro h
  let run : List Inline := [.expression "@a".toList, .text [], .expression "@b".toList]
  have hkeyword : ∀ keyword, .expression keyword ∈ run → Text.trim keyword = keyword := by
    simp only [run, List.mem_cons, reduceCtorEq, Inline.expression.injEq, List.not_mem_nil,
      or_false, false_or, forall_eq_or_imp, forall_eq]
    decide
  obtain ⟨written, htext, hplain⟩ := h .root run hkeyword 80 0 .broken [] {}
  have hwritten : written = "@a @b".toList := htext.symm.trans (by decide)
  rw [hwritten] at hplain
  revert hplain
  decide

end Inline

end RazorTidy
