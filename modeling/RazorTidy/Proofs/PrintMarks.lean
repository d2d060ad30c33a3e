import RazorTidy.Proofs.Strokes

/-!
# Marks of a print run

The strokes of the printer do not say what they were drawn for: a space may come from a text or from
a soft line, and the choice made for a group does not show at all. The marks of a run do
(`Doc.trace`): each text, each soft line that became a space, each line that became a line break,
and where a group starts and ends with the mode chosen for it. The strokes of the marks are those
that the printer draws (`Doc.write_eq_drawMarks`).

From the marks one can tell which groups are open (`openModes`), how many line breaks there are
before a mark (`lineBreaks`) and how far a line goes on after it (`lineRest`). The line that a mark
stands on is a line of the printed text, and is no longer than this (`Page.exists_line_drawMarks`).
-/

set_option autoImplicit false

namespace RazorTidy

/-- One thing that the printer does, with what it is done for. -/
inductive Mark where
  /-- A text is put on the line. -/
  | text (s : Text)
  /-- A soft line is printed as a space. -/
  | space
  /-- A line is printed as a line break, to be followed by so many spaces. -/
  | lineBreak (indent : Nat)
  /-- A group starts, and its soft lines are printed in this mode. -/
  | enter (mode : LineMode)
  /-- The group that started last ends. -/
  | leave
  deriving DecidableEq, Repr

namespace Mark

/-- The strokes drawn at a mark. -/
def strokes : Mark → List Stroke
  | .text s => [.put s]
  | .space => [.put [' ']]
  | .lineBreak indent => [.newLine indent]
  | .enter _ => []
  | .leave => []

/-- Whether a mark is a line break. -/
def isLineBreak : Mark → Bool
  | .lineBreak _ => true
  | _ => false

/-- The modes of the open groups after a mark, innermost first. -/
def openAfter (modes : List LineMode) : Mark → List LineMode
  | .enter mode => mode :: modes
  | .leave => modes.tail
  | _ => modes

/-- The column after a mark. -/
def columnAfter (column : Nat) : Mark → Nat
  | .text s => column + s.length
  | .space => column + 1
  | .lineBreak indent => indent
  | .enter _ => column
  | .leave => column

/-- The modes of the groups that are open after marks, innermost first. -/
def openModes (ms : List Mark) : List LineMode := ms.foldl openAfter []

/-- The number of line breaks among marks. -/
def lineBreaks (ms : List Mark) : Nat := ms.countP isLineBreak

/-- The number of characters up to the next line break. -/
def lineRest : List Mark → Nat
  | [] => 0
  | .text s :: ms => s.length + lineRest ms
  | .space :: ms => 1 + lineRest ms
  | .lineBreak _ :: _ => 0
  | .enter _ :: ms => lineRest ms
  | .leave :: ms => lineRest ms

end Mark

/-! ## Marks of a document -/

namespace Doc

mutual
/-- The marks of writing a document on a page, at an indentation and in a mode, before what is still
to be printed. -/
def trace (width indent : Nat) (mode : LineMode) : Doc → Rest → Page → List Mark
  | .nil, _, _ => []
  | .text s, _, _ => [.text s]
  | .line .hard, _, _ => [.lineBreak indent]
  | .line .soft, _, _ =>
    match mode with
    | .flat => [.space]
    | .broken => [.lineBreak indent]
  | .concat items, rest, p => traceAll width indent mode items rest p
  | .indent spaces body, rest, p => trace width (indent + spaces) mode body rest p
  | .group body, rest, p =>
    let mode' := if fits (width - p.column) body rest then .flat else .broken
    .enter mode' :: (trace width indent mode' body rest p ++ [.leave])
/-- The marks of writing documents one after the other. -/
def traceAll (width indent : Nat) (mode : LineMode) : List Doc → Rest → Page → List Mark
  | [], _, _ => []
  | d :: ds, rest, p =>
    trace width indent mode d ((mode, ds) :: rest) p ++
      traceAll width indent mode ds rest (write width indent mode d ((mode, ds) :: rest) p)
end

/-- The marks of printing a document for a configured width. -/
def marks (printWidth : Nat) (d : Doc) : List Mark :=
  d.trace (lineWidth printWidth) 0 .broken [] {}

mutual
/-- The texts of a document. -/
def texts : Doc → List Text
  | .nil => []
  | .text s => [s]
  | .line _ => []
  | .concat items => textsAll items
  | .indent _ body => texts body
  | .group body => texts body
/-- The texts of documents one after the other. -/
def textsAll : List Doc → List Text
  | [] => []
  | d :: rest => texts d ++ textsAll rest
end

end Doc

namespace Page

/-- The page after the strokes of marks. -/
def drawMarks (p : Page) (ms : List Mark) : Page := p.drawAll (ms.flatMap Mark.strokes)

theorem drawMarks_append (p : Page) (as bs : List Mark) :
    p.drawMarks (as ++ bs) = (p.drawMarks as).drawMarks bs := by
  rw [drawMarks, drawMarks, drawMarks, List.flatMap_append, drawAll_append]

theorem drawMarks_cons (p : Page) (m : Mark) (ms : List Mark) :
    p.drawMarks (m :: ms) = (p.drawAll m.strokes).drawMarks ms := by
  rw [drawMarks, drawMarks, List.flatMap_cons, drawAll_append]

theorem column_drawAll_strokes (p : Page) (m : Mark) :
    (p.drawAll m.strokes).column = m.columnAfter p.column := by
  cases m <;> rfl

end Page

namespace Doc

mutual
/-- Writing a document draws the strokes of its marks. -/
theorem write_eq_drawMarks (width indent : Nat) (mode : LineMode) :
    ∀ (d : Doc) (rest : Rest) (p : Page),
      write width indent mode d rest p = p.drawMarks (trace width indent mode d rest p)
  | .nil, rest, p => rfl
  | .text s, rest, p => rfl
  | .line .hard, rest, p => rfl
  | .line .soft, rest, p => by
    cases mode with
    | flat => rfl
    | broken => rfl
  | .concat items, rest, p => by
    rw [write, trace]
    exact writeAll_eq_drawMarks width indent mode items rest p
  | .indent spaces body, rest, p => by
    rw [write, trace]
    exact write_eq_drawMarks width (indent + spaces) mode body rest p
  | .group body, rest, p => by
    rw [write, trace, write_eq_drawMarks width indent _ body rest p, Page.drawMarks_cons,
      Page.drawMarks_append]
    rfl
/-- Writing documents draws the strokes of their marks. -/
theorem writeAll_eq_drawMarks (width indent : Nat) (mode : LineMode) :
    ∀ (ds : List Doc) (rest : Rest) (p : Page),
      writeAll width indent mode ds rest p = p.drawMarks (traceAll width indent mode ds rest p)
  | [], rest, p => rfl
  | d :: ds, rest, p => by
    rw [writeAll, traceAll, Page.drawMarks_append,
      ← write_eq_drawMarks width indent mode d ((mode, ds) :: rest) p,
      ← writeAll_eq_drawMarks width indent mode ds rest _]
end

/-- A document is printed with the strokes of its marks. -/
theorem render_eq_drawMarks (printWidth : Nat) (d : Doc) :
    d.render printWidth = (Page.drawMarks {} (d.marks printWidth)).text := by
  rw [render, write_eq_drawMarks, marks]

mutual
/-- The texts among the marks are texts of the document. -/
theorem mem_texts_of_mem_trace {width : Nat} {s : Text} :
    ∀ (d : Doc) {indent : Nat} {mode : LineMode} {rest : Rest} {p : Page},
      .text s ∈ trace width indent mode d rest p → s ∈ d.texts
  | .nil, _, _, _, _, h => by cases h
  | .text t, _, _, _, _, h => by
    rw [trace, List.mem_singleton, Mark.text.injEq] at h
    rw [texts, List.mem_singleton]
    exact h
  | .line .hard, _, _, _, _, h => by
    rw [trace, List.mem_singleton] at h
    cases h
  | .line .soft, _, mode, _, _, h => by
    cases mode <;> (rw [trace, List.mem_singleton] at h; cases h)
  | .concat items, _, _, _, _, h => by
    rw [trace] at h
    rw [texts]
    exact mem_texts_of_mem_traceAll items h
  | .indent spaces body, _, _, _, _, h => by
    rw [trace] at h
    rw [texts]
    exact mem_texts_of_mem_trace body h
  | .group body, _, _, _, _, h => by
    rw [trace, List.mem_cons, List.mem_append, List.mem_singleton] at h
    rw [texts]
    rcases h with h | h | h
    · cases h
    · exact mem_texts_of_mem_trace body h
    · cases h
theorem mem_texts_of_mem_traceAll {width : Nat} {s : Text} :
    ∀ (ds : List Doc) {indent : Nat} {mode : LineMode} {rest : Rest} {p : Page},
      .text s ∈ traceAll width indent mode ds rest p → s ∈ textsAll ds
  | [], _, _, _, _, h => by cases h
  | d :: ds, _, _, _, _, h => by
    rw [traceAll, List.mem_append] at h
    rw [textsAll, List.mem_append]
    rcases h with h | h
    · exact Or.inl (mem_texts_of_mem_trace d h)
    · exact Or.inr (mem_texts_of_mem_traceAll ds h)
end

end Doc

/-! ## Lines of a page -/

namespace Text

theorem splitAtChar_cons_self (c : Char) (r : Text) :
    splitAtChar c (c :: r) = [] :: splitAtChar c r := by
  rw [splitAtChar, if_pos rfl]

/-- The part up to the first line break. -/
theorem head?_splitAtChar {line back : Text} (hline : '\n' ∉ line)
    (hback : back = [] ∨ back.head? = some '\n') :
    (splitAtChar '\n' (line ++ back)).head? = some line := by
  induction line with
  | nil =>
    rcases hback with rfl | hback
    · rfl
    · obtain ⟨r, rfl⟩ := List.head?_eq_some_iff.1 hback
      rw [List.nil_append, splitAtChar_cons_self]
      rfl
  | cons c r ih =>
    rw [List.mem_cons, not_or] at hline
    have hr := ih hline.2
    rw [List.cons_append, splitAtChar, if_neg fun heq => hline.1 heq.symm]
    cases hparts : splitAtChar '\n' (r ++ back) with
    | nil =>
      rw [hparts] at hr
      cases hr
    | cons part parts =>
      rw [hparts, List.head?_cons, Option.some.injEq] at hr
      rw [hr]
      rfl

/-- The line behind so many line breaks. -/
theorem getElem?_splitAtChar {front line back : Text}
    (hfront : front = [] ∨ front.getLast? = some '\n') (hline : '\n' ∉ line)
    (hback : back = [] ∨ back.head? = some '\n') :
    (splitAtChar '\n' (front ++ (line ++ back)))[front.count '\n']? = some line := by
  induction front with
  | nil =>
    rw [List.count_nil, ← List.head?_eq_getElem?]
    exact head?_splitAtChar hline hback
  | cons c r ih =>
    rcases hfront with hnil | hlast
    · cases hnil
    have hr : r = [] ∧ c = '\n' ∨ r.getLast? = some '\n' := by
      cases r with
      | nil => exact Or.inl ⟨rfl, Option.some.inj hlast⟩
      | cons d r' => exact Or.inr (by rwa [List.getLast?_cons_cons] at hlast)
    rw [List.cons_append]
    by_cases hc : c = '\n'
    · subst hc
      rw [splitAtChar_cons_self, List.count_cons_self, List.getElem?_cons_succ]
      exact ih (hr.imp And.left id)
    · -- a character of an earlier line makes that line longer only
      rcases hr with ⟨-, heq⟩ | hr
      · exact absurd heq hc
      have hrest := ih (Or.inr hr)
      have hpos : 0 < r.count '\n' := List.count_pos_iff.2 (List.mem_of_getLast? hr)
      rw [splitAtChar, if_neg hc, List.count_cons_of_ne hc]
      cases hparts : splitAtChar '\n' (r ++ (line ++ back)) with
      | nil =>
        rw [hparts] at hrest
        cases hrest
      | cons part parts =>
        rw [hparts] at hrest
        obtain ⟨n, hn⟩ := Nat.exists_eq_succ_of_ne_zero (Nat.pos_iff_ne_zero.1 hpos)
        rw [hn] at hrest ⊢
        exact hrest

end Text

namespace Page

/-- A page that ends with the line `last`, behind the lines of `front` and their `n` line breaks.
The line reaches to the column of the page as soon as its indentation is written. -/
structure OnLine (n : Nat) (front last : Text) (p : Page) : Prop where
  text : p.text = front ++ last
  starts : front = [] ∨ front.getLast? = some '\n'
  count : front.count '\n' = n
  unbroken : '\n' ∉ last
  column : last.length + p.pending = p.column

theorem onLine_start : OnLine 0 [] [] {} := ⟨rfl, Or.inl rfl, rfl, List.not_mem_nil, rfl⟩

section Lines

variable {n : Nat} {front last : Text} {p : Page}

/-- A text makes the last line longer. -/
theorem OnLine.put (h : OnLine n front last p) {s : Text} (hs : '\n' ∉ s) :
    OnLine n front (last ++ List.replicate p.pending ' ' ++ s) (p.put s) where
  text := by rw [text_put, h.text, List.append_assoc, List.append_assoc, List.append_assoc]
  starts := h.starts
  count := h.count
  unbroken := by
    simp only [List.mem_append, not_or]
    refine ⟨⟨h.unbroken, fun hmem => ?_⟩, hs⟩
    exact absurd (List.eq_of_mem_replicate hmem) (by decide)
  column := by
    have hcolumn := h.column
    simp only [List.length_append, List.length_replicate, Page.put]
    omega

/-- A new line takes back the spaces at the end of the last line, and nothing before it. -/
theorem OnLine.text_newLine (h : OnLine n front last p) (indent : Nat) :
    (p.newLine indent).text = front ++ (Text.dropEndWhile (· == ' ') last ++ ['\n']) := by
  have hreversed : p.reversed = last.reverse ++ front.reverse := by
    rw [← List.reverse_append, ← h.text, Page.text, List.reverse_reverse]
  have hfront : front.reverse.dropWhile (· == ' ') = front.reverse := by
    rcases h.starts with rfl | hlast
    · rfl
    · rw [← List.head?_reverse] at hlast
      obtain ⟨r, hr⟩ := List.head?_eq_some_iff.1 hlast
      rw [hr, List.dropWhile_cons_of_neg (by decide)]
  -- a last line of spaces only is taken back up to the line break before it
  have hdrop : (last.reverse ++ front.reverse).dropWhile (· == ' ') =
      last.reverse.dropWhile (· == ' ') ++ front.reverse := by
    rw [List.dropWhile_append]
    split
    · rename_i hempty
      rw [hfront, List.isEmpty_iff.1 hempty, List.nil_append]
    · rfl
  rw [Page.newLine, Page.text, hreversed, hdrop, Text.dropEndWhile]
  simp

theorem OnLine.newLine (h : OnLine n front last p) (indent : Nat) :
    OnLine (n + 1) (p.newLine indent).text [] (p.newLine indent) where
  text := (List.append_nil _).symm
  starts := by
    rw [h.text_newLine, ← List.append_assoc, List.getLast?_concat]
    exact Or.inr rfl
  count := by
    have hkept : '\n' ∉ Text.dropEndWhile (· == ' ') last := fun hmem =>
      h.unbroken (Text.dropEndWhile_append (· == ' ') last ▸ List.mem_append_left _ hmem)
    rw [h.text_newLine, List.count_append, List.count_append, h.count,
      List.count_eq_zero_of_not_mem hkept]
    rfl
  unbroken := List.not_mem_nil
  column := Nat.zero_add indent

/-- After marks without line breaks in their texts, a page is on a line further down. -/
theorem OnLine.drawMarks (h : OnLine n front last p) {ms : List Mark}
    (hms : ∀ s, .text s ∈ ms → '\n' ∉ s) :
    ∃ front' last', OnLine (n + Mark.lineBreaks ms) front' last' (p.drawMarks ms) := by
  induction ms generalizing n front last p with
  | nil => exact ⟨front, last, h⟩
  | cons m ms ih =>
    have hrest : ∀ s, .text s ∈ ms → '\n' ∉ s := fun s hs => hms s (List.mem_cons_of_mem _ hs)
    rw [drawMarks_cons]
    cases m with
    | text s => exact ih (h.put (hms s List.mem_cons_self)) hrest
    | space => exact ih (h.put (by decide)) hrest
    | lineBreak indent =>
      have hcount : n + Mark.lineBreaks (.lineBreak indent :: ms) =
          n + 1 + Mark.lineBreaks ms := by
        rw [Mark.lineBreaks, List.countP_cons_of_pos rfl, Mark.lineBreaks]
        omega
      rw [hcount]
      exact ih (h.newLine indent) hrest
    | enter mode => exact ih h hrest
    | leave => exact ih h hrest

/-- The last line of a page goes on up to the next line break, and is then part of the text. Its
length is at most the column that the marks up to there lead to. -/
theorem OnLine.exists_line (h : OnLine n front last p) {ms : List Mark}
    (hms : ∀ s, .text s ∈ ms → '\n' ∉ s) :
    ∃ line back, (p.drawMarks ms).text = front ++ (line ++ back) ∧ '\n' ∉ line ∧
      (back = [] ∨ back.head? = some '\n') ∧ line.length ≤ p.column + Mark.lineRest ms := by
  induction ms generalizing last p with
  | nil =>
    refine ⟨last, [], ?_, h.unbroken, Or.inl rfl, ?_⟩
    · rw [List.append_nil]
      exact h.text
    · have hcolumn := h.column
      rw [Mark.lineRest]
      omega
  | cons m ms ih =>
    have hrest : ∀ s, .text s ∈ ms → '\n' ∉ s := fun s hs => hms s (List.mem_cons_of_mem _ hs)
    rw [drawMarks_cons]
    cases m with
    | text s =>
      obtain ⟨line, back, htext, hline, hback, hlength⟩ :=
        ih (h.put (hms s List.mem_cons_self)) hrest
      refine ⟨line, back, htext, hline, hback, ?_⟩
      rw [Mark.lineRest, ← Nat.add_assoc]
      exact hlength
    | space =>
      obtain ⟨line, back, htext, hline, hback, hlength⟩ := ih (h.put (s := [' ']) (by decide)) hrest
      refine ⟨line, back, htext, hline, hback, ?_⟩
      rw [Mark.lineRest, ← Nat.add_assoc]
      exact hlength
    | lineBreak indent =>
      -- the line ends here, and what is on the page up to the line break stays
      have hhead : (p.newLine indent).reversed.head? ≠ some ' ' := by simp [Page.newLine]
      obtain ⟨back, hback⟩ := prefix_drawAll hhead (ms.flatMap Mark.strokes)
      have hsplit := Text.dropEndWhile_append (· == ' ') last
      refine ⟨Text.dropEndWhile (· == ' ') last, '\n' :: back, ?_, ?_, Or.inr rfl, ?_⟩
      · show ((p.newLine indent).drawAll _).text = _
        rw [← hback, h.text_newLine]
        simp only [List.append_assoc, List.singleton_append]
      · exact fun hmem => h.unbroken (hsplit ▸ List.mem_append_left _ hmem)
      · have hlength := congrArg List.length hsplit
        have hcolumn := h.column
        rw [List.length_append] at hlength
        omega
    | enter mode => exact ih h hrest
    | leave => exact ih h hrest

end Lines

/-- The line on which a space is printed is a line of the text, and ends before the next line
break. -/
theorem exists_line_drawMarks {before after : List Mark}
    (hbefore : ∀ s, .text s ∈ before → '\n' ∉ s) (hafter : ∀ s, .text s ∈ after → '\n' ∉ s) :
    ∃ line, (Text.splitAtChar '\n' (drawMarks {} (before ++ .space :: after)).text)[
        Mark.lineBreaks before]? = some line ∧
      line.length ≤ (drawMarks {} before).column + 1 + Mark.lineRest after := by
  obtain ⟨front, last, honLine⟩ := onLine_start.drawMarks hbefore
  have hmarks : ∀ s, .text s ∈ Mark.space :: after → '\n' ∉ s := by
    intro s hs
    rcases List.mem_cons.1 hs with hs | hs
    · cases hs
    · exact hafter s hs
  obtain ⟨line, back, htext, hline, hback, hlength⟩ := honLine.exists_line hmarks
  refine ⟨line, ?_, ?_⟩
  · have hcount := honLine.count
    rw [Nat.zero_add] at hcount
    rw [drawMarks_append, htext, ← hcount]
    exact Text.getElem?_splitAtChar honLine.starts hline hback
  · rw [Mark.lineRest] at hlength
    omega

end Page

end RazorTidy
