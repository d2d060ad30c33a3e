import RazorTidy.Proofs.ForestLine
import RazorTidy.Proofs.OpenComments
import RazorTidy.Proofs.RunStrokes

/-!
# What follows a line comment

A text or a header in a brace block may leave a line comment open. What is printed after it on the
same line would become part of the comment, so a line has to end there. `Style.lineComment_format`
says when it does: behind a text if the text ends with a blank or is the last of its run, and behind
a header if the directive has no block. A directive puts its block on the line of its header, and
there is no look at the header in between: its brace is lost to a comment
(`lineBreak_commentedHeader`).

For texts the condition holds wherever the cut of the template sees the comment, by
`Template.commentsClosed_parseBody`.
-/

set_option autoImplicit false

namespace RazorTidy

/-! ## The check for a line comment -/

namespace Text

/-- The last line of a text holds what follows its last line end. -/
theorem exists_getLast?_lines (front : Text) {s : Text} (hne : s ≠ []) (hs : '\n' ∉ s) :
    ∃ line, (lines (front ++ s)).getLast? = some line ∧ s <:+ line := by
  induction front with
  | nil =>
    have hempty : s.isEmpty = false := by simpa using hne
    rw [List.nil_append, lines_of_no_newline s hs, hempty]
    exact ⟨s, rfl, List.suffix_refl s⟩
  | cons c front ih =>
    obtain ⟨line, hlast, hline⟩ := ih
    rw [List.cons_append]
    cases hlines : lines (front ++ s) with
    | nil => rw [hlines] at hlast; cases hlast
    | cons first rest =>
      by_cases hreturn : c = '\r' ∧ (front ++ s).head? = some '\n'
      · -- a line end of two characters is one of the second alone
        obtain ⟨rfl, hhead⟩ := hreturn
        refine ⟨line, ?_, hline⟩
        cases hrest : front ++ s with
        | nil => rw [hrest] at hhead; cases hhead
        | cons d r =>
          rw [hrest] at hhead hlast
          cases hhead
          rw [lines]
          rwa [lines] at hlast
      · by_cases hend : c = '\n'
        · subst hend
          refine ⟨line, ?_, hline⟩
          rw [lines, List.getLast?_cons, hlast]
          rfl
        · have hnext : ∀ r, c = '\r' → front ++ s ≠ '\n' :: r :=
            fun r hc hr => hreturn ⟨hc, by rw [hr]; rfl⟩
          rw [lines_cons hend hnext hlines]
          rw [hlines] at hlast
          cases rest with
          | nil =>
            cases hlast
            exact ⟨c :: first, rfl, hline.trans (List.suffix_cons c first)⟩
          | cons second others =>
            refine ⟨line, ?_, hline⟩
            rw [List.getLast?_cons_cons] at hlast ⊢
            exact hlast

theorem occurs_append {pattern : Text} (front : Text) {s : Text} (h : occurs pattern s = true) :
    occurs pattern (front ++ s) = true := by
  induction front with
  | nil => exact h
  | cons c front ih =>
    rw [List.cons_append, occurs, indexOf?]
    split
    · rfl
    · rw [Option.isSome_map]
      exact ih

/-- The check for a line comment finds a `//` behind the last line end. -/
theorem endsInLineComment_of_eq {s front tail : Text} (h : trimEnd s = front ++ '/' :: '/' :: tail)
    (htail : '\n' ∉ tail) : endsInLineComment s = true := by
  have hline : '\n' ∉ '/' :: '/' :: tail := by simpa using htail
  obtain ⟨line, hlast, more, rfl⟩ := exists_getLast?_lines front (List.cons_ne_nil _ _) hline
  rw [endsInLineComment, h, hlast, Option.any_some]
  exact occurs_append more rfl

/-- The check for a line comment finds one that is open, with and without the blanks around the
text. -/
theorem endsInLineComment_of_commentOpen {s : Text} (h : commentOpen 0 (trim s) = true) :
    allBlank s = false ∧ endsInLineComment s = true ∧ endsInLineComment (trim s) = true := by
  obtain ⟨front, tail, htrim, htail⟩ := exists_of_commentOpen h
  have hvisible : allBlank s = false := by
    by_contra hblank
    rw [Bool.not_eq_false, ← trim_eq_nil_iff, htrim] at hblank
    simp at hblank
  refine ⟨hvisible, ?_, ?_⟩
  · have hstart : allBlank (trimStart s) = false := by
      rw [← Bool.not_eq_true, ← visible_eq_nil_iff_allBlank, visible_trimStart,
        visible_eq_nil_iff_allBlank, hvisible]
      exact Bool.false_ne_true
    have hend : trimEnd s = s.takeWhile isBlank ++ trim s := by
      rw [trim, ← trimEnd_blanks_append _ hstart, trimStart, List.takeWhile_append_dropWhile]
    rw [htrim, ← List.append_assoc] at hend
    exact endsInLineComment_of_eq hend htail
  · exact endsInLineComment_of_eq ((trimEnd_trim s).trans htrim) htail

theorem endsBlank_concat (s : Text) (c : Char) : endsBlank (s ++ [c]) = isBlank c := by
  rw [endsBlank, List.reverse_append]
  rfl

/-- A text that leaves a comment open at the end of its visible part ends with a blank. -/
theorem endsBlank_of_closes {content : Text} (h : Closes content) (hexplicit : ¬ ['@', '('] <:+: content)
    (hopen : commentOpen 0 (trim content) = true) : endsBlank content = true := by
  have hclosed := h.resolve_right hexplicit
  obtain ⟨front, back, hfront, hback, heq⟩ := exists_trim_append content
  rcases List.eq_nil_or_concat back with rfl | ⟨others, c, rfl⟩
  · rw [heq, List.append_nil, commentOpen_blanks (List.all_eq_true.1 hfront), hopen] at hclosed
    cases hclosed
  · have hc : isBlank c = true := List.all_eq_true.1 hback c (by simp)
    rw [heq, List.concat_eq_append, ← List.append_assoc, endsBlank_concat, hc]

end Text

/-! ## Last and first strokes -/

/-- A text that is not blank is laid out with a last line that does not end with a blank. -/
theorem strokes_blockDoc_last {s : Text} (h : Text.allBlank s = false) {indent : Nat}
    {mode : LineMode} {ks : List Stroke} (hks : Doc.Strokes indent mode (blockDoc s) ks) :
    ∃ front line, ks = front ++ [.put line] ∧ line ≠ [] ∧ Text.endsBlank line = false := by
  have hclean := LineBlock.clean_normalize s
  cases hlast : (LineBlock.normalize s).getLast? with
  | none => exact absurd (List.getLast?_eq_none_iff.1 hlast) (LineBlock.normalize_ne_nil h)
  | some line =>
    have hne : line ≠ [] := by
      rintro rfl
      exact hclean.last hlast
    obtain ⟨front, rfl⟩ := Doc.strokes_ofLines_last hne hlast hks
    exact ⟨front, line, rfl, hne, (hclean.lines line (List.mem_of_getLast? hlast)).2⟩

/-- Strokes that put something visible on the line that is there, maybe behind a space. -/
def GoesOn (ks : List Stroke) : Prop :=
  ∃ s more, (∀ p : Page, p.drawAll ks = p.drawAll (.put s :: more)) ∧ s ≠ [] ∧
    s.head? ≠ some '\n' ∧ s.getLast? ≠ some ' '

theorem GoesOn.append {ks : List Stroke} (h : GoesOn ks) (ls : List Stroke) : GoesOn (ks ++ ls) := by
  obtain ⟨s, more, hdraw, hs⟩ := h
  refine ⟨s, more ++ ls, fun p => ?_, hs⟩
  rw [Page.drawAll_append, hdraw, ← Page.drawAll_append]
  rfl

theorem goesOn_put {s : Text} (hne : s ≠ []) (hhead : s.head? ≠ some '\n')
    (hlast : s.getLast? ≠ some ' ') (more : List Stroke) : GoesOn (.put s :: more) :=
  ⟨s, more, fun _ => rfl, hne, hhead, hlast⟩

theorem goesOn_space {s : Text} (hne : s ≠ []) (hlast : s.getLast? ≠ some ' ') (more : List Stroke) :
    GoesOn (.put [' '] :: .put s :: more) := by
  refine ⟨' ' :: s, more, fun p => ?_, List.cons_ne_nil _ _, by simp, ?_⟩
  · rw [Page.drawAll_cons, Page.drawAll_cons, Page.drawAll_cons, Page.draw, Page.draw, Page.draw,
      Page.put_put]
    rfl
  · rwa [List.getLast?_cons_of_ne_nil hne]

theorem Text.StartsVisible.isEmpty {s : Text} (h : StartsVisible s) : s.isEmpty = false := by
  obtain ⟨c, r, rfl, -⟩ := h
  rfl

theorem Text.head?_firstLine {s : Text} (h : StartsVisible s) : (firstLine s).head? ≠ some '\n' := by
  have hne := (firstLine_spec h).1
  obtain ⟨c, r, rfl, hc⟩ := h
  obtain ⟨line, rest, hlines⟩ := exists_lines_cons hc r
  obtain ⟨blanks, -, hend⟩ := exists_trimEnd_append (c :: line)
  have hfirst : firstLine (c :: r) = trimEnd (c :: line) := by
    rw [firstLine, hlines, List.headD_cons, trim, trimStart_cons hc]
  rw [hfirst] at hne ⊢
  intro hhead
  -- the first character of the line is visible
  rw [← List.head?_append_of_ne_nil _ hne, ← hend, List.head?_cons, Option.some.injEq] at hhead
  rw [hhead] at hc
  exact absurd hc (by decide)

/-- What is put behind a text in its run goes on the line of the text. -/
theorem goesOn_piece {piece : Inline} (hpiece : Text.allBlank piece.source = false)
    (hexpression : ∀ keyword, piece = .expression keyword → Text.StartsVisible keyword)
    {atEnd : Bool} {indent : Nat} {mode : LineMode} {ks : List Stroke}
    (hks : Doc.Strokes indent mode (piece.doc .block false atEnd) ks) : GoesOn ks := by
  cases piece with
  | expression keyword =>
    have hvisible := hexpression keyword rfl
    obtain ⟨hne, hlast⟩ := Text.firstLine_spec hvisible
    obtain ⟨more, rfl⟩ := strokes_blockDoc_first hvisible hks
    exact goesOn_put hne (Text.head?_firstLine hvisible) hlast more
  | text content =>
    have hvisible : Text.StartsVisible (Text.trim content) := Text.startsVisible_trim hpiece
    have hcore := hvisible.isEmpty
    obtain ⟨hne, hlast⟩ := Text.firstLine_spec hvisible
    simp only [Inline.doc, textDoc, hcore, Bool.false_eq_true, if_false] at hks
    rw [Doc.strokes_seq, Doc.StrokesAll] at hks
    obtain ⟨leading, ks₁, rfl, hleading, hks₁⟩ := hks
    rw [Doc.StrokesAll] at hks₁
    obtain ⟨core, trailing, rfl, hcoreks, -⟩ := hks₁
    obtain ⟨more, rfl⟩ := strokes_blockDoc_first hvisible hcoreks
    split at hleading
    · rw [Doc.strokes_ofText (by simp)] at hleading
      subst hleading
      exact goesOn_space hne hlast _
    · rw [Doc.Strokes] at hleading
      subst hleading
      exact goesOn_put hne (Text.head?_firstLine hvisible) hlast _

/-- A brace block is drawn from its brace on. -/
theorem strokes_codeDoc_first {keyword : Text} (hblock : CodeKind.ofKeyword keyword = .block)
    {indentWidth : Nat} {children : List (Node × Doc)} {indent : Nat} {mode : LineMode}
    {ks : List Stroke} (hks : Doc.Strokes indent mode (codeDoc indentWidth keyword children) ks) :
    ∃ more, ks = .put (Text.trim keyword) :: more := by
  have hseq : ∀ ds : List Doc, Doc.Strokes indent mode
      (Doc.seq (Doc.ofText (Text.trim keyword) :: ds)) ks →
      ∃ more, ks = .put (Text.trim keyword) :: more := by
    intro ds hds
    rw [Doc.strokes_seq, Doc.StrokesAll] at hds
    obtain ⟨first, more, rfl, hfirst, -⟩ := hds
    rw [Doc.strokes_ofText] at hfirst
    · exact ⟨more, by rw [hfirst]; rfl⟩
    · rcases trim_of_ofKeyword_block hblock with heq | heq <;> rw [heq] <;> simp
  simp only [codeDoc, hblock] at hks
  split at hks
  · exact hseq _ hks
  · exact hseq _ hks

/-! ## Comments in a brace block -/

namespace Node

/-- The text of a node that may leave a line comment open: the content of a text, or the header of a
directive. -/
def ownText? : Node → Option Text
  | .text content => some content
  | .code keyword _ _ => if CodeKind.ofKeyword keyword = .directive then some keyword else none
  | .markup _ _ _ _ => none
  | .comment _ => none

/-- Whether the line of a node in a brace block ends behind its own text, if a line comment is open
there: a text ends with a blank or is the last of its run, before the siblings `back`; a directive
has no block. -/
def EndsLine (back : List Node) : Node → Prop
  | .text content => Text.endsBlank content = true ∨ runsOn back = false
  | node => node.children = []

section Strokes

open Doc (Strokes)

variable {indentWidth indent : Nat} {mode : LineMode} {ks : List Stroke} {front back : List Node}

/-- The strokes of a text with an open comment. -/
theorem strokes_textDoc_comment {content : Text} (hopen : commentOpen 0 (Text.trim content) = true)
    {atStart atEnd : Bool} (h : Strokes indent mode (textDoc .block atStart atEnd content) ks) :
    ∃ lead line trail, ks = lead ++ .put line :: trail ∧ line ≠ [] ∧ Text.endsBlank line = false ∧
      (lead ++ [Stroke.put line]).flatMap Stroke.visible = Text.visible content ∧
      trail = if atEnd || !Text.endsBlank content then [] else [.newLine indent] := by
  obtain ⟨hvisible, -, hcomment⟩ := Text.endsInLineComment_of_commentOpen hopen
  have hstarts := Text.startsVisible_trim hvisible
  have hcore := hstarts.isEmpty
  have hshown := Doc.visible_strokes _ h
  rw [visible_textDoc] at hshown
  simp only [textDoc, hcore, Bool.false_eq_true, if_false, hcomment, and_self, if_true] at h
  rw [Doc.strokes_seq, Doc.StrokesAll] at h
  obtain ⟨leading, ks₁, rfl, -, hks₁⟩ := h
  rw [Doc.StrokesAll] at hks₁
  obtain ⟨core, trail, rfl, hcoreks, htrail⟩ := hks₁
  rw [Doc.strokesAll_singleton] at htrail
  obtain ⟨more, line, rfl, hne, hline⟩ :=
    strokes_blockDoc_last hstarts.allBlank hcoreks
  have htrail' : trail = if atEnd || !Text.endsBlank content then [] else [.newLine indent] := by
    split at htrail
    · rename_i hend
      rw [if_pos hend]
      rwa [Doc.Strokes] at htrail
    · rename_i hend
      rw [if_neg hend]
      rwa [Doc.strokes_hardLine] at htrail
  refine ⟨leading ++ more, line, trail, by simp, hne, hline, ?_, htrail'⟩
  have hblank : trail.flatMap Stroke.visible = [] := by
    rw [htrail']
    split <;> rfl
  rw [List.flatMap_append, List.flatMap_append, hblank, List.append_nil, ← List.flatMap_append] at hshown
  rw [← hshown, List.append_assoc]

/-- Strokes that show a text, end its last line visibly, and then start a line or go on with this one.
-/
def DrawnUpTo (shown : Text) (endsLine : Prop) (ks : List Stroke) : Prop :=
  ∃ lead line after, ks = lead ++ .put line :: after ∧ line ≠ [] ∧ Text.endsBlank line = false ∧
    (lead ++ [Stroke.put line]).flatMap Stroke.visible = Text.visible shown ∧
    (endsLine → ∃ indent more, after = .newLine indent :: more) ∧ (¬ endsLine → GoesOn after)

/-- A piece that follows a text in a brace block is not blank, so it goes on the line of the text. -/
theorem Regular.goesOn_next {keyword : Text} (hblock : CodeKind.ofKeyword keyword = .block)
    {content : Text} {next : Node} {selfClosing : Bool}
    (h : (Node.code keyword (front ++ .text content :: next :: back) selfClosing).Regular)
    {piece : Inline} (hpiece : next.inline? = some piece) {atEnd : Bool}
    (hks : Strokes indent mode (piece.doc .block false atEnd) ks) : GoesOn ks := by
  have hnext : next.Regular := h.of_mem (by simp [Node.children])
  have hprintable := ((everywhere_iff _).1 hnext.printable).1
  have hwell := ((everywhere_iff _).1 h.wellFormed).1
  rw [WellFormed, hblock] at hwell
  rcases inline?_eq_some hpiece with ⟨content', rfl, rfl⟩ | ⟨keyword', children, closed, rfl, -, rfl⟩
  · refine goesOn_piece ?_ (fun keyword heq => by cases heq) hks
    by_contra hblank
    rw [Bool.not_eq_false] at hblank
    -- a blank text stands behind an expression, and not behind a text
    have hspaced := hwell.2 (front ++ [.text content]) content' back (by simp) hblank
    simp [isCode] at hspaced
  · have hvisible : Text.StartsVisible keyword' := hprintable
    refine goesOn_piece ?_ (fun keyword heq => ?_) hks
    · exact hvisible.allBlank
    · cases heq
      exact hvisible

/-- A text of a brace block that leaves a comment open. -/
theorem strokes_text_of_block {keyword : Text} (hblock : CodeKind.ofKeyword keyword = .block)
    {content : Text} {selfClosing : Bool}
    (hregular : (Node.code keyword (front ++ .text content :: back) selfClosing).Regular)
    (hopen : commentOpen 0 (Text.trim content) = true)
    (h : Strokes indent mode
      (doc indentWidth (.code keyword (front ++ .text content :: back) selfClosing)) ks) :
    DrawnUpTo (keyword ++ serializeAll front ++ content) ((Node.text content).EndsLine back) ks := by
  have hsiblings : ∀ other ∈ front ++ .text content :: back, other.Regular := fun other hother =>
    hregular.of_mem hother
  obtain ⟨hvisible, hcomment, -⟩ := Text.endsInLineComment_of_commentOpen hopen
  have hshown : Text.visible (serializeAll (front ++ .text content :: back)) ≠ [] := by
    have hcontent : Text.visible content ≠ [] := by
      rw [Ne, Text.visible_eq_nil_iff_allBlank, hvisible]
      exact Bool.false_ne_true
    simp [serializeAll_append, serializeAll, serialize, hcontent]
  obtain ⟨opening, body, closing, rfl, hbody, hopening⟩ := strokes_block hblock hsiblings hshown h
  obtain ⟨atStart, before, own, after, rfl, hdrawn, hbefore, hlast, hnext⟩ :=
    strokes_text_of_sequence hsiblings hvisible hbody
  obtain ⟨lead, line, trail, rfl, hne, hline, hlead, htrail⟩ := strokes_textDoc_comment hopen hdrawn
  refine ⟨opening ++ .newLine (indent + indentWidth) :: (before ++ lead), line,
    trail ++ (after ++ .newLine indent :: closing), by simp, hne, hline, ?_, ?_, ?_⟩
  · rw [List.flatMap_append] at hlead
    simp [hopening, hbefore, ← hlead, Stroke.visible]
  · intro hends
    by_cases hon : runsOn back = true
    · -- the text ends with a blank, which becomes a line break
      have hblank : Text.endsBlank content = true := by
        rcases hends with hblank | hoff
        · exact hblank
        · rw [hon] at hoff
          cases hoff
      rw [htrail, hon, hblank]
      exact ⟨_, _, rfl⟩
    · rw [Bool.not_eq_true] at hon
      rw [htrail, hon]
      rcases hlast hon hcomment with rfl | ⟨more, rfl⟩
      · exact ⟨_, _, rfl⟩
      · exact ⟨_, _, rfl⟩
  · intro hends
    rw [EndsLine, not_or, Bool.not_eq_true, Bool.not_eq_false] at hends
    rw [htrail, hends.1, Bool.not_false, Bool.or_true, if_pos rfl, List.nil_append]
    obtain ⟨next, others, rfl⟩ : ∃ next others, back = next :: others := by
      cases back with
      | nil => cases hends.2
      | cons next others => exact ⟨next, others, rfl⟩
    obtain ⟨piece, hpiece⟩ := Option.isSome_iff_exists.1 (show next.inline?.isSome = true from hends.2)
    obtain ⟨atEnd, drawn, more, rfl, hnextDrawn⟩ := hnext next rfl piece hpiece
    rw [List.append_assoc]
    exact (hregular.goesOn_next hblock hpiece hnextDrawn).append _

/-- The header of a directive in a brace block that leaves a comment open. -/
theorem strokes_header_of_block {keyword : Text} (hblock : CodeKind.ofKeyword keyword = .block)
    {header : Text} (hheader : CodeKind.ofKeyword header = .directive) {children : List Node}
    {closed selfClosing : Bool}
    (hregular : (Node.code keyword (front ++ .code header children closed :: back)
      selfClosing).Regular)
    (h : Strokes indent mode
      (doc indentWidth (.code keyword (front ++ .code header children closed :: back)
        selfClosing)) ks) :
    DrawnUpTo (keyword ++ serializeAll front ++ header)
      ((Node.code header children closed).EndsLine back) ks := by
  have hsiblings : ∀ other ∈ front ++ .code header children closed :: back, other.Regular :=
    fun other hother => hregular.of_mem hother
  have hnode : (Node.code header children closed).Regular := hsiblings _ (by simp)
  have hvisible : Text.StartsVisible header := ((everywhere_iff _).1 hnode.printable).1
  have hinline : (Node.code header children closed).inline? = none := by simp [inline?, hheader]
  obtain ⟨before, inner, after, rfl, hinner, hbefore, -, hafter⟩ :=
    strokes_child_of_block hblock hsiblings hinline h
  rcases hnode.children_of_directive hheader with ⟨rfl, rfl⟩ | ⟨rfl, block, rfl, hblock'⟩
  · -- without a block nothing follows on the line of the header
    obtain ⟨indent', more, rfl⟩ := hafter rfl
    rw [doc_of_directive_nil hheader] at hinner
    have hshown := Doc.visible_strokes _ hinner
    obtain ⟨lead, line, rfl, hne, hline⟩ := strokes_blockDoc_last hvisible.allBlank hinner
    refine ⟨before ++ lead, line, .newLine indent' :: more, by simp, hne, hline, ?_,
      fun _ => ⟨_, _, rfl⟩, fun hends => absurd rfl hends⟩
    rw [List.append_assoc, List.flatMap_append, hbefore, hshown, visible_blockDoc,
      Text.visible_append _ header]
  · -- the brace of the block goes on the line of the header
    obtain ⟨drawn, inner', rfl, hdrawn, hinner'⟩ :=
      strokes_child_of_directive hheader (hnode.of_mem (by simp [Node.children])) hblock' hinner
    have hshown := Doc.visible_strokes _ hdrawn
    obtain ⟨lead, line, rfl, hne, hline⟩ := strokes_blockDoc_last hvisible.allBlank hdrawn
    refine ⟨before ++ lead, line, .put [' '] :: inner' ++ after, by simp, hne, hline, ?_,
      fun hends => by simp [EndsLine, Node.children] at hends, fun _ => ?_⟩
    · rw [List.append_assoc, List.flatMap_append, hbefore, hshown, visible_blockDoc,
        Text.visible_append _ header]
    · cases block with
      | code brace nodes closed' =>
        have hkind : CodeKind.ofKeyword brace = .block := by simpa [isCode] using hblock'
        obtain ⟨more, rfl⟩ := strokes_codeDoc_first hkind hinner'
        apply GoesOn.append
        rcases trim_of_ofKeyword_block hkind with heq | heq
        · rw [heq]
          exact goesOn_space (by simp) (by simp) more
        · rw [heq]
          exact goesOn_space (by simp) (by simp) more
      | _ => cases hblock'

end Strokes

/-- A node of a forest that stands directly in a brace block and leaves a line comment open. In front
of the node `before` is written, `own` is its own text, and behind it there are the siblings `back`.
-/
def LeavesComment (nodes : List Node) (before : Text) (node : Node) (own : Text) (back : List Node) :
    Prop :=
  ∃ depth outside keyword front selfClosing,
    InsideAll nodes depth outside (.code keyword (front ++ node :: back) selfClosing) ∧
      CodeKind.ofKeyword keyword = .block ∧ before = outside ++ keyword ++ serializeAll front ∧
      node.ownText? = some own ∧ commentOpen 0 (Text.trim own) = true

/-- What is drawn up to a text is printed up to it, and a line end follows where a line starts. -/
theorem DrawnUpTo.exists_printed {shown : Text} {endsLine : Prop} {ks : List Stroke}
    (h : DrawnUpTo shown endsLine ks) {lead : List Stroke} {before : Text}
    (hlead : lead.flatMap Stroke.visible = Text.visible before) (tail : List Stroke) (rest : Text) :
    ∃ printed more, (Page.drawAll {} (lead ++ ks ++ tail)).text ++ rest = printed ++ more ∧
      Text.visible printed = Text.visible (before ++ shown) ∧ Text.endsBlank printed = false ∧
      (more.head? = some '\n' ↔ endsLine) := by
  obtain ⟨front, line, after, rfl, hne, hline, hshown, hends, hgoes⟩ := h
  obtain ⟨lastFront, c, rfl⟩ : ∃ lastFront c, line = lastFront ++ [c] := by
    rcases List.eq_nil_or_concat line with rfl | ⟨lastFront, c, rfl⟩
    · exact absurd rfl hne
    · exact ⟨lastFront, c, List.concat_eq_append⟩
  rw [Text.endsBlank_concat] at hline
  have hlast : (lastFront ++ [c]).getLast? ≠ some ' ' := by
    rw [List.getLast?_concat, Ne, Option.some.injEq]
    rintro rfl
    exact absurd hline (by decide)
  generalize hlineEq : lastFront ++ [c] = line at *
  have hfirm : (Page.drawAll {} (lead ++ front ++ [.put line])).Firm :=
    Page.firm_drawAll_concat {} (lead ++ front) hne hlast
  have hsplit : lead ++ (front ++ .put line :: after) ++ tail =
      lead ++ front ++ [.put line] ++ (after ++ tail) := by simp
  have hvisible : Text.visible (Page.drawAll {} (lead ++ front ++ [.put line])).text =
      Text.visible (before ++ shown) := by
    rw [Page.visible_drawAll, List.append_assoc, List.flatMap_append, hlead, hshown,
      Text.visible_append]
    rfl
  have hprinted : Text.endsBlank (Page.drawAll {} (lead ++ front ++ [.put line])).text = false := by
    rw [Page.drawAll_append, Page.drawAll_cons, Page.draw, Page.drawAll, List.foldl_nil,
      Page.text_put, ← hlineEq, ← List.append_assoc, Text.endsBlank_concat, hline]
  rw [hsplit, Page.drawAll_append]
  by_cases hcase : endsLine
  · obtain ⟨indent, more, rfl⟩ := hends hcase
    obtain ⟨back, hback⟩ := hfirm.text_drawAll_newLine indent (more ++ tail)
    refine ⟨_, '\n' :: back ++ rest, ?_, hvisible, hprinted, fun _ => hcase, fun _ => rfl⟩
    rw [List.cons_append, hback, List.append_assoc]
  · obtain ⟨s, more, hdraw, hs, hhead, hend⟩ := (hgoes hcase).append tail
    obtain ⟨back, hback⟩ := hfirm.text_drawAll_put hs hend more
    refine ⟨_, s ++ back ++ rest, ?_, hvisible, hprinted, fun hnewline => ?_,
      fun hends => absurd hends hcase⟩
    · rw [hdraw, hback]
      simp only [List.append_assoc]
    · rw [List.append_assoc, List.head?_append_of_ne_nil _ hs] at hnewline
      exact absurd hnewline hhead

end Node

/-- What follows a line comment. Wherever a text or a header in a brace block leaves a line comment
open, a line ends right behind it in the formatted template if and only if the text ends with a blank
or is the last of its run, or the directive has no block. For a text this is so, unless an explicit
expression stands in it, in every template without raw text and configured void elements. -/
theorem Style.lineComment_format (style : Style) {source before own : Text} {node : Node}
    {back : List Node} (h : Node.LeavesComment (style.parse source) before node own back) :
    (∃ printed rest, style.format source = printed ++ rest ∧
      Text.visible printed = Text.visible (before ++ own) ∧ Text.endsBlank printed = false ∧
      (rest.head? = some '\n' ↔ node.EndsLine back)) ∧
    (style.voidElements = [] →
      (∀ token ∈ (Segmentation.segment (CodeSection.split source).1).tokens, token.kind = .openTag →
        isRawTextName (tagName token.text) = false) →
      node.text? = some own → ¬ ['@', '('] <:+: own → node.EndsLine back) := by
  obtain ⟨depth, outside, keyword, front, selfClosing, hinside, hblock, rfl, hown, hopen⟩ := h
  have hinline : (Node.code keyword (front ++ node :: back) selfClosing).inline? = none := by
    simp [Node.inline?, hblock]
  constructor
  · obtain ⟨hregular, mode, lead, drawn, tail, rest, hformat, hdrawn, hlead, -⟩ :=
      style.exists_strokes_inside hinside hinline
    have hupTo : Node.DrawnUpTo (keyword ++ Node.serializeAll front ++ own) (node.EndsLine back)
        drawn := by
      cases node with
      | text content =>
        cases hown
        exact Node.strokes_text_of_block hblock hregular hopen hdrawn
      | code header children closed =>
        rw [Node.ownText?] at hown
        split at hown
        · rename_i hheader
          cases hown
          exact Node.strokes_header_of_block hblock hheader hregular hdrawn
        · cases hown
      | markup name attributes children closed => cases hown
      | comment content => cases hown
    obtain ⟨printed, more, htext, hvisible, hprinted, hends⟩ := hupTo.exists_printed hlead tail rest
    refine ⟨printed, more, hformat.trans htext, ?_, hprinted, hends⟩
    rw [hvisible]
    simp only [List.append_assoc]
  · intro hvoid hraw htext hexplicit
    cases node with
    | text content =>
      cases htext
      have hbody := style.insideAll_parseBody hinside hinline
      rw [hvoid] at hbody
      obtain ⟨others, outer, behind, before', hnodes, -, hinside⟩ := hbody
      have hclosed := Template.commentsClosed_parseBody (CodeSection.split source).1 hraw
      have houter : Node.Everywhere Node.CommentsClosed outer :=
        (Node.everywhereIn_iff _).1 hclosed outer (by rw [hnodes]; simp)
      have hnode := ((Node.everywhere_iff _).1 (hinside.everywhere houter)).1
      by_cases hback : back = []
      · exact Or.inr (by rw [hback]; rfl)
      · have hcloses := hnode (by simp [Node.isCode, hblock]) front own back rfl hback
        exact Or.inl (Text.endsBlank_of_closes hcloses hexplicit hopen)
    | _ => cases htext

theorem lineComment_format_note :
    let source := "@\x7b // note\n@x \x7d".toList
    Node.LeavesComment (Style.parse {} source) "@\x7b".toList (.text " // note\n".toList)
        " // note\n".toList [.code "@x".toList [] true] ∧
      ∃ printed rest, Style.format {} source = printed ++ '\n' :: rest ∧
        Text.visible printed = "@\x7b//note".toList ∧ Text.endsBlank printed = false := by
  intro source
  have hparse : Style.parse {} source = [.code "@\x7b".toList
      [.text " // note\n".toList, .code "@x".toList [] true] false] := by
    with_unfolding_all rfl
  have htokens : (Segmentation.segment (CodeSection.split source).1).tokens =
      [⟨.braceOpen, "@\x7b".toList⟩, ⟨.expression, "@x".toList⟩, ⟨.braceClose, "\x7d".toList⟩] := by
    with_unfolding_all rfl
  have hleaves : Node.LeavesComment (Style.parse {} source) "@\x7b".toList
      (.text " // note\n".toList) " // note\n".toList
      [.code "@x".toList [] true] :=
    ⟨0, [], "@\x7b".toList, [], false, ⟨[], _, [], [], hparse, rfl, .self _⟩, by decide, by decide,
      rfl, by decide⟩
  obtain ⟨⟨printed, rest, hformat, hvisible, hprinted, hends⟩, htext⟩ :=
    Style.lineComment_format {} hleaves
  have hline := hends.2 (htext rfl (by rw [htokens]; decide) rfl (by decide))
  obtain ⟨rest, rfl⟩ := List.head?_eq_some_iff.1 hline
  exact ⟨hleaves, printed, rest, hformat, hvisible, hprinted⟩

/-- The brace of a directive goes on the line of a comment that ends its header. -/
theorem lineBreak_commentedHeader :
    ¬ ∀ (style : Style) (source before own : Text) (node : Node) (back : List Node),
      Node.LeavesComment (style.parse source) before node own back →
      ∃ printed rest, style.format source = printed ++ rest ∧
        Text.visible printed = Text.visible (before ++ own) ∧ Text.endsBlank printed = false ∧
        rest.head? = some '\n' := by
  intro h
  let source := "@\x7b @if (x) // note\n \x7b y(); \x7d \x7d".toList
  have hparse : Style.parse {} source = [.code "@\x7b".toList
      [.code "@if (x) // note".toList [.code "\x7b".toList [.text " y(); ".toList] false] false]
      false] := by
    decide +kernel
  have hformat : Style.format {} source =
      "@\x7b\n    @if (x) // note \x7b\n        y();\n    \x7d\n\x7d\n".toList := by
    decide +kernel
  obtain ⟨printed, rest, heq, hvisible, hprinted, hline⟩ := h {} source "@\x7b".toList
    "@if (x) // note".toList
    (.code "@if (x) // note".toList [.code "\x7b".toList [.text " y(); ".toList] false] false) []
    ⟨0, [], "@\x7b".toList, [], false, ⟨[], _, [], [], hparse, rfl, .self _⟩, by decide, by decide,
      by decide, by decide⟩
  -- no prefix of the formatted template shows the header and stands before a line end
  have hnone : ∀ n ≤ (Style.format {} source).length,
      Text.visible ((Style.format {} source).take n) = Text.visible "@\x7b@if (x) // note".toList →
      Text.endsBlank ((Style.format {} source).take n) = false →
      ((Style.format {} source).drop n).head? ≠ some '\n' := by
    rw [hformat]
    decide
  rw [heq] at hnone
  have hprefix := hnone printed.length (by simp)
  rw [List.take_left, List.drop_left] at hprefix
  exact hprefix hvisible hprinted hline

end RazorTidy
