import RazorTidy.Proofs.Listing
import RazorTidy.Proofs.Printing
import RazorTidy.Proofs.Serialization

/-!
# The code section stands apart

A template with a code section is read and formatted as the part before the section is on its own,
and the section is put behind it (`Style.isolated_section`). So nothing in the section has a say in
how the rest is read or laid out.

Both runs have to agree on where a section starts. The part before the section has no opener of its
own, and every text of its forest is a piece of it, so no text at the end of that forest is taken
for a section (`Template.opens_of_mem_parseBody`). The printer measures no further than the line
break after the body (`Doc.writeAll_hardLine`).
-/

set_option autoImplicit false

namespace RazorTidy

/-! ## Openers -/

namespace CodeSection

/-- A text that starts with the opener of a code section: the word, any blanks and a brace. -/
def Starts (s : Text) : Prop :=
  ∃ blanks rest, Text.allBlank blanks = true ∧ s = opener ++ (blanks ++ '{' :: rest)

theorem opens_iff (s : Text) : opens s = true ↔ Starts s := by
  rw [opens, Bool.and_eq_true, List.isPrefixOf_iff_prefix, beq_iff_eq]
  constructor
  · rintro ⟨⟨rest, rfl⟩, hbrace⟩
    rw [List.drop_left] at hbrace
    refine ⟨rest.takeWhile Text.isBlank, (rest.dropWhile Text.isBlank).tail, ?_, ?_⟩
    · rw [Text.allBlank, List.all_eq_true]
      exact fun c hc => List.mem_takeWhile_imp hc
    · obtain ⟨tail, htail⟩ := List.head?_eq_some_iff.1 hbrace
      rw [htail, List.tail_cons, ← htail, List.takeWhile_append_dropWhile]
  · rintro ⟨blanks, rest, hblanks, rfl⟩
    refine ⟨List.prefix_append _ _, ?_⟩
    rw [List.drop_left, List.dropWhile_append_of_pos fun c hc => List.all_eq_true.1 hblanks c hc]
    rfl

/-- What follows an opener does not matter. -/
theorem Starts.append {s : Text} (h : Starts s) (t : Text) : Starts (s ++ t) := by
  obtain ⟨blanks, rest, hblanks, rfl⟩ := h
  exact ⟨blanks, rest ++ t, hblanks, by simp⟩

theorem Starts.exists_cons {s : Text} (h : Starts s) : ∃ r, s = '@' :: 'c' :: r := by
  obtain ⟨blanks, rest, -, rfl⟩ := h
  exact ⟨_, rfl⟩

/-- The section starts with the first opener of a template. -/
theorem split_spec {source body codeSection : Text}
    (h : split source = (body, some codeSection)) :
    body ++ codeSection = source ∧ Starts codeSection ∧
      ∀ front back, body = front ++ back → ¬ Starts back := by
  induction source generalizing body with
  | nil => cases h
  | cons c r ih =>
    rw [split] at h
    split at h
    · rename_i hopens
      cases h
      refine ⟨rfl, (opens_iff _).1 hopens, ?_⟩
      intro front back heq hback
      obtain ⟨u, rfl⟩ := hback.exists_cons
      simp at heq
    · rename_i hopens
      rcases hr : split r with ⟨front, back⟩
      rw [hr] at h
      cases h
      obtain ⟨happend, hstarts, hnone⟩ := ih hr
      refine ⟨by rw [List.cons_append, happend], hstarts, ?_⟩
      intro front' back' heq hback'
      cases front' with
      | nil =>
        -- an opener in front of the body is one in front of the template
        rw [List.nil_append] at heq
        subst heq
        apply hopens
        rw [opens_iff, ← happend, ← List.cons_append]
        exact hback'.append codeSection
      | cons d front'' =>
        rw [List.cons_append, List.cons.injEq] at heq
        exact hnone front'' back' heq.2 hback'

/-- A text without an opener has no section. -/
theorem split_of_forall {s : Text} (h : ∀ front back, s = front ++ back → ¬ Starts back) :
    split s = (s, none) := by
  induction s with
  | nil => rfl
  | cons c r ih =>
    have hopens : ¬ opens (c :: r) = true := fun hopens =>
      h [] (c :: r) rfl ((opens_iff _).1 hopens)
    have hr := ih fun front back heq => h (c :: front) back (by rw [heq, List.cons_append])
    rw [split, if_neg hopens, hr]

theorem split_of_none {source body : Text} (h : split source = (body, none)) : body = source := by
  have happend := split_append source
  rw [h] at happend
  exact (List.append_nil body).symm.trans happend

/-- A text has no section if and only if no opener stands in it. -/
theorem split_eq_none_iff (s : Text) :
    (split s).2 = none ↔ ∀ front back, s = front ++ back → ¬ Starts back := by
  constructor
  · intro h
    induction s with
    | nil =>
      intro front back heq hback
      obtain ⟨u, rfl⟩ := hback.exists_cons
      simp at heq
    | cons c r ih =>
      rw [split] at h
      split at h
      · cases h
      · rename_i hopens
        intro front back heq hback
        cases front with
        | nil =>
          rw [List.nil_append] at heq
          exact hopens (heq ▸ (opens_iff back).2 hback)
        | cons d front' =>
          rw [List.cons_append, List.cons.injEq] at heq
          exact ih h front' back heq.2 hback
  · intro h
    rw [split_of_forall h]

end CodeSection

/-! ## Texts of a forest -/

namespace Template

variable {extra : List Text} {content : Text}

/-- Tokens give no texts. -/
theorem text_not_mem_tokenNodes (token : Token) (beforeBlock : Bool) :
    Node.text content ∉ tokenNodes extra token beforeBlock := by
  rcases token with ⟨kind, text⟩
  cases kind <;> simp [tokenNodes, Event.ofToken, Event.element, Event.node?]

theorem eq_of_text_mem_gapNodes {gap : Text} {between : Bool}
    (h : Node.text content ∈ gapNodes gap between) : content = gap ∨ content = [' '] := by
  rw [gapNodes] at h
  split at h
  · simp only [List.mem_singleton, Node.text.injEq] at h
    exact Or.inl h
  split at h
  · simp only [List.mem_singleton, Node.text.injEq] at h
    exact Or.inr h
  · cases h

/-- The texts that segments give are their gaps, or single spaces. -/
theorem infix_of_text_mem_listing {previous : Option TokenKind} {segments : List Segment}
    {tail : Text} (h : Node.text content ∈ listing extra previous segments tail) :
    content <:+: (Segmentation.mk segments tail).text ∨ content = [' '] := by
  induction segments generalizing previous with
  | nil =>
    rcases eq_of_text_mem_gapNodes h with rfl | hspace
    · exact Or.inl List.infix_rfl
    · exact Or.inr hspace
  | cons segment rest ih =>
    rcases segment with ⟨gap, token⟩
    have htext : (Segmentation.mk (⟨gap, token⟩ :: rest) tail).text =
        gap ++ (token.text ++ (Segmentation.mk rest tail).text) := by
      simp [Segmentation.text]
    rw [listing, List.mem_append, List.mem_append] at h
    rw [htext]
    rcases h with (hgap | htoken) | hrest
    · rcases eq_of_text_mem_gapNodes hgap with rfl | hspace
      · exact Or.inl (List.prefix_append _ _).isInfix
      · exact Or.inr hspace
    · exact absurd htoken (text_not_mem_tokenNodes token _)
    · rcases ih hrest with hin | hspace
      · refine Or.inl (hin.trans ?_)
        rw [← List.append_assoc]
        exact (List.suffix_append _ _).isInfix
      · exact Or.inr hspace

theorem mem_preorderAll_of_mem {nodes : List Node} {node : Node} (h : node ∈ nodes) :
    node.shell ∈ Node.preorderAll nodes := by
  rw [Node.preorderAll_eq_flatMap, List.mem_flatMap]
  refine ⟨node, h, ?_⟩
  rw [Node.preorder_eq]
  exact List.mem_cons_self

/-- A text of the forest of a template without a section is a piece of the template, or a space. -/
theorem infix_of_text_mem_parseBody {body : Text} (h : Node.text content ∈ parseBody extra body) :
    content <:+: body ∨ content = [' '] := by
  have hmem := mem_preorderAll_of_mem h
  rw [preorderAll_parseBody] at hmem
  dsimp only [Node.shell] at hmem
  split at hmem
  · simp only [List.mem_singleton, Node.text.injEq] at hmem
    split at hmem
    · exact Or.inr hmem
    · exact Or.inl (hmem ▸ List.infix_rfl)
  · have hin := infix_of_text_mem_listing hmem
    have htext : (Segmentation.mk (Segmentation.segment body).segments
        (Segmentation.segment body).tail).text = body := Segmentation.text_segment body
    rwa [htext] at hin

/-- No text of a forest opens a section where the template does not. -/
theorem opens_of_mem_parseBody {body : Text}
    (hbody : ∀ front back, body = front ++ back → ¬ CodeSection.Starts back)
    (h : Node.text content ∈ parseBody extra body) : CodeSection.opens content = false := by
  rw [Bool.eq_false_iff, Ne, CodeSection.opens_iff]
  intro hstarts
  rcases infix_of_text_mem_parseBody h with ⟨front, back, rfl⟩ | rfl
  · exact hbody front (content ++ back) (List.append_assoc _ _ _) (hstarts.append back)
  · obtain ⟨u, hu⟩ := hstarts.exists_cons
    cases hu

end Template

/-! ## Sections line by line -/

namespace Text

/-- The text without the blanks at the ends of its lines. -/
def trimLineEnds (s : Text) : Text := joinWith ['\n'] ((splitAtChar '\n' s).map trimEnd)

/-- The text without the blanks at its end and at the ends of its lines. -/
def trimLines (s : Text) : Text := trimLineEnds (trimEnd s)

theorem trimEnd_cons_congr {s t : Text} (h : trimEnd s = trimEnd t) (c : Char) :
    trimEnd (c :: s) = trimEnd (c :: t) := by
  have hreverse : s.reverse.dropWhile isBlank = t.reverse.dropWhile isBlank := by
    have happ := congrArg List.reverse h
    simpa only [trimEnd, dropEndWhile, List.reverse_reverse] using happ
  rw [trimEnd, trimEnd, dropEndWhile, dropEndWhile, List.reverse_cons, List.reverse_cons,
    List.dropWhile_append, List.dropWhile_append, hreverse]

/-- In front of what is not all blank nothing is trimmed. -/
theorem trimEnd_cons_of_ne {s : Text} (h : trimEnd s ≠ []) (c : Char) :
    trimEnd (c :: s) = c :: trimEnd s := by
  have hreverse : ¬ (s.reverse.dropWhile isBlank).isEmpty = true := by
    intro hempty
    rw [trimEnd, dropEndWhile, List.isEmpty_iff.1 hempty] at h
    exact h rfl
  rw [trimEnd, dropEndWhile, List.reverse_cons, List.dropWhile_append, if_neg hreverse,
    List.reverse_append]
  rfl

theorem trimEnd_cons_cases (c : Char) (s : Text) :
    trimEnd (c :: s) = trimEnd s ∨ trimEnd (c :: s) = c :: trimEnd s := by
  by_cases h : trimEnd s = []
  · have hnil : trimEnd (c :: s) = trimEnd [c] := trimEnd_cons_congr (t := []) h c
    rw [hnil, h]
    cases hc : isBlank c with
    | true => exact Or.inl (by simp [trimEnd, dropEndWhile, hc])
    | false => exact Or.inr (trimEnd_cons hc [])
  · exact Or.inr (trimEnd_cons_of_ne h c)

/-- Trimming stops at a visible character. -/
theorem trimEnd_append_cons (s : Text) {c : Char} (hc : isBlank c = false) (t : Text) :
    trimEnd (s ++ c :: t) = s ++ c :: trimEnd t := by
  induction s with
  | nil => exact trimEnd_cons hc t
  | cons d r ih =>
    have hne : trimEnd (r ++ c :: t) ≠ [] := by
      rw [ih]
      simp
    rw [List.cons_append, trimEnd_cons_of_ne hne, ih, List.cons_append]

attribute [local simp] splitAtChar in
theorem splitAtChar_ne_nil (c : Char) (s : Text) : splitAtChar c s ≠ [] := by
  cases s with
  | nil => simp
  | cons d r =>
    simp only [splitAtChar]
    split
    · exact List.cons_ne_nil _ _
    · split <;> exact List.cons_ne_nil _ _

theorem joinWith_cons_cons (separator : Text) (c : Char) (s : Text) (rest : List Text) :
    joinWith separator ((c :: s) :: rest) = c :: joinWith separator (s :: rest) := by
  cases rest <;> rfl

/-- A visible character is at no end of a line. -/
theorem trimLineEnds_cons {c : Char} (hc : isBlank c = false) (r : Text) :
    trimLineEnds (c :: r) = c :: trimLineEnds r := by
  have hline : c ≠ '\n' := by
    rintro rfl
    exact absurd hc (by decide)
  rw [trimLineEnds, trimLineEnds, splitAtChar, if_neg hline]
  cases hsplit : splitAtChar '\n' r with
  | nil => exact absurd hsplit (splitAtChar_ne_nil _ _)
  | cons part parts =>
    simp only [List.map_cons, trimEnd_cons hc, joinWith_cons_cons]

/-- A blank stays or goes. -/
theorem trimLineEnds_cons_cases (c : Char) (r : Text) :
    trimLineEnds (c :: r) = trimLineEnds r ∨ trimLineEnds (c :: r) = c :: trimLineEnds r := by
  rw [trimLineEnds, trimLineEnds, splitAtChar]
  split
  · rename_i hline
    subst hline
    apply Or.inr
    rw [List.map_cons, joinWith_cons _ _ fun hnil =>
      splitAtChar_ne_nil _ _ (List.map_eq_nil_iff.1 hnil)]
    rfl
  · cases hsplit : splitAtChar '\n' r with
    | nil => exact absurd hsplit (splitAtChar_ne_nil _ _)
    | cons part parts =>
      simp only [List.map_cons]
      rcases trimEnd_cons_cases c part with hpart | hpart
      · exact Or.inl (by rw [hpart])
      · exact Or.inr (by rw [hpart, joinWith_cons_cons])

/-- Blanks in front of a visible character stay blanks in front of it. -/
theorem trimLineEnds_blanks {blanks : Text} (hblanks : allBlank blanks = true) {c : Char}
    (hc : isBlank c = false) (r : Text) :
    ∃ blanks', allBlank blanks' = true ∧
      trimLineEnds (blanks ++ c :: r) = blanks' ++ c :: trimLineEnds r := by
  induction blanks with
  | nil => exact ⟨[], rfl, trimLineEnds_cons hc r⟩
  | cons d rest ih =>
    rw [allBlank, List.all_cons, Bool.and_eq_true] at hblanks
    obtain ⟨blanks', hblanks', heq⟩ := ih hblanks.2
    rcases trimLineEnds_cons_cases d (rest ++ c :: r) with hdrop | hkeep
    · exact ⟨blanks', hblanks', by rw [List.cons_append, hdrop, heq]⟩
    · refine ⟨d :: blanks', ?_, by rw [List.cons_append, hkeep, heq, List.cons_append]⟩
      rw [allBlank, List.all_cons, hblanks.1]
      exact hblanks'

/-- The lines of a text, trimmed at their ends, are its parts between line feeds: a carriage return
before a line feed is a blank at the end of its line. -/
theorem map_trimEnd_lines {s : Text} (hne : s ≠ []) (hlast : s.getLast? ≠ some '\n') :
    (lines s).map trimEnd = (splitAtChar '\n' s).map trimEnd := by
  have htail : ∀ c r, (c :: r : Text).getLast? ≠ some '\n' → r ≠ [] → r.getLast? ≠ some '\n' := by
    intro c r h hr hr'
    rw [List.getLast?_cons, hr'] at h
    exact h rfl
  fun_induction lines s with
  | case1 => exact absurd rfl hne
  | case2 r ih =>
    cases r with
    | nil => simp at hlast
    | cons d r' =>
      have hrest := htail _ _ (htail _ _ hlast (by simp)) (by simp)
      rw [List.map_cons, ih (by simp) hrest]
      rfl
  | case3 r ih =>
    cases r with
    | nil => simp at hlast
    | cons d r' =>
      rw [List.map_cons, ih (by simp) (htail _ _ hlast (by simp))]
      rfl
  | case4 c r hcr hc hlines ih =>
    have hsplit : splitAtChar '\n' (c :: r) = [[c]] := by
      by_cases hr : r = []
      · rw [hr, splitAtChar, if_neg hc]
        rfl
      · have hparts := ih hr (htail c r hlast hr)
        rw [hlines, List.map_nil, eq_comm, List.map_eq_nil_iff] at hparts
        rw [splitAtChar, if_neg hc, hparts]
    rw [hsplit]
  | case5 c r hcr hc line rest hlines ih =>
    have hr : r ≠ [] := by
      rintro rfl
      cases hlines
    have hparts := ih hr (htail c r hlast hr)
    rw [hlines] at hparts
    rw [splitAtChar, if_neg hc]
    cases hsplit : splitAtChar '\n' r with
    | nil =>
      rw [hsplit] at hparts
      cases hparts
    | cons part parts =>
      rw [hsplit, List.map_cons, List.map_cons, List.cons.injEq] at hparts
      rw [List.map_cons, List.map_cons, hparts.2, trimEnd_cons_congr hparts.1]

theorem isBlank_getLast?_trimEnd {s : Text} {c : Char} (h : (trimEnd s).getLast? = some c) :
    isBlank c = false := by
  rw [trimEnd, dropEndWhile, List.getLast?_reverse] at h
  have hhead := List.head?_dropWhile_not isBlank s.reverse
  rw [h] at hhead
  exact hhead

end Text

/-- A section without the blanks at the ends of its lines is a section. -/
theorem CodeSection.Starts.trimLines {s : Text} (h : CodeSection.Starts s) :
    CodeSection.Starts (Text.trimLines s) := by
  obtain ⟨blanks, rest, hblanks, rfl⟩ := h
  have hbrace : Text.isBlank '{' = false := by decide
  obtain ⟨blanks', hblanks', heq⟩ :=
    Text.trimLineEnds_blanks hblanks hbrace (Text.trimEnd rest)
  refine ⟨blanks', Text.trimLineEnds (Text.trimEnd rest), hblanks', ?_⟩
  rw [Text.trimLines, ← List.append_assoc, Text.trimEnd_append_cons _ hbrace, List.append_assoc,
    ← heq]
  -- the letters of the opener stay one after the other
  show Text.trimLineEnds ('@' :: 'c' :: 'o' :: 'd' :: 'e' :: _) = _
  rw [Text.trimLineEnds_cons (by decide), Text.trimLineEnds_cons (by decide),
    Text.trimLineEnds_cons (by decide), Text.trimLineEnds_cons (by decide),
    Text.trimLineEnds_cons (by decide)]
  rfl

/-- A section is printed without the blanks at its end and at the ends of its lines. -/
theorem text_write_sectionDoc {content : Text} (hstarts : CodeSection.Starts content) (width : Nat)
    (mode : LineMode) (rest : Rest) {p : Page} (hp : p.Firm) :
    ((sectionDoc content).write width 0 mode rest p).text = p.text ++ Text.trimLines content ∧
      ((sectionDoc content).write width 0 mode rest p).Firm := by
  obtain ⟨r, rfl⟩ := hstarts.exists_cons
  have hne : Text.trimEnd ('@' :: 'c' :: r) ≠ [] := by
    rw [Text.trimEnd_cons (by decide)]
    exact List.cons_ne_nil _ _
  have hlast : (Text.trimEnd ('@' :: 'c' :: r)).getLast? ≠ some '\n' := fun h =>
    absurd (Text.isBlank_getLast?_trimEnd h) (by decide)
  rw [Text.trimLines, Text.trimLineEnds, ← Text.map_trimEnd_lines hne hlast]
  apply Doc.text_write_ofLines _ rest hp
  intro line hline hspace
  obtain ⟨raw, -, rfl⟩ := List.mem_map.1 hline
  exact absurd (Text.isBlank_getLast?_trimEnd hspace) (by decide)

theorem isNil_sectionDoc {content : Text} (hstarts : CodeSection.Starts content) :
    (sectionDoc content).isNil = false := by
  obtain ⟨r, rfl⟩ := hstarts.exists_cons
  by_contra hnil
  rw [Bool.not_eq_false] at hnil
  -- a layout of nothing would show nothing of the section
  have hvisible := visible_sectionDoc ('@' :: 'c' :: r)
  rw [Doc.visible_of_isNil hnil, eq_comm, Text.visible_eq_nil_iff_allBlank] at hvisible
  cases hvisible

/-! ## Layouts with and without a section -/

theorem Doc.eq_nil_of_isNil {d : Doc} (h : d.isNil = true) : d = .nil := by
  cases d with
  | nil => rfl
  | _ => cases h

theorem splitSection_concat {nodes : List Node} {content : Text}
    (h : CodeSection.opens content = true) :
    splitSection (nodes ++ [.text content]) = (nodes, some content) := by
  simp [splitSection, h]

theorem splitSection_of_forall {nodes : List Node}
    (h : ∀ content, Node.text content ∈ nodes → CodeSection.opens content = false) :
    splitSection nodes = (nodes, none) := by
  rw [splitSection]
  split
  · rename_i content hlast
    rw [h content (List.mem_of_getLast? hlast)]
    rfl
  · rfl

/-- The layout of the nodes of a template without a section, and without a line break at its end. -/
def bodyDoc (indentWidth : Nat) (nodes : List Node) : Doc :=
  Item.sequenceDoc .root (Item.group (Node.withDocs indentWidth nodes))

theorem forestDoc_of_none {indentWidth : Nat} {nodes : List Node}
    (h : splitSection nodes = (nodes, none)) :
    forestDoc indentWidth nodes =
      if (bodyDoc indentWidth nodes).isNil then .nil
      else Doc.seq [bodyDoc indentWidth nodes, Doc.hardLine] := by
  have hfold : Item.sequenceDoc .root (Item.group (Node.withDocs indentWidth nodes)) =
      bodyDoc indentWidth nodes := rfl
  simp only [forestDoc, h, hfold]
  by_cases hnil : (bodyDoc indentWidth nodes).isNil = true
  · rw [if_pos hnil, if_pos hnil, Doc.eq_nil_of_isNil hnil]
  · rw [if_neg hnil, if_neg hnil]

theorem forestDoc_of_some {indentWidth : Nat} {nodes body : List Node} {content : Text}
    (h : splitSection nodes = (body, some content)) (hstarts : CodeSection.Starts content) :
    forestDoc indentWidth nodes =
      if (bodyDoc indentWidth body).isNil then Doc.seq [sectionDoc content, Doc.hardLine]
      else
        Doc.seq
          [Doc.seq [bodyDoc indentWidth body, Doc.hardLine, Doc.hardLine, sectionDoc content],
           Doc.hardLine] := by
  have hwhole : (Doc.seq [bodyDoc indentWidth body, Doc.hardLine, Doc.hardLine,
      sectionDoc content]).isNil = false := by
    by_contra hnil
    rw [Bool.not_eq_false] at hnil
    -- the layout has a hard line, so it is not nothing
    have hhard := Doc.hasHardLine_seq [bodyDoc indentWidth body, Doc.hardLine, Doc.hardLine,
      sectionDoc content]
    rw [Doc.eq_nil_of_isNil hnil] at hhard
    simp [Doc.anyHardLine, Doc.hasHardLine, Doc.hardLine] at hhard
  have hfold : Item.sequenceDoc .root (Item.group (Node.withDocs indentWidth body)) =
      bodyDoc indentWidth body := rfl
  simp only [forestDoc, h, hfold]
  by_cases hnil : (bodyDoc indentWidth body).isNil = true
  · simp only [hnil, if_true, isNil_sectionDoc hstarts, Bool.false_eq_true, if_false]
  · simp only [hnil, hwhole, Bool.false_eq_true, if_false]

namespace Doc

variable {width indent : Nat} {mode : LineMode}

/-- A line break at the end of a document is the last to be printed. -/
theorem write_seq_hardLine (d : Doc) (p : Page) :
    write width indent mode (seq [d, hardLine]) [] p =
      (write width indent mode d [(mode, [hardLine])] p).newLine indent := by
  have hparts : [d, hardLine].flatMap parts = d.parts ++ [hardLine] := rfl
  rw [write_seq, hparts, writeAll_append, write_parts]
  rfl

/-- A document is printed before a further one, with a blank line between them, as it is printed
alone. -/
theorem write_seq_blankLine (d e : Doc) (p : Page) :
    write width 0 mode (seq [seq [d, hardLine, hardLine, e], hardLine]) [] p =
      (write width 0 mode e [(mode, [hardLine])]
        ((write width 0 mode (seq [d, hardLine]) [] p).newLine 0)).newLine 0 := by
  have hparts : [d, hardLine, hardLine, e].flatMap parts =
      d.parts ++ hardLine :: (hardLine :: e.parts) := by
    simp [List.flatMap_cons, show hardLine.parts = [hardLine] from rfl]
  have halone : write width 0 mode (seq [d, hardLine]) [] p =
      writeAll width 0 mode (d.parts ++ [hardLine]) [] p := write_seq _ _ _
  rw [write_seq_hardLine, write_seq, hparts, writeAll_hardLine, halone, ← write_parts e]
  rfl

/-- A section alone is printed with a line break behind it. -/
theorem render_section (printWidth : Nat) {content : Text} (h : CodeSection.Starts content) :
    render printWidth (seq [sectionDoc content, hardLine]) = Text.trimLines content ++ ['\n'] := by
  have hstart : Page.Firm {} := ⟨rfl, by simp⟩
  obtain ⟨htext, hfirm⟩ :=
    text_write_sectionDoc h (lineWidth printWidth) .broken [(.broken, [hardLine])] hstart
  rw [render, write_seq_hardLine, hfirm.newLine.1, htext]
  rfl

/-- A section after a document is printed with a blank line before it and a line break behind it. -/
theorem render_seq_section (printWidth : Nat) (d : Doc) {content : Text}
    (h : CodeSection.Starts content) :
    render printWidth (seq [seq [d, hardLine, hardLine, sectionDoc content], hardLine]) =
      render printWidth (seq [d, hardLine]) ++ ['\n'] ++ Text.trimLines content ++ ['\n'] := by
  rw [render, render, write_seq_blankLine]
  have hfirm : (write (lineWidth printWidth) 0 .broken (seq [d, hardLine]) [] {}).Firm := by
    rw [write_seq_hardLine]
    exact ⟨rfl, by simp [Page.newLine]⟩
  generalize write (lineWidth printWidth) 0 .broken (seq [d, hardLine]) [] {} = p at hfirm
  obtain ⟨hblank, hblankFirm⟩ := hfirm.newLine
  obtain ⟨htext, hend⟩ := text_write_sectionDoc h (lineWidth printWidth) .broken
    [(.broken, [hardLine])] hblankFirm
  rw [hend.newLine.1, htext, hblank]

theorem render_seq_hardLine_ne_nil (printWidth : Nat) (d : Doc) :
    render printWidth (seq [d, hardLine]) ≠ [] := by
  rw [render, write_seq_hardLine]
  simp [Page.newLine, Page.text]

end Doc

/-! ## Templates -/

section Templates

variable {source body codeSection : Text}

/-- The part before the section is read as a template without one. -/
theorem Style.parse_body (style : Style)
    (h : CodeSection.split source = (body, some codeSection)) :
    style.parse body = Template.parseBody style.voidElements body := by
  rw [Style.parse, Template.parse, CodeSection.split_of_forall (CodeSection.split_spec h).2.2]
  exact List.append_nil _

theorem Style.parse_of_split (style : Style)
    (h : CodeSection.split source = (body, some codeSection)) :
    style.parse source = style.parse body ++ [.text codeSection] := by
  rw [style.parse_body h, Style.parse, Template.parse, h]
  rfl

theorem Style.format_of_split (style : Style)
    (h : CodeSection.split source = (body, some codeSection)) :
    style.format source =
      style.format body ++ (if style.format body = [] then [] else ['\n']) ++
        Text.trimLines codeSection ++ ['\n'] := by
  obtain ⟨-, hstarts, hnone⟩ := CodeSection.split_spec h
  have hsplit : splitSection (style.parse body ++ [.text codeSection]) =
      (style.parse body, some codeSection) :=
    splitSection_concat ((CodeSection.opens_iff codeSection).2 hstarts)
  have hsplitBody : splitSection (style.parse body) = (style.parse body, none) := by
    apply splitSection_of_forall
    intro content hmem
    rw [style.parse_body h] at hmem
    exact Template.opens_of_mem_parseBody hnone hmem
  rw [Style.format, Style.format, Style.print, Style.print, style.parse_of_split h,
    forestDoc_of_none hsplitBody, forestDoc_of_some hsplit hstarts]
  cases hnil : (bodyDoc style.indentWidth (style.parse body)).isNil with
  | true => exact Doc.render_section style.printWidth hstarts
  | false =>
    simp only [Bool.false_eq_true, if_false, Doc.render_seq_hardLine_ne_nil]
    exact Doc.render_seq_section style.printWidth _ hstarts

/-- A template with a code section is cut at the first opener, read as the part before it with the
section as one further text, and formatted as that part with the section behind it, which loses only
the blanks at its end and at the ends of its lines. -/
theorem Style.isolated_section (style : Style)
    (h : CodeSection.split source = (body, some codeSection)) :
    body ++ codeSection = source ∧
      CodeSection.Starts codeSection ∧
      (∀ front back, body = front ++ back → ¬ CodeSection.Starts back) ∧
      style.parse source = style.parse body ++ [.text codeSection] ∧
      style.format source =
        style.format body ++ (if style.format body = [] then [] else ['\n']) ++
          Text.trimLines codeSection ++ ['\n'] := by
  obtain ⟨happend, hstarts, hnone⟩ := CodeSection.split_spec h
  exact ⟨happend, hstarts, hnone, style.parse_of_split h, style.format_of_split h⟩

end Templates

/-- The part of a page before its code section. -/
def counterBody : Text := "<p>@n</p>\n".toList

/-- A code section whose lines end with blanks. -/
def counterSection : Text := "@code\n\x7b \r\n  int n;  \n\x7d\n".toList

theorem isolated_section_counter :
    CodeSection.split (counterBody ++ counterSection) = (counterBody, some counterSection) ∧
      Style.parse {} (counterBody ++ counterSection) =
        Style.parse {} counterBody ++ [.text counterSection] ∧
      Style.format {} (counterBody ++ counterSection) =
        Style.format {} counterBody ++ ['\n'] ++ "@code\n\x7b\n  int n;\n\x7d".toList ++
          ['\n'] := by
  have hsplit : CodeSection.split (counterBody ++ counterSection) =
      (counterBody, some counterSection) := by
    decide
  have hbody : Style.format {} counterBody ≠ [] := by decide +kernel
  have hlines : Text.trimLines counterSection = "@code\n\x7b\n  int n;\n\x7d".toList := by
    decide
  obtain ⟨-, -, -, hparse, hformat⟩ := Style.isolated_section {} hsplit
  rw [if_neg hbody, hlines] at hformat
  exact ⟨hsplit, hparse, hformat⟩

end RazorTidy
