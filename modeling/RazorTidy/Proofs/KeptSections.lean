import RazorTidy.Proofs.ForestLine

/-!
# Code sections after formatting

Formatting a template with a code section leaves the section at its end, without the blanks at the
ends of its lines. When the result is read again, the section is found there, unless an opener
stands before it. Formatting may make such an opener: it leaves out stray closing tags, stray
slashes and attributes that stand twice, so a word and a brace that were apart come together.

The layout of a template reads like its forest on one line (`alikeApart_bodyDoc_parseBody`), so the
section is kept as it is if and only if no opener stands in this line (`Style.section_format_iff`).
-/

set_option autoImplicit false

namespace RazorTidy

/-! ## Elements and code -/

theorem alikeApart_attributeDoc {name : Text} (h : Text.Printable name) (value : Text) :
    Text.AlikeApart (attributeDoc name value).flat (serializeAttribute name value) := by
  rw [attributeDoc, attributeText_eq]
  split
  · rename_i hbreak
    have hprintable := printable_serializeAttribute h value
    exact alikeApart_blockDoc (hprintable.breaks (List.contains_iff_mem.1 hbreak))
  · rw [Doc.flat_ofText]
    exact Text.AlikeApart.refl _

/-- The end of an opening tag needs no space in front. -/
theorem alike_space_tagEnd (name : Text) (selfClosing : Bool) :
    Text.Alike ([' '] ++ tagEnd name selfClosing) (tagEnd name selfClosing) := by
  rw [tagEnd]
  split
  · exact Text.alike_space_cons (by decide) ['>']
  · exact Text.alike_space_cons (by decide) []

theorem alike_headDoc (indentWidth : Nat) (name : Text) {attributes : AttributeMap}
    (h : ∀ entry ∈ attributes.entries, Text.Printable entry.1) (selfClosing : Bool) :
    Text.Alike (headDoc indentWidth name attributes selfClosing).flat
      (flatHead name attributes selfClosing) := by
  have hentries : ∀ entries : List (Text × Text), (∀ entry ∈ entries, Text.Printable entry.1) →
      Text.Alike
        ((entries.flatMap fun entry => [' '] ++ (attributeDoc entry.1 entry.2).flat) ++
          tagEnd name selfClosing)
        ((entries.flatMap fun entry => ' ' :: serializeAttribute entry.1 entry.2) ++
          tagEnd name selfClosing) := by
    intro entries
    induction entries with
    | nil => exact fun _ => Text.Alike.refl _
    | cons entry rest ih =>
      intro hall
      have hrest := ih fun e he => hall e (List.mem_cons_of_mem _ he)
      have hentry := alikeApart_attributeDoc (hall entry List.mem_cons_self) entry.2
      have hback : Text.Alike
          ([' '] ++ ((rest.flatMap fun entry => ' ' :: serializeAttribute entry.1 entry.2) ++
            tagEnd name selfClosing))
          ((rest.flatMap fun entry => ' ' :: serializeAttribute entry.1 entry.2) ++
            tagEnd name selfClosing) := by
        cases rest with
        | nil => exact alike_space_tagEnd name selfClosing
        | cons next others => exact Text.alike_space_space _
      have hfirst := hentry.within Text.alike_spaces hback
      have hall := (hrest.append_left ([' '] ++ (attributeDoc entry.1 entry.2).flat)).trans hfirst
      simpa only [List.flatMap_cons, List.append_assoc, List.cons_append, List.nil_append]
        using hall
  have hflat : (headDoc indentWidth name attributes selfClosing).flat = '<' :: name ++
      ((attributes.entries.flatMap fun entry => [' '] ++ (attributeDoc entry.1 entry.2).flat) ++
        tagEnd name selfClosing) := by
    rw [headDoc_eq]
    simp only [Doc.flat_grouped, Doc.flat_seq, List.flatMap_cons, List.flatMap_nil, Doc.flat_ofText,
      Doc.flat_indentBy, List.flatMap_map, Doc.flat_softLine, List.append_nil]
  rw [hflat, flatHead, List.append_assoc]
  exact (hentries attributes.entries h).append_left ('<' :: name)

/-- A space behind an opening tag does not matter. -/
theorem alike_flatHead_space (name : Text) (attributes : AttributeMap) (selfClosing : Bool) :
    Text.Alike (flatHead name attributes selfClosing ++ [' '])
      (flatHead name attributes selfClosing) := by
  have hend : ∃ front, flatHead name attributes selfClosing = front ++ ['>'] := by
    rw [flatHead, tagEnd]
    split
    · exact ⟨_, (List.append_assoc _ ['/'] ['>']).symm⟩
    · exact ⟨_, rfl⟩
  obtain ⟨front, hfront⟩ := hend
  rw [hfront]
  exact Text.alike_concat_space (by decide) front

/-- What stands between the tags of an element may be spaced out. -/
theorem alike_element (indentWidth : Nat) (name : Text) {attributes : AttributeMap}
    (hattributes : ∀ entry ∈ attributes.entries, Text.Printable entry.1) (selfClosing : Bool)
    {s t : Text} (h : Text.AlikeApart s t) :
    Text.Alike ((headDoc indentWidth name attributes selfClosing).flat ++ s ++ closingTag name)
      (flatHead name attributes selfClosing ++ (t ++ closingTag name)) := by
  have hhead := alike_headDoc indentWidth name hattributes selfClosing
  have hclose : Text.Alike ([' '] ++ closingTag name) (closingTag name) :=
    Text.alike_space_cons (by decide) _
  have hbody := h.within (alike_flatHead_space name attributes selfClosing) hclose
  rw [List.append_assoc] at hbody ⊢
  rw [← List.append_assoc (flatHead name attributes selfClosing)]
  exact (hhead.append_right _).trans hbody

theorem rawBlock?_eq_some {name content : Text} {nodes : List Node}
    (h : rawBlock? name nodes = some content) :
    nodes = [.text content] ∧ Text.allBlank content = false := by
  unfold rawBlock? at h
  split at h
  · split at h
    · rename_i hraw
      cases h
      refine ⟨rfl, ?_⟩
      rw [← Bool.not_eq_true, ← Text.trim_eq_nil_iff]
      intro hnil
      rw [hnil] at hraw
      simp at hraw
    · cases h
  · cases h

/-- The layout of an element reads like the element on one line. -/
theorem Legible.alike_elementDoc (indentWidth : Nat) (name : Text) {attributes : AttributeMap}
    (hattributes : ∀ entry ∈ attributes.entries, Text.Printable entry.1) (selfClosing : Bool)
    {children : List (Node × Doc)} (h : Legible children) :
    Text.Alike (elementDoc indentWidth name attributes selfClosing children).flat
      (flatHead name attributes selfClosing ++
        (if selfClosing then [] else Node.flatAll (children.map Prod.fst) ++ closingTag name)) := by
  rw [elementDoc]
  split
  · rw [List.append_nil]
    exact alike_headDoc indentWidth name hattributes selfClosing
  · split
    · rename_i content hraw
      obtain ⟨hchildren, hvisible⟩ := rawBlock?_eq_some hraw
      have hbody := (Text.alikeApart_spaces _).trans (alikeApart_blockDoc hvisible)
      have hall := alike_element indentWidth name hattributes selfClosing hbody
      rw [hchildren, Node.flatAll, Node.flatAll, List.append_nil, Node.flat]
      simpa [Doc.flat_seq] using hall
    · have helement := h.alikeApart_elementBody
      split
      · rename_i body hbody
        rw [hbody] at helement
        have hspaced := (Text.alikeApart_concat_space _).trans helement
        have hall := alike_element indentWidth name hattributes selfClosing hspaced
        simpa [Doc.flat_seq] using hall
      · rename_i body hbody
        rw [hbody] at helement
        have hall := alike_element indentWidth name hattributes selfClosing helement
        simpa [Doc.flat_seq] using hall

/-- The layout of code that does not flow in a line reads like the code on one line. -/
theorem Legible.alikeApart_codeDoc (indentWidth : Nat) {keyword : Text}
    (hkeyword : Text.allBlank keyword = false)
    (hkind : CodeKind.ofKeyword keyword ≠ .expression) (selfClosing : Bool)
    {children : List (Node × Doc)} (h : Legible children) :
    Text.AlikeApart (codeDoc indentWidth keyword children).flat
      (Node.code keyword (children.map Prod.fst) selfClosing).flat := by
  have hbody := h.alikeApart_sequenceDoc .block
  rw [codeDoc, Node.flat]
  dsimp only
  generalize Item.sequenceDoc .block (Item.group children) = body at hbody ⊢
  cases hcode : CodeKind.ofKeyword keyword with
  | expression => exact absurd hcode hkind
  | block =>
    have hinside := (Text.alikeApart_trim keyword).pair hbody
    have hpair := (hinside.pair (Text.AlikeApart.refl ['}'])).trans
      (Text.alikeApart_spaces _).symm
    dsimp only
    split
    · rename_i hnil
      -- an empty block has one space where others have two
      rw [Doc.eq_nil_of_isNil hnil] at hpair
      refine Text.AlikeApart.trans ?_ (by simpa using hpair)
      have hspaces := ((Text.alike_concat_spaces (Text.trim keyword)).append_right ['}']).symm.apart
      simpa [Doc.flat_seq] using hspaces
    · simpa [Doc.flat_seq] using hpair
  | directive =>
    have hpair := ((alikeApart_blockDoc hkeyword).pair hbody).trans (Text.alikeApart_spaces _).symm
    dsimp only
    split
    · rename_i hnil
      rw [Doc.eq_nil_of_isNil hnil] at hpair
      refine (Text.alikeApart_concat_space _).symm.trans ?_
      simpa using hpair
    · simpa [Doc.flat_seq] using hpair

/-! ## Nodes -/

namespace Node

theorem Spaced.text_ne_nil {nodes : List Node} (h : Spaced nodes) {content : Text}
    (hmem : .text content ∈ nodes) : content ≠ [] := by
  obtain ⟨front, back, heq⟩ := List.append_of_mem hmem
  rintro rfl
  cases (h front [] back heq rfl).1

theorem legible_withDocs {indentWidth : Nat} {nodes : List Node} (hspaced : Spaced nodes)
    (hwell : EverywhereIn WellFormed nodes) (hprintable : EverywhereIn Printable nodes)
    (halike : ∀ node ∈ nodes, node.inline? = none →
      Text.AlikeApart (doc indentWidth node).flat node.flat) :
    Legible (withDocs indentWidth nodes) := by
  constructor
  · apply laid_withDocs hspaced.blanksInside hprintable
    exact fun node hnode => solid_doc indentWidth node ((everywhereIn_iff nodes).1 hwell node hnode)
      ((everywhereIn_iff nodes).1 hprintable node hnode)
  · rw [map_fst_withDocs]
    exact fun content hmem => hspaced.text_ne_nil hmem
  · intro child hchild
    rw [withDocs_eq_map] at hchild
    obtain ⟨node, hnode, rfl⟩ := List.mem_map.1 hchild
    exact halike node hnode

/-- The layout of a node that does not flow in a line reads like the node on one line. -/
theorem alikeApart_doc (indentWidth : Nat) (node : Node) :
    Everywhere WellFormed node → Everywhere Printable node → node.inline? = none →
      Text.AlikeApart (doc indentWidth node).flat node.flat := by
  induction node using Node.induct with
  | markup name attributes children selfClosing ih =>
    rintro ⟨hshape, hwell⟩ ⟨hattributes, hprintable⟩ -
    have hlegible : Legible (withDocs indentWidth children) := by
      apply legible_withDocs hshape.spaced_children hwell hprintable
      exact fun child hchild => ih child hchild ((everywhereIn_iff children).1 hwell child hchild)
        ((everywhereIn_iff children).1 hprintable child hchild)
    have helement := hlegible.alike_elementDoc indentWidth name hattributes selfClosing
    rw [map_fst_withDocs] at helement
    rw [doc, flat, List.append_assoc [' ']]
    exact helement.apart.trans (Text.alikeApart_spaces _).symm
  | code keyword children selfClosing ih =>
    rintro ⟨hshape, hwell⟩ ⟨hkeyword, hprintable⟩ hinline
    have hlegible : Legible (withDocs indentWidth children) := by
      apply legible_withDocs hshape.spaced_children hwell hprintable
      exact fun child hchild => ih child hchild ((everywhereIn_iff children).1 hwell child hchild)
        ((everywhereIn_iff children).1 hprintable child hchild)
    have hkind : CodeKind.ofKeyword keyword ≠ .expression := by
      intro hkind
      rw [inline?, if_pos hkind] at hinline
      cases hinline
    have hcode := hlegible.alikeApart_codeDoc indentWidth hkeyword.allBlank hkind selfClosing
    rw [map_fst_withDocs] at hcode
    rw [doc]
    exact hcode
  | text content =>
    intro _ _ h
    cases h
  | comment content =>
    intro _ hvisible _
    rw [doc, flat]
    exact (alikeApart_blockDoc hvisible.allBlank).trans (Text.alikeApart_spaces _).symm

end Node

/-- The layout of the nodes of a template without a section reads like the nodes on one line. -/
theorem alikeApart_bodyDoc_parseBody (indentWidth : Nat) (extra : List Text) (body : Text) :
    Text.AlikeApart (bodyDoc indentWidth (Template.parseBody extra body)).flat
      (Node.flatAll (Template.parseBody extra body)) := by
  obtain ⟨hwell, hspaced⟩ := Template.wellFormed_parseBody extra body
  have hprintable := Template.printable_parseBody extra body
  rcases hspaced with hspaced | hspace
  · have hlegible : Legible (Node.withDocs indentWidth (Template.parseBody extra body)) := by
      apply Node.legible_withDocs hspaced hwell hprintable
      exact fun node hnode => Node.alikeApart_doc indentWidth node
        ((Node.everywhereIn_iff _).1 hwell node hnode)
        ((Node.everywhereIn_iff _).1 hprintable node hnode)
    have hsequence := hlegible.alikeApart_sequenceDoc .root
    rw [Node.map_fst_withDocs] at hsequence
    exact hsequence
  · rw [hspace]
    exact (Text.alikeApart_concat_space []).symm

/-! ## Formatted templates -/

/-- A formatted template without a section has an opener if and only if its nodes on one line do. -/
theorem Style.occurs_format_iff (style : Style) {source : Text}
    (h : (CodeSection.split source).2 = none) :
    CodeSection.Occurs (style.format source) ↔
      CodeSection.Occurs (Node.flatAll (Template.parseBody style.voidElements source)) := by
  have hbody := alikeApart_bodyDoc_parseBody style.indentWidth style.voidElements source
  rw [style.format_of_none h, ← hbody.occurs_iff]
  apply Text.AlikeApart.occurs_iff
  refine (Doc.alike_render style.printWidth _).apart.trans ?_
  split
  · rename_i hnil
    rw [Doc.eq_nil_of_isNil hnil]
    exact Text.AlikeApart.refl _
  · have hspace := Text.alikeApart_concat_space
      (bodyDoc style.indentWidth (Template.parseBody style.voidElements source)).flat
    simpa [Doc.flat_seq] using hspace

/-- The section of a formatted template. If the template has a section, it is the end of what is
found as the section of the formatted one, without the blanks at its end and at the ends of its
lines. And the formatted template has this section, or none where the template has none, if and only
if there is no opener in the line of the nodes that come before the section. -/
theorem Style.section_format_iff (style : Style) (source : Text) :
    (∀ codeSection, (CodeSection.split source).2 = some codeSection →
      ∃ front, (CodeSection.split (style.format source)).2 =
        some (front ++ (Text.trimLines codeSection ++ ['\n']))) ∧
      ((CodeSection.split (style.format source)).2 =
          (CodeSection.split source).2.map
            (fun codeSection => Text.trimLines codeSection ++ ['\n']) ↔
        (CodeSection.split
          (Node.flatAll (style.parse (CodeSection.split source).1))).2 = none) := by
  rcases hsplit : CodeSection.split source with ⟨body, _ | codeSection⟩
  · have hnone : (CodeSection.split source).2 = none := by rw [hsplit]
    rw [CodeSection.split_of_none hsplit]
    constructor
    · rintro _ ⟨⟩
    · dsimp only
      rw [Option.map_none, CodeSection.split_eq_none_iff_not_occurs, style.occurs_format_iff hnone,
        style.parse_of_none hnone, CodeSection.split_eq_none_iff_not_occurs]
  · have hstarts : CodeSection.Starts (Text.trimLines codeSection ++ ['\n']) :=
      (CodeSection.split_spec hsplit).2.1.trimLines.append ['\n']
    have hnone := CodeSection.split_of_forall (CodeSection.split_spec hsplit).2.2
    have hbreak : Text.AlikeApart
        (style.format body ++ if style.format body = [] then [] else ['\n'])
        (style.format body) := by
      split
      · exact Text.alikeApart_append_blanks _ rfl
      · exact Text.alikeApart_append_blanks _ rfl
    have hformat := style.format_of_split hsplit
    rw [List.append_assoc] at hformat
    constructor
    · rintro _ ⟨⟩
      rw [hformat]
      exact CodeSection.exists_split_append hstarts
    · dsimp only
      rw [hformat, Option.map_some, CodeSection.split_append_iff hstarts, hbreak.occurs_iff,
        style.occurs_format_iff (congrArg Prod.snd hnone), ← style.parse_body hsplit,
        CodeSection.split_eq_none_iff_not_occurs]

/-- Without the stray slash of an opening tag, a word and a brace of it make an opener. -/
theorem section_format_strayBrace :
    ¬ ∀ (style : Style) (source : Text),
      (CodeSection.split (style.format source)).2 =
        (CodeSection.split source).2.map fun codeSection =>
          Text.trimLines codeSection ++ ['\n'] := by
  intro h
  have htag := h {} "<a @code /\x7b>x</a>".toList
  revert htag
  decide +kernel

end RazorTidy
