import RazorTidy.Proofs.RoundTrip

/-!
# Formatting twice

Formatting a template whose forest is plain, up to the blanks around its texts, and formatting the
result again gives the same text if and only if no header owns a block that starts with an `@`
(`Style.format_format_iff`). The formatted text is read as the settled forest, and the layout does
not see the blanks around texts (`PlainForest.forestDoc_trimAll`); so the second text is that of the
settled forest. Where there is something to settle, it has fewer blocks that start with an `@`, and
this shows in the text.

Such headers are common: a header takes the block on the next line (`format_format_page`).
-/

set_option autoImplicit false

namespace RazorTidy

/-! ## The layout does not see blanks around texts -/

section Layout

variable {extra : List Text} {inBlock : Bool} {nodes forest : List Node} {indentWidth : Nat}

theorem trimAll_eq_map (nodes : List Node) : Node.trimAll nodes = nodes.map Node.trimTexts := by
  induction nodes with
  | nil => rfl
  | cons node rest ih => rw [Node.trimAll, ih, List.map_cons]

/-- The layouts of nodes are those of the nodes with their texts trimmed. -/
def SameDocs (indentWidth : Nat) (nodes : List Node) : Prop :=
  ∀ node ∈ nodes, Node.doc indentWidth node.trimTexts = Node.doc indentWidth node

theorem SameDocs.lined (h : SameDocs indentWidth nodes) {line : Node → Doc}
    (hline : ∀ node : Node, line node.trimTexts = line node) :
    Item.lined line indentWidth (Node.trimAll nodes) = Item.lined line indentWidth nodes := by
  induction nodes with
  | nil => rfl
  | cons node rest ih =>
    have hnode := h node (by simp)
    have hrest := ih fun n hn => h n (List.mem_cons_of_mem _ hn)
    simp only [Item.lined, Node.trimAll, List.flatMap_cons, hline, hnode] at hrest ⊢
    rw [hrest]

theorem SameDocs.laid (h : SameDocs indentWidth nodes) {line : Node → Doc}
    (hline : ∀ node : Node, line node.trimTexts = line node) :
    Item.laid line indentWidth (Node.trimAll nodes) = Item.laid line indentWidth nodes := by
  cases nodes with
  | nil => rfl
  | cons node rest =>
    have hrest : SameDocs indentWidth rest := fun n hn => h n (List.mem_cons_of_mem _ hn)
    rw [Node.trimAll, Item.laid, Item.laid, h node (by simp), hrest.lined hline]

theorem SameDocs.firmIn (h : SameDocs indentWidth nodes)
    (hfirm : FirmIn indentWidth (Node.trimAll nodes)) : FirmIn indentWidth nodes := by
  intro node hnode
  rw [← h node hnode]
  apply hfirm
  rw [trimAll_eq_map]
  exact List.mem_map_of_mem hnode

theorem isBlockLevel_trimTexts (node : Node) : node.trimTexts.isBlockLevel = node.isBlockLevel := by
  cases node <;> rfl

theorem bodyLine_trimTexts (node : Node) : Item.bodyLine node.trimTexts = Item.bodyLine node := by
  cases node <;> rfl

theorem trimAll_eq_nil_iff (nodes : List Node) : Node.trimAll nodes = [] ↔ nodes = [] := by
  rw [trimAll_eq_map, List.map_eq_nil_iff]

/-- An element is laid out like the one with its texts trimmed. -/
theorem PlainForest.doc_element_trimAll (h : PlainForest extra false (Node.trimAll nodes))
    (hdocs : SameDocs indentWidth nodes) {name : Text} (hname : plainName name = true)
    (attributes : AttributeMap) :
    Node.doc indentWidth (.markup name attributes (Node.trimAll nodes) false) =
      Node.doc indentWidth (.markup name attributes nodes false) := by
  have hfirm := (h.firm_and_spelled indentWidth).1
  have hany : (Node.trimAll nodes).any Node.isBlockLevel = nodes.any Node.isBlockLevel := by
    rw [trimAll_eq_map, List.any_map]
    congr 1
    funext node
    exact isBlockLevel_trimTexts node
  rw [h.trimmed.doc_element_eq hfirm hname, h.doc_element_eq (hdocs.firmIn hfirm) hname, hany,
    hdocs.lined bodyLine_trimTexts, hdocs.laid bodyLine_trimTexts]

/-- A brace block is laid out like the one with its texts trimmed. -/
theorem PlainForest.doc_block_trimAll (h : PlainForest extra true (Node.trimAll nodes))
    (hdocs : SameDocs indentWidth nodes) {opener : Text}
    (hopener : opener = ['{'] ∨ opener = ['@', '{']) :
    Node.doc indentWidth (.code opener (Node.trimAll nodes) false) =
      Node.doc indentWidth (.code opener nodes false) := by
  have hfirm := (h.firm_and_spelled indentWidth).1
  rw [h.trimmed.doc_block_eq hfirm hopener, h.doc_block_eq (hdocs.firmIn hfirm) hopener,
    hdocs.laid fun _ => rfl]
  simp only [trimAll_eq_nil_iff]

/-- Nodes are laid out like a trimmed forest if the first node is and the others are. -/
theorem SameDocs.of_cons {node : Node} {rest : List Node}
    (hnode : ∀ n : Node, n.trimTexts = node → Node.doc indentWidth node = Node.doc indentWidth n)
    (hrest : ∀ ns, Node.trimAll ns = rest → SameDocs indentWidth ns) :
    ∀ ns, Node.trimAll ns = node :: rest → SameDocs indentWidth ns := by
  rintro (_ | ⟨first, ns⟩) heq
  · cases heq
  · rw [Node.trimAll, List.cons.injEq] at heq
    intro n hn
    rcases List.mem_cons.1 hn with rfl | hn
    · rw [heq.1]
      exact hnode n heq.1
    · exact hrest ns heq.2 n hn

theorem eq_of_trimTexts_code {node : Node} {keyword : Text} {children : List Node}
    {selfClosing : Bool} (h : node.trimTexts = .code keyword children selfClosing) :
    ∃ children', node = .code keyword children' selfClosing ∧
      Node.trimAll children' = children := by
  cases node with
  | code keyword' children' selfClosing' =>
    rw [Node.trimTexts, Node.code.injEq] at h
    obtain ⟨rfl, rfl, rfl⟩ := h
    exact ⟨children', rfl, rfl⟩
  | _ => cases h

theorem eq_of_trimAll_singleton {nodes : List Node} {node : Node}
    (h : Node.trimAll nodes = [node]) : ∃ node', nodes = [node'] ∧ node'.trimTexts = node := by
  rcases nodes with _ | ⟨first, _ | ⟨second, others⟩⟩
  · cases h
  · rw [Node.trimAll, Node.trimAll, List.cons.injEq] at h
    exact ⟨first, rfl, h.1⟩
  · rw [Node.trimAll, Node.trimAll, List.cons.injEq] at h
    cases h.2

/-- The nodes that are a plain forest up to blanks around texts are laid out like it. -/
theorem PlainForest.sameDocs (h : PlainForest extra inBlock forest) (indentWidth : Nat) :
    ∀ nodes, Node.trimAll nodes = forest → SameDocs indentWidth nodes := by
  induction h with
  | nil =>
    intro nodes heq
    rw [trimAll_eq_nil_iff] at heq
    subst heq
    intro node hnode
    cases hnode
  | @text content rest hcontent _ _ ih =>
    refine SameDocs.of_cons ?_ ih
    intro n hn
    cases n with
    | text content' =>
      rw [Node.trimTexts, Node.text.injEq] at hn
      subst hn
      have hcontent' : plainText (Text.trim (Text.trim content')) = true := by
        rw [Text.trim_trim]
        exact hcontent
      rw [Node.doc, Node.doc, textDoc_of_plainText _ hcontent, textDoc_of_plainText _ hcontent',
        Text.trim_trim]
    | _ => cases hn
  | @closed inBlock name attributes rest _ _ _ ih =>
    refine SameDocs.of_cons ?_ ih
    intro n hn
    cases n with
    | markup name' attributes' children' selfClosing' =>
      rw [Node.trimTexts, Node.markup.injEq, trimAll_eq_nil_iff] at hn
      obtain ⟨rfl, rfl, rfl, rfl⟩ := hn
      rfl
    | _ => cases hn
  | @element inBlock name attributes children rest hname _ _ hchildren _ ihc ih =>
    refine SameDocs.of_cons ?_ ih
    intro n hn
    cases n with
    | markup name' attributes' children' selfClosing' =>
      rw [Node.trimTexts, Node.markup.injEq] at hn
      obtain ⟨rfl, rfl, rfl, rfl⟩ := hn
      exact hchildren.doc_element_trimAll (ihc children' rfl) hname attributes'
    | _ => cases hn
  | @header inBlock header rest _ _ _ ih =>
    refine SameDocs.of_cons ?_ ih
    intro n hn
    obtain ⟨children', rfl, hchildren'⟩ := eq_of_trimTexts_code hn
    rw [trimAll_eq_nil_iff] at hchildren'
    rw [hchildren']
  | @block inBlock children rest hchildren _ ihc ih =>
    refine SameDocs.of_cons ?_ ih
    intro n hn
    obtain ⟨children', rfl, rfl⟩ := eq_of_trimTexts_code hn
    exact hchildren.doc_block_trimAll (ihc children' rfl) (Or.inr rfl)
  | @directive inBlock header opener children rest hheader hopener hchildren _ ihc ih =>
    refine SameDocs.of_cons ?_ ih
    intro n hn
    -- trimming keeps the shape of a directive, so there is one block below it
    obtain ⟨blocks, rfl, hblocks⟩ := eq_of_trimTexts_code hn
    obtain ⟨block, rfl, hblock⟩ := eq_of_trimAll_singleton hblocks
    obtain ⟨children', rfl, rfl⟩ := eq_of_trimTexts_code hblock
    have hcases := plainOpener_braces hopener
    have hdoc := hchildren.doc_block_trimAll (ihc children' rfl) hcases
    obtain ⟨hfirm, hspelled⟩ := hchildren.firm_and_spelled indentWidth
    have hblockFirm := (hchildren.doc_block hfirm hspelled hcases).1
    rw [doc_directive_eq hheader hcases indentWidth _ hblockFirm,
      doc_directive_eq hheader hcases indentWidth _ (hdoc ▸ hblockFirm), hdoc]

/-- Blanks around texts do not show in the layout of a forest that is plain without them. -/
theorem PlainForest.forestDoc_trimAll (h : PlainForest extra false (Node.trimAll nodes))
    (indentWidth : Nat) :
    forestDoc indentWidth (Node.trimAll nodes) = forestDoc indentWidth nodes := by
  by_cases hne : nodes = []
  · subst hne
    rfl
  · have hdocs := h.sameDocs indentWidth nodes rfl
    have hfirm := (h.firm_and_spelled indentWidth).1
    have hne' : Node.trimAll nodes ≠ [] := fun heq => hne ((trimAll_eq_nil_iff nodes).1 heq)
    rw [h.trimmed.forestDoc_eq hfirm hne', h.forestDoc_eq (hdocs.firmIn hfirm) hne,
      hdocs.laid fun _ => rfl]

end Layout

/-! ## Formatting twice -/

/-- The blocks of a plain forest that start with an `@` can be counted in its text. -/
theorem PlainForest.countAfterAt_print (style : Style) {forest : List Node}
    (h : PlainForest style.voidElements false forest) :
    countAfterAt '{' (style.print (forestDoc style.indentWidth forest)) =
      Node.openersAll forest := by
  have hwritten := h.written_render style.indentWidth style.printWidth
  have hcount := hwritten.countAfterAt_eq (Or.inr rfl) [] (by simp)
  rw [List.append_nil] at hcount
  exact hcount

/-- Formatting a template whose forest is plain, up to the blanks around its texts, gives a text
that formatting leaves as it is if and only if no header owns a block that starts with an `@`. -/
theorem Style.format_format_iff (style : Style) {source : Text}
    (h : PlainForest style.voidElements false (Node.trimAll (style.parse source))) :
    style.format (style.format source) = style.format source ↔
      Node.joinsAll (style.parse source) = 0 := by
  rw [← Node.joinsAll_trimAll]
  generalize hforest : Node.trimAll (style.parse source) = forest at h
  have hformat : style.format source = style.print (forestDoc style.indentWidth forest) := by
    subst hforest
    rw [Style.format, h.forestDoc_trimAll]
  have hread : Node.trimAll (style.parse (style.format source)) = Node.settleAll forest := by
    rw [hformat, h.trimAll_parse_forestDoc]
  -- the second text is that of the settled forest
  have hagain : style.format (style.format source) =
      style.print (forestDoc style.indentWidth (Node.settleAll forest)) := by
    have hplain := h.settled
    rw [← hread] at hplain
    rw [Style.format, ← hplain.forestDoc_trimAll, hread]
  rw [hagain, hformat]
  constructor
  · intro heq
    -- equal texts have equally many blocks that start with an `@`
    have hcount := h.openersAll_settleAll
    rw [← h.countAfterAt_print, ← h.settled.countAfterAt_print, heq] at hcount
    omega
  · intro hjoins
    rw [h.settleAll_eq hjoins]

/-- A page with a header, an element, a block and a directive with a block. -/
def aboutPage : Text :=
  "@page \"/about/\x7bid\x7d\"\n<h1 class='big'> About </h1>\n".toList ++
    "@\x7b<hr/>\x7d@if (Model.Count(1) > 0)\n\x7b\n\x7d".toList

theorem trimAll_parse_aboutPage :
    Node.trimAll (Style.parse {} aboutPage) =
      [.code "@page \"/about/\x7bid\x7d\"".toList [] true,
       .markup "h1".toList (.ofEntries [("class".toList, "big".toList)]) [.text "About".toList]
         false,
       .code ['@', '{'] [.markup "hr".toList .empty [] true] false,
       .code "@if (Model.Count(1) > 0)".toList [.code ['{'] [] false] false] := by
  decide +kernel

theorem plainForest_aboutPage :
    PlainForest [] false (Node.trimAll (Style.parse {} aboutPage)) := by
  rw [trimAll_parse_aboutPage]
  refine .header (by decide) rfl (.element (by decide) (by decide) (by decide)
    (.text (by decide) rfl .nil) ?_)
  exact .block (.closed (by decide) rfl .nil) (.directive (by decide) rfl .nil .nil)

theorem format_format_aboutPage :
    PlainForest [] false (Node.trimAll (Style.parse {} aboutPage)) ∧
      Node.joinsAll (Style.parse {} aboutPage) = 0 ∧
        Style.format {} (Style.format {} aboutPage) = Style.format {} aboutPage := by
  have hjoins : Node.joinsAll (Style.parse {} aboutPage) = 0 := by
    rw [← Node.joinsAll_trimAll, trimAll_parse_aboutPage]
    decide
  exact ⟨plainForest_aboutPage, hjoins, (Style.format_format_iff {} plainForest_aboutPage).2 hjoins⟩

/-- A header takes a block with an `@` from the next line, and formatting what this gives moves the
`@` away from its brace. -/
theorem format_format_page :
    ¬ ∀ (style : Style) (source : Text),
      style.format (style.format source) = style.format source := by
  intro h
  have hpage := h {} "@page \"/\"\n@\x7b \x7d".toList
  revert hpage
  decide +kernel

end RazorTidy
