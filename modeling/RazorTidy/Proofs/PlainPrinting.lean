import RazorTidy.Layout.Node
import RazorTidy.Proofs.Plain
import RazorTidy.Proofs.Serialization
import RazorTidy.Proofs.Spelling

/-!
# Printing plain forests

The layout of a plain forest spells only written forms of the forest and is
firm (`PlainForest.firm_and_spelled`), so whatever width it is printed for, the result is a written
form (`PlainForest.written_render`).

In a plain forest each run of inline nodes is a single text, so the items of a forest are its nodes
one by one, and what stands between two of them is a line.
-/

set_option autoImplicit false

namespace RazorTidy

/-! ## One line of text -/

/-- A trimmed text on one line is a block of one line. -/
theorem normalize_of_line {s : Text} (hne : s ≠ []) (htrim : Text.trim s = s) (hline : '\n' ∉ s) :
    LineBlock.normalize s = [s] := by
  have hblank : Text.allBlank s = false := by
    by_contra h
    rw [Bool.not_eq_false, ← Text.trim_eq_nil_iff, htrim] at h
    exact hne h
  have hlines : Text.lines s = [s] := by
    rw [Text.lines_of_no_newline s hline, if_neg]
    rwa [List.isEmpty_iff]
  simp [LineBlock.normalize, LineBlock.dropBlankEnd, hlines, hblank, htrim, LineBlock.dedentAll,
    LineBlock.squeeze]

theorem blockDoc_of_line {s : Text} (hne : s ≠ []) (htrim : Text.trim s = s) (hline : '\n' ∉ s) :
    blockDoc s = .text s := by
  rw [blockDoc, normalize_of_line hne htrim hline]
  cases s with
  | nil => exact absurd rfl hne
  | cons c r => rfl

/-- Plain text is laid out without the blanks around it, in every container. -/
theorem textDoc_of_plainText (container : Container) {s : Text}
    (h : plainText (Text.trim s) = true) :
    textDoc container true true s = .text (Text.trim s) := by
  obtain ⟨hne, htrim, hchars, -⟩ := (plainText_iff _).1 h
  have hline : '\n' ∉ Text.trim s := fun hmem => (hchars _ hmem).1 rfl
  have hempty : (Text.trim s).isEmpty = false := by
    rw [Bool.eq_false_iff]
    simpa using hne
  rw [textDoc, hempty, blockDoc_of_line hne htrim hline]
  rfl

/-- The last character of a trimmed text is no blank. -/
theorem getLast?_of_trim {s : Text} (hne : s ≠ []) (htrim : Text.trim s = s) :
    ∃ c, s.getLast? = some c ∧ Text.isBlank c = false := by
  refine ⟨s.getLast hne, List.getLast?_eq_some_getLast hne, ?_⟩
  by_contra hblank
  rw [Bool.not_eq_false] at hblank
  have hs := List.dropLast_concat_getLast hne
  have hshort : Text.trim s = Text.trim s.dropLast := by
    conv => lhs; rw [← hs]
    rw [Text.trim_append_blanks]
    simpa [Text.allBlank] using hblank
  have hlen : (Text.trim s.dropLast).length ≤ s.dropLast.length := by
    obtain ⟨blanks, -, hend⟩ := Text.exists_trimEnd_append (Text.trimStart s.dropLast)
    have h1 : (Text.trimStart s.dropLast).length ≤ s.dropLast.length :=
      (List.dropWhile_suffix _).length_le
    have h2 := congrArg List.length hend
    rw [List.length_append] at h2
    rw [Text.trim]
    omega
  have hpos : 0 < s.length := List.length_pos_iff.2 hne
  rw [← hshort, htrim, List.length_dropLast] at hlen
  omega

theorem ne_space_of_not_isBlank {c : Char} (h : Text.isBlank c = false) : c ≠ ' ' := by
  rintro rfl
  revert h
  decide

/-! ## Opening tags -/

/-- A document that leaves a page firm, whatever the page is before. -/
def Doc.Firm (d : Doc) : Prop := ∀ firm, d.firmAfter firm = some true

theorem Doc.Firm.isNil {d : Doc} (h : d.Firm) : d.isNil = false := by
  cases d with
  | nil =>
    have h' := h false
    rw [firmAfter] at h'
    cases h'
  | _ => rfl

/-- A document that is a hard or a soft line. -/
def Doc.IsLine (d : Doc) : Prop := d = hardLine ∨ d = softLine

theorem Doc.IsLine.firmAfter {d : Doc} (h : d.IsLine) : d.firmAfter true = some false := by
  rcases h with rfl | rfl
  · exact firmAfter_hardLine
  · exact firmAfter_softLine

/-- A line break with spaces after it is a run of ASCII blanks. -/
theorem isAsciiBlank_of_mem_break {n : Nat} {c : Char} (h : c ∈ '\n' :: List.replicate n ' ') :
    Text.isAsciiBlank c = true := by
  rcases List.mem_cons.1 h with rfl | h
  · decide
  · rw [List.eq_of_mem_replicate h]
    decide

/-- Where lines are broken, a line is spelled as blanks with a line end in front. -/
theorem Doc.IsLine.spells {d : Doc} (h : d.IsLine) {t : Text} (ht : d.Spells .broken t) :
    t ≠ [] ∧ Text.allBlank t = true ∧ endsLine t = true := by
  have hbreak : ∃ n, t = '\n' :: List.replicate n ' ' := by
    rcases h with rfl | rfl
    · exact (spells_hardLine t).1 ht
    · exact (spells_softLine_broken t).1 ht
  obtain ⟨n, rfl⟩ := hbreak
  refine ⟨List.cons_ne_nil _ _, ?_, rfl⟩
  rw [Text.allBlank, List.all_eq_true]
  exact fun c hc => Text.isBlank_of_isAsciiBlank (isAsciiBlank_of_mem_break hc)

/-- A plain attribute is laid out as it is written, and ends with no blank. -/
theorem attributeDoc_of_plainAttribute {name value : Text}
    (h : plainAttribute (name, value) = true) :
    attributeDoc name value = Doc.ofText (attributeText name value) ∧
      ∃ c, (attributeText name value).getLast? = some c ∧ c ≠ ' ' := by
  obtain ⟨hne, hname, hvalue⟩ := (plainAttribute_iff name value).1 h
  have htext := attributeText_of_plainAttribute h
  have hnameLine : '\n' ∉ name := by
    intro hmem
    have hblank := (ne_of_nameChar (hname _ hmem)).1
    revert hblank
    decide
  have hline : (attributeText name value).contains '\n' = false := by
    rw [Bool.eq_false_iff, Ne, List.contains_iff_mem, htext]
    split
    · exact hnameLine
    · simp only [List.mem_append, List.mem_cons, List.not_mem_nil, or_false, not_or]
      exact ⟨hnameLine, by decide, by decide, fun hmem => (hvalue _ hmem).2.1 rfl, by decide⟩
  refine ⟨?_, ?_⟩
  · rw [attributeDoc, hline]
    rfl
  · rw [htext]
    split
    · have hlast := List.getLast?_eq_some_getLast hne
      refine ⟨_, hlast, ?_⟩
      exact ne_space_of_not_isBlank (ne_of_nameChar (hname _ (List.getLast_mem hne))).1
    · have hsnoc : name ++ ('=' :: '"' :: (value ++ ['"'])) =
          (name ++ '=' :: '"' :: value) ++ ['"'] := by
        simp
      exact ⟨'"', by rw [hsnoc, List.getLast?_concat], by decide⟩

/-- The layouts of plain attributes are firm after a firm page and spell attribute regions. -/
theorem entries_spec {entries : List (Text × Text)} (h : entries.all plainAttribute = true) :
    let docs := entries.map fun (n, v) => Doc.seq [Doc.softLine, attributeDoc n v]
    Doc.firmAfterAll true docs = some true ∧
      ∀ mode t, Doc.SpellsAll mode docs t → RegionWritten entries t := by
  induction entries with
  | nil =>
    refine ⟨rfl, ?_⟩
    rintro mode t rfl
    exact .nil
  | cons entry rest ih =>
    rcases entry with ⟨name, value⟩
    rw [List.all_cons, Bool.and_eq_true] at h
    obtain ⟨hfirm, hspells⟩ := ih h.2
    obtain ⟨hdoc, c, hlast, hc⟩ := attributeDoc_of_plainAttribute h.1
    refine ⟨?_, ?_⟩
    · simp only [List.map_cons, Doc.firmAfterAll, Doc.firmAfter_seq, Doc.firmAfter_softLine, hdoc,
        Doc.firmAfter_ofText _ hlast hc, Option.bind_some]
      exact hfirm
    · rintro mode t ⟨t₁, t₂, rfl, hentry, hrest⟩
      rw [Doc.spells_seq] at hentry
      obtain ⟨line, t₃, rfl, hline, hattribute⟩ := hentry
      rw [Doc.spellsAll_singleton, hdoc, Doc.spells_ofText] at hattribute
      subst hattribute
      have hblanks : line ≠ [] ∧ ∀ c ∈ line, Text.isAsciiBlank c = true := by
        rcases Doc.spells_softLine hline with rfl | ⟨n, rfl⟩
        · exact ⟨List.cons_ne_nil _ _, List.all_eq_true.1 (by decide)⟩
        · exact ⟨List.cons_ne_nil _ _, fun c hc => isAsciiBlank_of_mem_break hc⟩
      rw [List.append_assoc]
      exact .cons hblanks.1 hblanks.2 h.1 (hspells mode t₂ hrest)

/-- The layout of an opening tag is firm and spells the tag with its attributes. -/
theorem headDoc_spec (indentWidth : Nat) {name : Text} (hname : plainName name = true)
    {attributes : AttributeMap} (hattributes : attributes.entries.all plainAttribute = true)
    (selfClosing : Bool) :
    (headDoc indentWidth name attributes selfClosing).Firm ∧
      ∀ mode t, (headDoc indentWidth name attributes selfClosing).Spells mode t →
        ∃ region, RegionWritten attributes.entries region ∧
          t = '<' :: (name ++ (region ++ tagEnd name selfClosing)) := by
  obtain ⟨hfirm, hspells⟩ := entries_spec hattributes
  have hstart : ∃ c, ('<' :: name).getLast? = some c ∧ c ≠ ' ' := by
    obtain ⟨hne, hchars⟩ := plainName_spec hname
    have hlast := List.getLast?_eq_some_getLast hne
    refine ⟨name.getLast hne, ?_, ?_⟩
    · rw [List.getLast?_cons, hlast]
      rfl
    · exact ne_space_of_not_isBlank (ne_of_nameChar (hchars _ (List.getLast_mem hne))).1
  have hend : ∃ c, (tagEnd name selfClosing).getLast? = some c ∧ c ≠ ' ' := by
    refine ⟨'>', ?_, by decide⟩
    rw [tagEnd]
    split <;> rfl
  obtain ⟨c, hlast, hc⟩ := hstart
  obtain ⟨d, hlast', hd⟩ := hend
  refine ⟨?_, ?_⟩
  · intro firm
    simp only [headDoc, Doc.firmAfter_grouped, Doc.firmAfter_seq, Doc.firmAfterAll,
      Doc.firmAfter_ofText _ hlast hc, Doc.firmAfter_indentBy, hfirm,
      Doc.firmAfter_ofText _ hlast' hd, Option.bind_some]
  · intro mode t ht
    -- flat or broken, the tag is its start, its attributes and its end
    have hparts : ∃ mode', Doc.SpellsAll mode' [Doc.ofText ('<' :: name),
        Doc.indentBy indentWidth (Doc.seq (attributes.entries.map fun (n, v) =>
          Doc.seq [Doc.softLine, attributeDoc n v])), Doc.ofText (tagEnd name selfClosing)] t := by
      rcases Doc.spells_grouped ht with ⟨-, hflat⟩ | hbroken
      · exact ⟨.flat, (Doc.spells_seq _ _).1 hflat⟩
      · exact ⟨.broken, (Doc.spells_seq _ _).1 hbroken⟩
    obtain ⟨mode', hparts⟩ := hparts
    simp only [Doc.SpellsAll, Doc.spells_ofText, Doc.spells_indentBy, Doc.spells_seq] at hparts
    obtain ⟨_, _, rfl, rfl, region, _, rfl, hregion, _, _, rfl, rfl, rfl⟩ := hparts
    refine ⟨region, hspells mode' region hregion, ?_⟩
    simp

/-! ## Items of a plain forest -/

namespace Item

/-- The item that a node of a plain forest is. -/
def ofNode (indentWidth : Nat) : Node → Item
  | .text content => .run [.text content]
  | node => .single node (Node.doc indentWidth node)

/-- The line before a node in the body of an element. -/
def bodyLine : Node → Doc
  | .markup _ _ _ _ => Doc.hardLine
  | _ => Doc.softLine

theorem isLine_bodyLine (node : Node) : (bodyLine node).IsLine := by
  cases node with
  | markup name attributes children selfClosing => exact Or.inl rfl
  | _ => exact Or.inr rfl

/-- The layouts of nodes, each after a line. -/
def lined (line : Node → Doc) (indentWidth : Nat) (nodes : List Node) : List Doc :=
  nodes.flatMap fun node => [line node, Node.doc indentWidth node]

/-- The layouts of nodes, with lines between them. -/
def laid (line : Node → Doc) (indentWidth : Nat) : List Node → List Doc
  | [] => []
  | node :: rest => Node.doc indentWidth node :: lined line indentWidth rest

end Item

section PlainItems

variable {extra : List Text} {inBlock : Bool} {nodes : List Node}

theorem PlainForest.tail {node : Node} (h : PlainForest extra inBlock (node :: nodes)) :
    PlainForest extra inBlock nodes := by
  cases h with
  | text _ _ h => exact h
  | closed _ _ h => exact h
  | element _ _ _ _ h => exact h
  | header _ _ h => exact h
  | block _ h => exact h
  | directive _ _ _ h => exact h

/-- The keywords of the code in plain forests: neither expressions nor a brace alone. -/
def standsAlone (keyword : Text) : Prop :=
  CodeKind.ofKeyword keyword ≠ .expression ∧ Text.trim keyword ≠ ['{']

theorem standsAlone_of_plainHeader {header : Text} (h : plainHeader header = true) :
    standsAlone header := by
  obtain ⟨htrim, -, hkind⟩ := plainHeader_keyword h
  obtain ⟨word, tail, rfl, -⟩ := plainHeader_spec h
  refine ⟨by rw [hkind]; decide, ?_⟩
  rw [htrim]
  intro heq
  exact absurd (List.cons.inj heq).1 (by decide)

/-- What a node is that a plain forest has up to the blanks around texts: text outside of brace
blocks, an element, or code that stands alone. -/
theorem PlainForest.head_cases {node : Node}
    (h : PlainForest extra inBlock (node.trimTexts :: nodes)) :
    (inBlock = false ∧ startsWithText nodes = false ∧ ∃ content,
        plainText (Text.trim content) = true ∧ node = .text content) ∨
      (∃ name attributes children selfClosing,
        node = .markup name attributes children selfClosing) ∨
        ∃ keyword children selfClosing, standsAlone keyword ∧
          node = .code keyword children selfClosing := by
  cases node with
  | text content =>
    rw [Node.trimTexts] at h
    cases h with
    | text hcontent hrest _ => exact Or.inl ⟨rfl, hrest, content, hcontent, rfl⟩
  | markup name attributes children selfClosing =>
    exact Or.inr (Or.inl ⟨name, attributes, children, selfClosing, rfl⟩)
  | code keyword children selfClosing =>
    rw [Node.trimTexts] at h
    refine Or.inr (Or.inr ⟨keyword, children, selfClosing, ?_, rfl⟩)
    generalize Node.trimAll children = trimmed at h
    cases h with
    | header hheader _ _ => exact standsAlone_of_plainHeader hheader
    | block _ _ => exact ⟨by decide, by decide⟩
    | directive hheader _ _ _ => exact standsAlone_of_plainHeader hheader
  | comment content =>
    rw [Node.trimTexts] at h
    cases h

/-- The same for every node of the forest. -/
theorem PlainForest.cases_of_mem (h : PlainForest extra inBlock (Node.trimAll nodes)) :
    ∀ node ∈ nodes,
      (inBlock = false ∧ ∃ content, plainText (Text.trim content) = true ∧ node = .text content) ∨
        (∃ name attributes children selfClosing,
          node = .markup name attributes children selfClosing) ∨
          ∃ keyword children selfClosing, standsAlone keyword ∧
            node = .code keyword children selfClosing := by
  induction nodes with
  | nil =>
    intro node hnode
    cases hnode
  | cons first rest ih =>
    rw [Node.trimAll] at h
    intro node hnode
    rcases List.mem_cons.1 hnode with rfl | hnode
    · rcases h.head_cases with ⟨hblock, -, htext⟩ | hother
      · exact Or.inl ⟨hblock, htext⟩
      · exact Or.inr hother
    · exact ih h.tail node hnode

theorem startsWithText_trimAll (nodes : List Node) :
    startsWithText (Node.trimAll nodes) = startsWithText nodes := by
  cases nodes with
  | nil => rfl
  | cons node rest => cases node <;> rfl

/-- The nodes of a plain forest are its items, one by one. -/
theorem PlainForest.group_eq (h : PlainForest extra inBlock (Node.trimAll nodes))
    (indentWidth : Nat) :
    Item.group (Node.withDocs indentWidth nodes) = nodes.map (Item.ofNode indentWidth) := by
  induction nodes with
  | nil => rfl
  | cons node rest ih =>
    rw [Node.trimAll] at h
    have ih' := ih h.tail
    rcases h.head_cases with ⟨-, hrest, content, -, rfl⟩ |
        ⟨name, attributes, children, selfClosing, rfl⟩ |
          ⟨keyword, children, selfClosing, hkeyword, rfl⟩
    · rw [Node.withDocs, Item.group, ih', List.map_cons]
      rw [startsWithText_trimAll] at hrest
      -- a text after this one would join its run
      cases rest with
      | nil => rfl
      | cons node' rest' =>
        cases node' with
        | text content' => cases hrest
        | _ => rfl
    · rw [Node.withDocs, Item.group, ih']
      rfl
    · have hinline : (Node.code keyword children selfClosing).inline? = none := by
        rw [Node.inline?, if_neg hkeyword.1]
      rw [Node.withDocs, Item.group, hinline, ih']
      rfl

/-- The layout of each item of a plain forest is that of its node. -/
theorem PlainForest.doc_ofNode (h : PlainForest extra inBlock (Node.trimAll nodes))
    (indentWidth : Nat) (container : Container) {node : Node} (hnode : node ∈ nodes) :
    (Item.ofNode indentWidth node).doc container = Node.doc indentWidth node := by
  rcases h.cases_of_mem node hnode with
    ⟨-, content, hcontent, rfl⟩ | ⟨name, attributes, children, selfClosing, rfl⟩ |
      ⟨keyword, children, selfClosing, -, rfl⟩
  · show Doc.seq [textDoc container true true content] = textDoc .root true true content
    rw [textDoc_of_plainText _ hcontent, textDoc_of_plainText _ hcontent]
    rfl
  · rfl
  · rfl

/-- The layout of each node is firm. -/
def FirmIn (indentWidth : Nat) (nodes : List Node) : Prop :=
  ∀ node ∈ nodes, (Node.doc indentWidth node).Firm

/-- With firm layouts, no item of a plain forest is left out. -/
theorem PlainForest.laidOut_eq (h : PlainForest extra inBlock (Node.trimAll nodes))
    {indentWidth : Nat} (hfirm : FirmIn indentWidth nodes) (container : Container) :
    Item.laidOut container (Item.group (Node.withDocs indentWidth nodes)) =
      nodes.map fun node => (Item.ofNode indentWidth node, Node.doc indentWidth node) := by
  rw [h.group_eq, Item.laidOut, List.map_map]
  have hmap : nodes.map ((fun item => (item, item.doc container)) ∘ Item.ofNode indentWidth) =
      nodes.map fun node => (Item.ofNode indentWidth node, Node.doc indentWidth node) := by
    apply List.map_congr_left
    intro node hnode
    show (Item.ofNode indentWidth node, (Item.ofNode indentWidth node).doc container) = _
    rw [h.doc_ofNode indentWidth container hnode]
  rw [hmap, List.filter_eq_self]
  intro entry hentry
  obtain ⟨node, hnode, rfl⟩ := List.mem_map.1 hentry
  rw [(hfirm node hnode).isNil]
  rfl

/-! ## The layout of a forest -/

/-- Whatever node of a plain forest comes next, it starts a new line. -/
theorem PlainForest.separator_eq (h : PlainForest extra inBlock (Node.trimAll nodes))
    (indentWidth : Nat) {container : Container} (hcontainer : container = .block → inBlock = true)
    (node : Node) {node' : Node} (hnode' : node' ∈ nodes) :
    Item.separator container (Item.ofNode indentWidth node) (Item.ofNode indentWidth node') =
      Doc.hardLine := by
  rcases h.cases_of_mem node' hnode' with
    ⟨hblock, content, -, rfl⟩ | ⟨name, attributes, children, selfClosing, rfl⟩ |
      ⟨keyword, children, selfClosing, hkeyword, rfl⟩
  · have hne : (container == Container.block) = false := by
      rw [beq_eq_false_iff_ne]
      intro heq
      rw [hcontainer heq] at hblock
      cases hblock
    cases node <;> simp [Item.ofNode, Item.separator, hne]
  · cases node <;> simp [Item.ofNode, Item.separator, Item.isBareBlock]
  · have hbare : (Text.trim keyword == ['{']) = false := beq_eq_false_iff_ne.2 hkeyword.2
    cases node <;> simp [Item.ofNode, Item.separator, Item.isBareBlock, hbare]

/-- The nodes of the root or of a block stand on lines of their own. -/
theorem PlainForest.sequenceDoc_eq (h : PlainForest extra inBlock (Node.trimAll nodes))
    {indentWidth : Nat} (hfirm : FirmIn indentWidth nodes) {container : Container}
    (hcontainer : container = .block → inBlock = true) :
    Item.sequenceDoc container (Item.group (Node.withDocs indentWidth nodes)) =
      Doc.seq (Item.laid (fun _ => Doc.hardLine) indentWidth nodes) := by
  have hline := h.separator_eq indentWidth hcontainer
  rw [Item.sequenceDoc, h.laidOut_eq hfirm container]
  congr 1
  -- the separators only look at neighbours, so the rest holds of any forest
  clear h hfirm
  induction nodes with
  | nil => rfl
  | cons node rest ih =>
    have ih' := ih fun n _ hn => hline n (List.mem_cons_of_mem _ hn)
    cases rest with
    | nil => rfl
    | cons node' rest' =>
      rw [List.map_cons, List.map_cons] at *
      rw [Item.separated, ih', hline node (by simp)]
      rfl

theorem elementLine_ofNode (indentWidth : Nat) (node : Node) :
    Item.elementLine (Item.ofNode indentWidth node) = Item.bodyLine node := by
  cases node <;> rfl

/-- Whether a node is no text. -/
def Node.isBlockLevel : Node → Bool
  | .text _ => false
  | _ => true

/-- A plain forest of texts only has at most one node. -/
theorem PlainForest.eq_of_texts (h : PlainForest extra inBlock (Node.trimAll nodes))
    (htexts : nodes.any Node.isBlockLevel = false) :
    nodes = [] ∨ ∃ content, nodes = [.text content] := by
  cases nodes with
  | nil => exact Or.inl rfl
  | cons node rest =>
    rw [Node.trimAll] at h
    rcases h.head_cases with ⟨-, hrest, content, -, rfl⟩ | ⟨name, attributes, children, _, rfl⟩ |
        ⟨keyword, children, selfClosing, -, rfl⟩
    · refine Or.inr ⟨content, ?_⟩
      rw [startsWithText_trimAll] at hrest
      cases rest with
      | nil => rfl
      | cons node rest' =>
        cases node with
        | text content' => cases hrest
        | _ => simp [Node.isBlockLevel] at htexts
    · simp [Node.isBlockLevel] at htexts
    · simp [Node.isBlockLevel] at htexts

/-- The body of an element is on lines of its own if it holds more than text. -/
theorem PlainForest.elementBody_eq (h : PlainForest extra inBlock (Node.trimAll nodes))
    {indentWidth : Nat} (hfirm : FirmIn indentWidth nodes) :
    Item.elementBody (Item.group (Node.withDocs indentWidth nodes)) =
      if nodes.any Node.isBlockLevel then
        (Doc.seq (Item.lined Item.bodyLine indentWidth nodes), true)
      else (Doc.seq (Item.laid Item.bodyLine indentWidth nodes), false) := by
  have hneeds : ∀ node ∈ nodes,
      Item.needsLines (Item.ofNode indentWidth node, Node.doc indentWidth node) =
        node.isBlockLevel := by
    intro node hnode
    rcases h.cases_of_mem node hnode with
      ⟨-, content, hcontent, rfl⟩ | ⟨name, attributes, children, selfClosing, rfl⟩ |
        ⟨keyword, children, selfClosing, -, rfl⟩
    · show (textDoc .root true true content).hasHardLine = false
      rw [textDoc_of_plainText _ hcontent, Doc.hasHardLine]
    · rfl
    · rfl
  have hany : (nodes.map fun node =>
      (Item.ofNode indentWidth node, Node.doc indentWidth node)).any Item.needsLines =
        nodes.any Node.isBlockLevel := by
    rw [List.any_map, Bool.eq_iff_iff, List.any_eq_true, List.any_eq_true]
    refine exists_congr fun node => and_congr_right fun hnode => ?_
    rw [Function.comp_apply, hneeds node hnode]
  rw [Item.elementBody, h.laidOut_eq hfirm, hany]
  split
  · rw [List.flatMap_map]
    simp only [elementLine_ofNode]
    rfl
  · rename_i htexts
    rw [Bool.not_eq_true] at htexts
    rcases h.eq_of_texts htexts with rfl | ⟨content, rfl⟩ <;> rfl

/-! ## Lines of nodes -/

section Lines

variable {line : Node → Doc} {indentWidth : Nat} {forest : List Node}

/-- Firm layouts, each after a line, leave a firm page firm. -/
theorem firmAfterAll_lined (hline : ∀ node, (line node).IsLine)
    (hfirm : FirmIn indentWidth forest) :
    Doc.firmAfterAll true (Item.lined line indentWidth forest) = some true := by
  induction forest with
  | nil => rfl
  | cons node rest ih =>
    show Doc.firmAfterAll true (line node :: Node.doc indentWidth node ::
      Item.lined line indentWidth rest) = some true
    rw [Doc.firmAfterAll, (hline node).firmAfter, Option.bind_some, Doc.firmAfterAll,
      hfirm node (by simp), Option.bind_some]
    exact ih fun n hn => hfirm n (List.mem_cons_of_mem _ hn)

/-- Firm layouts with lines between them leave a page firm, if there is one. -/
theorem firm_seq_laid (hline : ∀ node, (line node).IsLine)
    (hfirm : FirmIn indentWidth forest) (hne : forest ≠ []) :
    (Doc.seq (Item.laid line indentWidth forest)).Firm := by
  intro firm
  cases forest with
  | nil => exact absurd rfl hne
  | cons node rest =>
    rw [Doc.firmAfter_seq, Item.laid, Doc.firmAfterAll, hfirm node (by simp), Option.bind_some]
    exact firmAfterAll_lined hline fun n hn => hfirm n (List.mem_cons_of_mem _ hn)

/-- If layouts with lines between them spell written forms, so do layouts each after a line, and the
line before them ends. -/
theorem written_of_spells_lined (hline : ∀ node, (line node).IsLine)
    (hlaid : ∀ t, Doc.SpellsAll .broken (Item.laid line indentWidth forest) t →
      Written extra inBlock forest t) {t : Text}
    (ht : Doc.SpellsAll .broken (Item.lined line indentWidth forest) t) :
    Written extra inBlock forest t ∧ endsLine t = true := by
  cases forest with
  | nil => exact ⟨hlaid t ht, by rw [show t = [] from ht]; rfl⟩
  | cons node rest =>
    obtain ⟨blanks, t', rfl, hblanks, ht'⟩ := ht
    obtain ⟨hne, hall, hend⟩ := (hline node).spells hblanks
    refine ⟨(hlaid t' ht').prepend hall, ?_⟩
    cases blanks with
    | nil => exact absurd rfl hne
    | cons c r => exact hend

end Lines

/-! ## The layout of a node -/

/-- The layout of an element with children. -/
theorem PlainForest.doc_element_eq (h : PlainForest extra false (Node.trimAll nodes))
    {indentWidth : Nat} (hfirm : FirmIn indentWidth nodes) {name : Text}
    (hname : plainName name = true) (attributes : AttributeMap) :
    Node.doc indentWidth (.markup name attributes nodes false) =
      if nodes.any Node.isBlockLevel then
        Doc.seq [headDoc indentWidth name attributes false, Doc.grouped (Doc.seq
          [Doc.indentBy indentWidth (Doc.seq (Item.lined Item.bodyLine indentWidth nodes)),
            Doc.hardLine, Doc.ofText (closingTag name)])]
      else
        Doc.seq [headDoc indentWidth name attributes false,
          Doc.seq (Item.laid Item.bodyLine indentWidth nodes), Doc.ofText (closingTag name)] := by
  have hraw : rawBlock? name ((Node.withDocs indentWidth nodes).map Prod.fst) = none := by
    unfold rawBlock?
    split
    · rw [isRawTextName_of_plainName hname]
      rfl
    · rfl
  rw [Node.doc, elementDoc, hraw, h.elementBody_eq hfirm, if_neg (by decide)]
  by_cases hany : nodes.any Node.isBlockLevel = true
  · simp only [hany, if_true]
  · simp only [hany, if_false, Bool.false_eq_true]

/-- The layout of a brace block. -/
theorem PlainForest.doc_block_eq (h : PlainForest extra true (Node.trimAll nodes))
    {indentWidth : Nat} (hfirm : FirmIn indentWidth nodes) {opener : Text}
    (hopener : opener = ['{'] ∨ opener = ['@', '{']) :
    Node.doc indentWidth (.code opener nodes false) =
      if nodes = [] then Doc.seq [Doc.ofText opener, Doc.hardLine, Doc.ofText ['}']]
      else
        Doc.seq [Doc.ofText opener, Doc.indentBy indentWidth (Doc.seq [Doc.hardLine,
          Doc.seq (Item.laid (fun _ => Doc.hardLine) indentWidth nodes)]), Doc.hardLine,
            Doc.ofText ['}']] := by
  have hkind : CodeKind.ofKeyword opener = .block ∧ Text.trim opener = opener := by
    rcases hopener with rfl | rfl <;> decide
  rw [Node.doc, codeDoc, hkind.1, h.sequenceDoc_eq hfirm fun _ => rfl]
  simp only [hkind.2]
  by_cases hne : nodes = []
  · subst hne
    rfl
  · have hbody := firm_seq_laid (fun _ => Or.inl rfl) hfirm hne
    rw [if_neg hne, if_neg (by rw [hbody.isNil]; decide)]

theorem blockDoc_of_plainHeader {header : Text} (h : plainHeader header = true) :
    blockDoc header = .text header := by
  obtain ⟨htrim, hline, -⟩ := plainHeader_keyword h
  exact blockDoc_of_line (plainHeader_ne_nil h) htrim hline

/-- The layout of a header without a block. -/
theorem doc_header_eq {header : Text} (h : plainHeader header = true) (indentWidth : Nat) :
    Node.doc indentWidth (.code header [] true) = .text header := by
  rw [Node.doc, codeDoc, (plainHeader_keyword h).2.2, blockDoc_of_plainHeader h]
  rfl

/-- The layout of a header with a block. -/
theorem doc_directive_eq {header opener : Text} (h : plainHeader header = true)
    (hopener : opener = ['{'] ∨ opener = ['@', '{']) (indentWidth : Nat) (children : List Node)
    (hblock : (Node.doc indentWidth (.code opener children false)).Firm) :
    Node.doc indentWidth (.code header [.code opener children false] false) =
      Doc.seq [.text header, Doc.ofText [' '],
        Doc.seq [Node.doc indentWidth (.code opener children false)]] := by
  rw [Node.doc, codeDoc, (plainHeader_keyword h).2.2, Node.withDocs, Node.withDocs,
    blockDoc_of_plainHeader h]
  generalize Node.doc indentWidth (.code opener children false) = d at hblock
  -- a block is no inline node, so it is the only item
  have hinline : (Node.code opener children false).inline? = none := by
    rcases hopener with rfl | rfl <;> rfl
  have hbody : Item.sequenceDoc .block (Item.group [(.code opener children false, d)]) =
      Doc.seq [d] := by
    rw [Item.group, hinline]
    show Doc.seq (Item.separated .block (List.filter (!·.2.isNil) [(_, d)])) = Doc.seq [d]
    rw [List.filter_cons_of_pos (by simp [hblock.isNil])]
    rfl
  have hnil : (Doc.seq [d]).isNil = false := by
    apply Doc.Firm.isNil
    intro firm
    rw [Doc.firmAfter_seq, Doc.firmAfterAll_singleton, hblock]
  rw [hbody]
  simp only [hnil, Bool.false_eq_true, if_false]

/-! ## Spelling a node -/

theorem PlainForest.trimmed (h : PlainForest extra inBlock nodes) :
    PlainForest extra inBlock (Node.trimAll nodes) := by
  rw [h.trimAll_eq]
  exact h

/-- Whatever lines stand between its nodes, a forest is spelled in written forms. -/
def SpelledIn (extra : List Text) (inBlock : Bool) (indentWidth : Nat) (forest : List Node) :
    Prop :=
  ∀ line : Node → Doc, (∀ node, (line node).IsLine) →
    ∀ t, Doc.SpellsAll .broken (Item.laid line indentWidth forest) t →
      Written extra inBlock forest t

theorem firmAfter_closingTag (firm : Bool) (name : Text) :
    Doc.firmAfter firm (Doc.ofText (closingTag name)) = some true := by
  have hlast : (closingTag name).getLast? = some '>' := by
    rw [closingTag, List.getLast?_concat]
  exact Doc.firmAfter_ofText firm hlast (by decide)

variable {forest : List Node}

/-- The layout of an element with children is firm and spells the element. -/
theorem PlainForest.doc_element (h : PlainForest extra false forest) {indentWidth : Nat}
    (hfirm : FirmIn indentWidth forest) (hspelled : SpelledIn extra false indentWidth forest)
    {name : Text} (hname : plainName name = true) {attributes : AttributeMap}
    (hattributes : attributes.entries.all plainAttribute = true) :
    (Node.doc indentWidth (.markup name attributes forest false)).Firm ∧
      ∀ t, (Node.doc indentWidth (.markup name attributes forest false)).Spells .broken t →
        ∃ region body, RegionWritten attributes.entries region ∧
          Written extra false forest body ∧
            t = '<' :: (name ++ (region ++ ('>' :: (body ++ closingTag name)))) := by
  have hlines := Item.isLine_bodyLine
  obtain ⟨hhead, hheadSpells⟩ := headDoc_spec indentWidth hname hattributes false
  have htagEnd : tagEnd name false = ['>'] := rfl
  rw [h.trimmed.doc_element_eq hfirm hname attributes]
  split
  · -- the body stands on lines of its own
    refine ⟨?_, ?_⟩
    · intro firm
      simp only [Doc.firmAfter_seq, Doc.firmAfterAll, hhead firm, Doc.firmAfter_grouped,
        Doc.firmAfter_indentBy, Option.bind_some, firmAfterAll_lined hlines hfirm,
        Doc.firmAfter_hardLine, firmAfter_closingTag]
    · intro t ht
      simp only [Doc.spells_seq, Doc.SpellsAll] at ht
      obtain ⟨thead, _, rfl, hthead, tbody, _, rfl, htbody, rfl⟩ := ht
      obtain ⟨region, hregion, rfl⟩ := hheadSpells .broken thead hthead
      -- the hard line before the closing tag keeps the group from being flat
      have hbroken := (Doc.spells_grouped htbody).resolve_left fun hflat => by
        rw [Doc.hasHardLine_seq] at hflat
        simp [Doc.anyHardLine, Doc.hardLine, Doc.hasHardLine] at hflat
      simp only [Doc.spells_seq, Doc.SpellsAll, Doc.spells_indentBy, Doc.spells_ofText] at hbroken
      obtain ⟨body, _, rfl, hbody, blanks, _, rfl, hblanks, _, _, rfl, rfl, rfl⟩ := hbroken
      obtain ⟨hwritten, -⟩ := written_of_spells_lined hlines (hspelled _ hlines) hbody
      obtain ⟨-, hall, hend⟩ := Doc.IsLine.spells (Or.inl rfl) hblanks
      refine ⟨region, body ++ blanks, hregion, hwritten.append_blanks hall hend, ?_⟩
      simp [htagEnd]
  · -- the body is a text or empty and stays between the tags
    refine ⟨?_, ?_⟩
    · intro firm
      have hkept : Doc.firmAfterAll true (Item.laid Item.bodyLine indentWidth forest) =
          some true := by
        cases forest with
        | nil => rfl
        | cons node rest =>
          rw [← Doc.firmAfter_seq]
          exact firm_seq_laid hlines hfirm (List.cons_ne_nil node rest) true
      simp only [Doc.firmAfter_seq, Doc.firmAfterAll, hhead firm, Option.bind_some, hkept,
        firmAfter_closingTag]
    · intro t ht
      simp only [Doc.spells_seq, Doc.SpellsAll, Doc.spells_ofText] at ht
      obtain ⟨thead, _, rfl, hthead, body, _, rfl, htbody, _, _, rfl, rfl, rfl⟩ := ht
      obtain ⟨region, hregion, rfl⟩ := hheadSpells .broken thead hthead
      refine ⟨region, body, hregion, hspelled _ hlines body htbody, ?_⟩
      simp [htagEnd]

/-- The layout of a brace block is firm and spells the block. -/
theorem PlainForest.doc_block (h : PlainForest extra true forest) {indentWidth : Nat}
    (hfirm : FirmIn indentWidth forest) (hspelled : SpelledIn extra true indentWidth forest)
    {opener : Text} (hopener : opener = ['{'] ∨ opener = ['@', '{']) :
    (Node.doc indentWidth (.code opener forest false)).Firm ∧
      ∀ t, (Node.doc indentWidth (.code opener forest false)).Spells .broken t →
        ∃ body, Written extra true forest body ∧ t = opener ++ (body ++ ['}']) := by
  have hlines : ∀ node : Node, ((fun _ => Doc.hardLine) node).IsLine := fun _ => Or.inl rfl
  have hopening : ∀ firm, Doc.firmAfter firm (Doc.ofText opener) = some true := by
    intro firm
    rcases hopener with rfl | rfl <;> exact Doc.firmAfter_ofText firm rfl (c := '{') (by decide)
  have hclosing : ∀ firm, Doc.firmAfter firm (Doc.ofText ['}']) = some true :=
    fun firm => Doc.firmAfter_ofText firm rfl (c := '}') (by decide)
  rw [h.trimmed.doc_block_eq hfirm hopener]
  split
  · rename_i hempty
    subst hempty
    refine ⟨?_, ?_⟩
    · intro firm
      simp only [Doc.firmAfter_seq, Doc.firmAfterAll, hopening, Option.bind_some,
        Doc.firmAfter_hardLine, hclosing]
    · intro t ht
      simp only [Doc.spells_seq, Doc.SpellsAll, Doc.spells_ofText] at ht
      obtain ⟨_, _, rfl, rfl, blanks, _, rfl, hblanks, _, _, rfl, rfl, rfl⟩ := ht
      obtain ⟨-, hall, -⟩ := Doc.IsLine.spells (Or.inl rfl) hblanks
      exact ⟨blanks, .nil hall, by simp⟩
  · rename_i hne
    have hbody := firm_seq_laid hlines hfirm hne
    generalize hd : Doc.seq (Item.laid (fun _ => Doc.hardLine) indentWidth forest) = d at *
    refine ⟨?_, ?_⟩
    · intro firm
      simp only [Doc.firmAfter_seq, Doc.firmAfterAll, hopening, Option.bind_some,
        Doc.firmAfter_indentBy, Doc.firmAfter_hardLine, hbody _, hclosing]
    · intro t ht
      simp only [Doc.spells_seq, Doc.SpellsAll, Doc.spells_ofText, Doc.spells_indentBy] at ht
      obtain ⟨_, _, rfl, rfl, _, _, rfl, ⟨front, _, rfl, hfront, body, _, rfl, htbody, rfl⟩, back,
        _, rfl, hback, _, _, rfl, rfl, rfl⟩ := ht
      obtain ⟨-, hfront', -⟩ := Doc.IsLine.spells (Or.inl rfl) hfront
      obtain ⟨-, hback', hend⟩ := Doc.IsLine.spells (Or.inl rfl) hback
      rw [← hd, Doc.spells_seq] at htbody
      have hwritten := (hspelled _ hlines body htbody).append_blanks hback' hend
      refine ⟨front ++ (body ++ back), hwritten.prepend hfront', ?_⟩
      simp

/-- The layout of a directive is firm and spells its header and its block. -/
theorem PlainForest.doc_directive (h : PlainForest extra true forest) {indentWidth : Nat}
    (hfirm : FirmIn indentWidth forest) (hspelled : SpelledIn extra true indentWidth forest)
    {header opener : Text} (hheader : plainHeader header = true)
    (hopener : opener = ['{'] ∨ opener = ['@', '{']) :
    let node := Node.code header [.code opener forest false] false
    (Node.doc indentWidth node).Firm ∧
      ∀ t, (Node.doc indentWidth node).Spells .broken t →
        ∃ body, Written extra true forest body ∧
          t = header ++ (' ' :: (opener ++ (body ++ ['}']))) := by
  obtain ⟨hblock, hblockSpells⟩ := h.doc_block hfirm hspelled hopener
  have hdoc := doc_directive_eq hheader hopener indentWidth forest hblock
  intro node
  rw [show Node.doc indentWidth node = _ from hdoc]
  refine ⟨?_, ?_⟩
  · intro firm
    simp only [Doc.firmAfter_seq, Doc.firmAfterAll, hblock _]
    rfl
  · intro t ht
    simp only [Doc.spells_seq, Doc.SpellsAll, Doc.spells_ofText, Doc.Spells] at ht
    obtain ⟨_, _, rfl, rfl, _, _, rfl, rfl, _, _, rfl, ⟨tblock, _, rfl, htblock, rfl⟩, rfl⟩ := ht
    obtain ⟨body, hbody, rfl⟩ := hblockSpells tblock htblock
    exact ⟨body, hbody, by simp⟩

/-! ## Printing -/

theorem firmIn_cons {indentWidth : Nat} {node : Node} {rest : List Node}
    (hnode : (Node.doc indentWidth node).Firm) (hrest : FirmIn indentWidth rest) :
    FirmIn indentWidth (node :: rest) := by
  intro n hn
  rcases List.mem_cons.1 hn with rfl | hn
  · exact hnode
  · exact hrest n hn

/-- A forest is spelled in written forms if its first node is, in front of a written form of the
others after a line end. -/
theorem spelledIn_cons {indentWidth : Nat} {node : Node} {rest : List Node}
    (hnode : ∀ t₁ t, (Node.doc indentWidth node).Spells .broken t₁ → endsLine t = true →
      Written extra inBlock rest t → Written extra inBlock (node :: rest) (t₁ ++ t))
    (hrest : SpelledIn extra inBlock indentWidth rest) :
    SpelledIn extra inBlock indentWidth (node :: rest) := by
  rintro line hline _ ⟨t₁, t, rfl, ht₁, ht⟩
  obtain ⟨hwritten, hend⟩ := written_of_spells_lined hline (hrest line hline) ht
  exact hnode t₁ t ht₁ hend hwritten

/-- The layout of a trimmed text on one line is firm. -/
theorem firm_text {s : Text} (hne : s ≠ []) (htrim : Text.trim s = s) : (Doc.text s).Firm := by
  obtain ⟨c, hlast, hc⟩ := getLast?_of_trim hne htrim
  intro firm
  rw [Doc.firmAfter, hlast]
  simpa using ne_space_of_not_isBlank hc

/-- The layouts of the nodes of a plain forest are firm, and with lines between them they spell
written forms of the forest. -/
theorem PlainForest.firm_and_spelled (h : PlainForest extra inBlock forest) (indentWidth : Nat) :
    FirmIn indentWidth forest ∧ SpelledIn extra inBlock indentWidth forest := by
  induction h with
  | nil =>
    refine ⟨fun node hnode => absurd hnode List.not_mem_nil, ?_⟩
    rintro line - t rfl
    exact .nil rfl
  | @text content rest hcontent hrest _ ih =>
    obtain ⟨hne, htrim, -, -⟩ := (plainText_iff content).1 hcontent
    have hdoc : Node.doc indentWidth (.text content) = .text content := by
      rw [Node.doc, textDoc_of_plainText _ (by rw [htrim]; exact hcontent), htrim]
    refine ⟨firmIn_cons (hdoc ▸ firm_text hne htrim) ih.1, spelledIn_cons ?_ ih.2⟩
    intro t₁ t ht₁ hend hwritten
    rw [hdoc, Doc.Spells] at ht₁
    rw [ht₁]
    exact .text allBlank_nil hcontent hrest hend hwritten
  | @closed inBlock name attributes rest hname hattributes _ ih =>
    obtain ⟨hhead, hheadSpells⟩ := headDoc_spec indentWidth hname hattributes true
    have hdoc : Node.doc indentWidth (.markup name attributes [] true) =
        headDoc indentWidth name attributes true := by
      rw [Node.doc, elementDoc, if_pos rfl]
    refine ⟨firmIn_cons (hdoc ▸ hhead) ih.1, spelledIn_cons ?_ ih.2⟩
    intro t₁ t ht₁ _ hwritten
    rw [hdoc] at ht₁
    obtain ⟨region, hregion, rfl⟩ := hheadSpells .broken t₁ ht₁
    rw [tagEnd_of_plainName hname]
    have hshape := Written.closed allBlank_nil hname hregion hwritten
    simpa only [List.nil_append, List.append_assoc, List.cons_append] using hshape
  | @element inBlock name attributes children rest hname hattributes hvoid hchildren _ ihc ih =>
    obtain ⟨hfirm, hspells⟩ := hchildren.doc_element ihc.1 ihc.2 hname hattributes
    refine ⟨firmIn_cons hfirm ih.1, spelledIn_cons ?_ ih.2⟩
    intro t₁ t ht₁ _ hwritten
    obtain ⟨region, body, hregion, hbody, rfl⟩ := hspells t₁ ht₁
    have hshape := Written.element allBlank_nil hname hregion hvoid hbody hwritten
    simpa only [List.nil_append, List.append_assoc, List.cons_append] using hshape
  | @header inBlock header rest hheader hrest _ ih =>
    have hdoc := doc_header_eq hheader indentWidth
    have hfirm := firm_text (plainHeader_ne_nil hheader) (plainHeader_keyword hheader).1
    refine ⟨firmIn_cons (hdoc ▸ hfirm) ih.1, spelledIn_cons ?_ ih.2⟩
    intro t₁ t ht₁ hend hwritten
    rw [hdoc, Doc.Spells] at ht₁
    rw [ht₁]
    exact .header allBlank_nil hheader hrest hend hwritten
  | @block inBlock children rest hchildren _ ihc ih =>
    obtain ⟨hfirm, hspells⟩ := hchildren.doc_block ihc.1 ihc.2 (Or.inr rfl)
    refine ⟨firmIn_cons hfirm ih.1, spelledIn_cons ?_ ih.2⟩
    intro t₁ t ht₁ _ hwritten
    obtain ⟨body, hbody, rfl⟩ := hspells t₁ ht₁
    have hshape := Written.block allBlank_nil hbody hwritten
    simpa only [List.nil_append, List.append_assoc, List.cons_append] using hshape
  | @directive inBlock header opener children rest hheader hopener hchildren _ ihc ih =>
    have hcases := plainOpener_braces hopener
    obtain ⟨hfirm, hspells⟩ := hchildren.doc_directive ihc.1 ihc.2 hheader hcases
    refine ⟨firmIn_cons hfirm ih.1, spelledIn_cons ?_ ih.2⟩
    intro t₁ t ht₁ _ hwritten
    obtain ⟨body, hbody, rfl⟩ := hspells t₁ ht₁
    have hshape := Written.directive allBlank_nil hheader hopener hbody hwritten
    simpa only [List.nil_append, List.append_assoc, List.cons_append] using hshape

/-- A plain forest has no code section. -/
theorem PlainForest.splitSection_eq (h : PlainForest extra false (Node.trimAll nodes)) :
    splitSection nodes = (nodes, none) := by
  unfold splitSection
  split
  · rename_i content hlast
    rcases h.cases_of_mem _ (List.mem_of_getLast? hlast) with
      ⟨-, content', hcontent, heq⟩ | ⟨_, _, _, _, heq⟩ | ⟨_, _, _, _, heq⟩
    · cases heq
      have hopens : CodeSection.opens content = false := by
        by_contra hopens
        rw [Bool.not_eq_false, CodeSection.opens, Bool.and_eq_true, List.isPrefixOf_iff_prefix]
          at hopens
        obtain ⟨rest, hrest⟩ := hopens.1
        -- the text would start with an `@`, which trimming keeps
        have hat : '@' ∈ Text.trim content := by
          rw [← hrest]
          show '@' ∈ Text.trim ('@' :: _)
          rw [Text.trim_cons (by decide)]
          exact List.mem_cons_self
        obtain ⟨-, -, hchars, -⟩ := (plainText_iff _).1 hcontent
        exact (hchars _ hat).2.2.1 rfl
      rw [hopens]
      rfl
    · cases heq
    · cases heq
  · rfl

/-- The layout of a plain forest. -/
theorem PlainForest.forestDoc_eq (h : PlainForest extra false (Node.trimAll nodes))
    {indentWidth : Nat} (hfirm : FirmIn indentWidth nodes) (hne : nodes ≠ []) :
    forestDoc indentWidth nodes =
      Doc.seq [Doc.seq (Item.laid (fun _ => Doc.hardLine) indentWidth nodes), Doc.hardLine] := by
  have hroot : Container.root = .block → false = true := fun heq => by cases heq
  have hnil := (firm_seq_laid (fun _ => Or.inl rfl) hfirm hne).isNil
  have hdoc := h.sequenceDoc_eq hfirm hroot
  rw [forestDoc, h.splitSection_eq]
  simp only [hdoc, hnil, Bool.false_eq_true, if_false]

/-- If a text is a line break and spaces at its end, but for some spaces, it ends with a line break
and spaces itself. -/
theorem eq_of_append_spaces {s t : Text} {m n : Nat}
    (h : s ++ List.replicate n ' ' = t ++ '\n' :: List.replicate m ' ') :
    ∃ k, s = t ++ '\n' :: List.replicate k ' ' := by
  have hbreak : ∀ k, '\n' ∉ List.replicate k ' ' := by
    intro k hmem
    exact absurd (List.eq_of_mem_replicate hmem) (by decide)
  rcases List.append_eq_append_iff.1 h with ⟨a, -, ha⟩ | ⟨a, rfl, ha⟩
  · exact absurd (ha ▸ by simp) (hbreak n)
  · cases a with
    | nil =>
      rw [List.nil_append] at ha
      exact absurd (ha ▸ List.mem_cons_self) (hbreak n)
    | cons c r =>
      rw [List.cons_append, List.cons.injEq] at ha
      obtain ⟨rfl, hr⟩ := ha
      obtain ⟨-, hspaces, -⟩ := List.append_eq_replicate_iff.1 hr.symm
      exact ⟨r.length, by rw [← hspaces]⟩

/-- A plain forest is printed in a written form, whatever the style. -/
theorem PlainForest.written_render (h : PlainForest extra false forest)
    (indentWidth printWidth : Nat) :
    Written extra false forest ((forestDoc indentWidth forest).render printWidth) := by
  by_cases hne : forest = []
  · subst hne
    exact .nil rfl
  have hlines : ∀ node : Node, ((fun _ => Doc.hardLine) node).IsLine := fun _ => Or.inl rfl
  obtain ⟨hfirm, hspelled⟩ := h.firm_and_spelled indentWidth
  have hafter : (forestDoc indentWidth forest).firmAfter false = some false := by
    have hlaid := firm_seq_laid hlines hfirm hne false
    rw [h.trimmed.forestDoc_eq hfirm hne, Doc.firmAfter_seq, Doc.firmAfterAll, hlaid,
      Option.bind_some, Doc.firmAfterAll_singleton, Doc.firmAfter_hardLine]
  obtain ⟨n, hspells⟩ := Doc.exists_spells_render printWidth hafter
  rw [h.trimmed.forestDoc_eq hfirm hne] at hspells
  simp only [Doc.spells_seq, Doc.SpellsAll] at hspells
  obtain ⟨t, _, heq, ht, blanks, _, rfl, hblanks, rfl⟩ := hspells
  rw [← h.trimmed.forestDoc_eq hfirm hne] at heq
  obtain ⟨m, rfl⟩ := (Doc.spells_hardLine blanks).1 hblanks
  rw [List.append_nil] at heq
  obtain ⟨k, hrender⟩ := eq_of_append_spaces heq
  rw [hrender]
  refine (hspelled _ hlines t ht).append_blanks ?_ rfl
  rw [Text.allBlank, List.all_eq_true]
  exact fun c hc => Text.isBlank_of_isAsciiBlank (isAsciiBlank_of_mem_break hc)

end PlainItems

end RazorTidy
