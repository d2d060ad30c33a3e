import RazorTidy.Format
import RazorTidy.Proofs.Forest
import RazorTidy.Proofs.Keyword
import RazorTidy.Proofs.Visible
import Mathlib.Data.List.Basic

/-!
# Formatting changes blanks only

The plain serialisation of a forest writes its nodes one after the other without any layout. A
formatted template has the visible characters of the plain serialisation of its forest
(`Style.visible_format`), in every style: layout and printing add, drop and move blanks only.

Each layout is compared with what it lays out, bottom-up: line blocks and inline nodes, items,
elements and code, nodes (`Node.visible_doc`), forests (`visible_forestDoc`). An expression is laid
out without children, so the comparison asks that expressions have none; reading a template never
gives them any (`Template.leafExpressions_parse`).
-/

set_option autoImplicit false

namespace RazorTidy

/-! ## Plain serialisation -/

/-- An attribute written without layout: its name alone if it has no value, else the value in double
quotes, or in single ones if it holds double quotes and no single ones. -/
def serializeAttribute (name value : Text) : Text :=
  if value = [] then name
  else if '"' ∈ value ∧ '\'' ∉ value then name ++ ['=', '\''] ++ value ++ ['\'']
  else name ++ ['=', '"'] ++ value ++ ['"']

/-- Attributes written one after the other without layout. -/
def AttributeMap.serialize (attributes : AttributeMap) : Text :=
  attributes.entries.flatMap fun (name, value) => serializeAttribute name value

namespace Node

mutual
/-- A node written without layout. -/
def serialize : Node → Text
  | .markup name attributes children selfClosing =>
    ['<'] ++ name ++ attributes.serialize ++
      if selfClosing then
        if isDeclarationName name then ['>'] else ['/', '>']
      else ['>'] ++ serializeAll children ++ ['<', '/'] ++ name ++ ['>']
  | .code keyword children _ =>
    keyword ++ serializeAll children ++
      if CodeKind.ofKeyword keyword = .block then ['}'] else []
  | .text content => content
  | .comment content => content
/-- The nodes of a forest written one after the other without layout. -/
def serializeAll : List Node → Text
  | [] => []
  | node :: rest => serialize node ++ serializeAll rest
end

attribute [local simp] serialize serializeAll in
theorem serializeAll_eq_flatMap (nodes : List Node) :
    serializeAll nodes = nodes.flatMap serialize := by
  induction nodes with
  | nil => rfl
  | cons node rest ih => simp [ih]

theorem serializeAll_append (as bs : List Node) :
    serializeAll (as ++ bs) = serializeAll as ++ serializeAll bs := by
  simp only [serializeAll_eq_flatMap, List.flatMap_append]

end Node

/-! ## Expressions without children -/

/-- A node that has no children if it is an inline expression. -/
def Node.LeafExpression (node : Node) : Prop := node.isCode .expression = true → node.children = []

theorem growth_leafExpression :
    Growth Node.LeafExpression (fun node => node.isCode .expression = false) where
  text content := by
    intro h
    cases h
  comment content := by
    intro h
    cases h
  close := by
    intro node h h'
    rw [h] at h'
    cases h'
  push := by
    intro node child node' h hpush
    cases node <;> simp only [Node.push?, Option.some.injEq, reduceCtorEq] at hpush <;>
      rw [← hpush] <;> exact h

/-- No expression in the forest of a template has children. -/
theorem Template.leafExpressions_parse (extra : List Text) (source : Text) :
    Node.EverywhereIn Node.LeafExpression (parse extra source) := by
  apply everywhere_parse growth_leafExpression
  intro token hmem beforeBlock
  have hkeyword : ∀ codeKind, token.kind.codeKind? = some codeKind →
      CodeKind.ofKeyword token.text = codeKind :=
    fun _ => Segmentation.ofKeyword_of_mem_tokens hmem
  rcases token with ⟨kind, text⟩
  cases kind with
  | comment => trivial
  | openTag =>
    refine ⟨rfl, ?_⟩
    split
    · exact fun _ => rfl
    · rfl
  | closeTag => trivial
  | voidTag =>
    refine ⟨rfl, ?_⟩
    split
    · exact fun _ => rfl
    · rfl
  | braceOpen =>
    have hblock : CodeKind.ofKeyword text = .block := hkeyword .block rfl
    refine ⟨rfl, ?_⟩
    show (CodeKind.ofKeyword text == CodeKind.expression) = false
    rw [hblock]
    rfl
  | braceClose => trivial
  | directive =>
    have hdirective : CodeKind.ofKeyword text = .directive := hkeyword .directive rfl
    refine ⟨rfl, ?_⟩
    split
    · exact fun _ => rfl
    · show (CodeKind.ofKeyword text == CodeKind.expression) = false
      rw [hdirective]
      rfl
  | expression => exact ⟨rfl, fun _ => rfl⟩
  | continuation =>
    have hdirective : CodeKind.ofKeyword text = .directive := hkeyword .directive rfl
    refine ⟨rfl, ?_⟩
    split
    · exact fun _ => rfl
    · show (CodeKind.ofKeyword text == CodeKind.expression) = false
      rw [hdirective]
      rfl

/-! ## Inline nodes and items -/

theorem visible_blockDoc (s : Text) : (blockDoc s).visible = Text.visible s := by
  rw [blockDoc, Doc.visible_ofLines, LineBlock.visible_normalize]

theorem visible_space : Text.visible [' '] = [] := by decide

theorem visible_textDoc (container : Container) (atStart atEnd : Bool) (content : Text) :
    (textDoc container atStart atEnd content).visible = Text.visible content := by
  rw [textDoc]
  dsimp only
  split
  · rename_i hcore
    have hnone : Text.visible content = [] := by
      rw [← Text.visible_trim, List.isEmpty_iff.1 hcore, Text.visible_nil]
    rw [hnone]
    split
    · rw [Doc.visible]
    · rw [Doc.visible_ofText, visible_space]
  · -- what is put at either end is blank
    have hleading : (if (!atStart && Text.startsBlank content) = true then Doc.ofText [' ']
        else .nil).visible = [] := by
      split
      · rw [Doc.visible_ofText, visible_space]
      · rw [Doc.visible]
    have htrailing : (if (atEnd || !Text.endsBlank content) = true then Doc.nil
        else if container = .block ∧ endsInLineComment (Text.trim content) = true then Doc.hardLine
        else Doc.ofText [' ']).visible = [] := by
      split
      · rw [Doc.visible]
      · split
        · exact Doc.visible_hardLine
        · rw [Doc.visible_ofText, visible_space]
    rw [Doc.visible_seq, List.flatMap_cons, List.flatMap_cons, List.flatMap_singleton, hleading,
      htrailing, visible_blockDoc, Text.visible_trim, List.nil_append, List.append_nil]

namespace Inline

/-- An inline node as it is written. -/
def source : Inline → Text
  | .text content => content
  | .expression keyword => keyword

theorem visible_doc (container : Container) (atStart atEnd : Bool) (piece : Inline) :
    (piece.doc container atStart atEnd).visible = Text.visible piece.source := by
  cases piece with
  | text content => exact visible_textDoc container atStart atEnd content
  | expression keyword => exact visible_blockDoc keyword

theorem visible_runDoc (container : Container) (run : List Inline) :
    (runDoc container run).visible = run.flatMap fun piece => Text.visible piece.source := by
  rw [runDoc, Doc.visible_seq]
  generalize true = atStart
  induction run generalizing atStart with
  | nil => rfl
  | cons piece rest ih => rw [docs, List.flatMap_cons, visible_doc, ih, List.flatMap_cons]

end Inline

namespace Item

theorem visible_laidOut (container : Container) (items : List Item) :
    (laidOut container items).flatMap (fun entry => entry.2.visible) =
      items.flatMap fun item => (item.doc container).visible := by
  induction items with
  | nil => rfl
  | cons item rest ih =>
    rw [laidOut, List.map_cons, List.filter_cons]
    split
    · rw [List.flatMap_cons, List.flatMap_cons]
      exact congrArg _ ih
    · rename_i hnil
      rw [Bool.not_eq_true', Bool.not_eq_false] at hnil
      rw [List.flatMap_cons, Doc.visible_of_isNil hnil, List.nil_append]
      exact ih

theorem visible_separator (container : Container) (item item' : Item) :
    (separator container item item').visible = [] := by
  cases item with
  | run pieces =>
    cases item' with
    | run pieces' => exact Doc.visible_hardLine
    | single node d =>
      rw [separator]
      split
      · rw [Doc.visible_ofText, visible_space]
      · exact Doc.visible_hardLine
  | single node d =>
    cases item' with
    | run pieces' =>
      rw [separator]
      split
      · rw [Doc.visible]
      · exact Doc.visible_hardLine
    | single node' d' => exact Doc.visible_hardLine

theorem visible_separated (container : Container) (entries : List (Item × Doc)) :
    (separated container entries).flatMap Doc.visible =
      entries.flatMap fun entry => entry.2.visible := by
  fun_induction separated container entries with
  | case1 => rfl
  | case2 item d => simp
  | case3 item d item' d' rest ih =>
    rw [List.flatMap_cons, List.flatMap_cons, visible_separator, List.nil_append, ih]
    rfl

theorem visible_elementLine (item : Item) : (elementLine item).visible = [] := by
  unfold elementLine
  split
  · exact Doc.visible_hardLine
  · exact Doc.visible_softLine

theorem visible_sequenceDoc (container : Container) (items : List Item) :
    (sequenceDoc container items).visible =
      items.flatMap fun item => (item.doc container).visible := by
  rw [sequenceDoc, Doc.visible_seq, visible_separated, visible_laidOut]

theorem visible_elementBody (items : List Item) :
    (elementBody items).1.visible = items.flatMap fun item => (item.doc .element).visible := by
  rw [← visible_laidOut .element items, elementBody]
  dsimp only
  split
  · rw [Doc.visible_seq, List.flatMap_assoc]
    congr 1
    funext entry
    simp [visible_elementLine]
  · rw [Doc.visible_seq, List.flatMap_map]

/-- Grouping nodes into items keeps what their layouts show, if a node that flows in a line shows
itself. -/
theorem visible_group (container : Container) (children : List (Node × Doc))
    (h : ∀ child ∈ children, ∀ piece, child.1.inline? = some piece →
      Text.visible piece.source = child.2.visible) :
    (group children).flatMap (fun item => (item.doc container).visible) =
      children.flatMap fun child => child.2.visible := by
  induction children with
  | nil => rfl
  | cons child rest ih =>
    rcases child with ⟨node, d⟩
    have ih' := ih fun child hmem => h child (List.mem_cons_of_mem _ hmem)
    rw [group, List.flatMap_cons, ← ih']
    split
    · rfl
    · rename_i piece hpiece
      have hd : Text.visible piece.source = d.visible := h (node, d) List.mem_cons_self piece hpiece
      -- the piece starts a run of its own or joins the run after it
      split
      · rename_i pieces items hrun
        rw [hrun, List.flatMap_cons, List.flatMap_cons]
        simp only [doc, Inline.visible_runDoc, List.flatMap_cons, hd, List.append_assoc]
      · rw [List.flatMap_cons]
        simp only [doc, Inline.visible_runDoc, List.flatMap_cons, List.flatMap_nil, hd,
          List.append_nil]

end Item

/-! ## Elements and code -/

theorem attributeText_eq (name value : Text) :
    attributeText name value = serializeAttribute name value := by
  rw [attributeText, serializeAttribute]
  simp only [List.isEmpty_iff, Bool.and_eq_true, List.contains_iff_mem, Bool.not_eq_true',
    List.append_assoc, List.cons_append, List.nil_append]
  simp only [← Bool.not_eq_true, List.contains_iff_mem]

theorem visible_attributeDoc (name value : Text) :
    (attributeDoc name value).visible = Text.visible (serializeAttribute name value) := by
  rw [attributeDoc, ← attributeText_eq]
  split
  · exact visible_blockDoc _
  · exact Doc.visible_ofText _

theorem visible_headDoc (indentWidth : Nat) (name : Text) (attributes : AttributeMap)
    (selfClosing : Bool) :
    (headDoc indentWidth name attributes selfClosing).visible =
      Text.visible (['<'] ++ name ++ attributes.serialize ++ tagEnd name selfClosing) := by
  have hentries : ∀ entries : List (Text × Text),
      (entries.map fun (n, v) => Doc.seq [Doc.softLine, attributeDoc n v]).flatMap Doc.visible =
        Text.visible (entries.flatMap fun (n, v) => serializeAttribute n v) := by
    intro entries
    induction entries with
    | nil => rfl
    | cons entry rest ih =>
      rw [List.map_cons, List.flatMap_cons, ih, List.flatMap_cons, Text.visible_append]
      simp [visible_attributeDoc]
  rw [headDoc, AttributeMap.serialize]
  simp only [Doc.visible_grouped, Doc.visible_seq, List.flatMap_cons, List.flatMap_nil,
    Doc.visible_ofText, Doc.visible_indentBy, hentries, Text.visible_append, List.append_nil,
    List.append_assoc]
  rw [Text.visible_cons, List.append_assoc]

/-- Children with layouts that show them. -/
def Shown (children : List (Node × Doc)) : Prop :=
  ∀ child ∈ children, Node.LeafExpression child.1 ∧
    child.2.visible = Text.visible child.1.serialize

theorem Shown.inline {children : List (Node × Doc)} (h : Shown children) :
    ∀ child ∈ children, ∀ piece, child.1.inline? = some piece →
      Text.visible piece.source = child.2.visible := by
  rintro ⟨node, d⟩ hmem piece hpiece
  obtain ⟨hleaf, hshown⟩ := h _ hmem
  rw [hshown]
  cases node with
  | markup name attributes children selfClosing => cases hpiece
  | code keyword children selfClosing =>
    rw [Node.inline?] at hpiece
    split at hpiece
    · rename_i hexpression
      cases hpiece
      have hnone : children = [] := hleaf (by simp [Node.isCode, hexpression])
      rw [Node.serialize, hnone, hexpression]
      simp [Node.serializeAll, Inline.source]
    · cases hpiece
  | text content =>
    cases hpiece
    rw [Node.serialize, Inline.source]
  | comment content => cases hpiece

theorem Shown.flatMap {children : List (Node × Doc)} (h : Shown children) :
    children.flatMap (fun child => child.2.visible) =
      Text.visible (Node.serializeAll (children.map Prod.fst)) := by
  induction children with
  | nil => rfl
  | cons child rest ih =>
    rw [List.flatMap_cons, List.map_cons, Node.serializeAll, Text.visible_append,
      (h child List.mem_cons_self).2, ih fun c hc => h c (List.mem_cons_of_mem _ hc)]

theorem Shown.sequenceDoc {children : List (Node × Doc)} (h : Shown children)
    (container : Container) :
    (Item.sequenceDoc container (Item.group children)).visible =
      Text.visible (Node.serializeAll (children.map Prod.fst)) := by
  rw [Item.visible_sequenceDoc, Item.visible_group container children h.inline, h.flatMap]

theorem Shown.elementBody {children : List (Node × Doc)} (h : Shown children) :
    (Item.elementBody (Item.group children)).1.visible =
      Text.visible (Node.serializeAll (children.map Prod.fst)) := by
  rw [Item.visible_elementBody, Item.visible_group .element children h.inline, h.flatMap]

/-- An open element shows its head, its body and its closing tag. -/
theorem visible_serialize_open (indentWidth : Nat) (name : Text) (attributes : AttributeMap)
    (children : List Node) :
    Text.visible (Node.serialize (.markup name attributes children false)) =
      (headDoc indentWidth name attributes false).visible ++
        (Text.visible (Node.serializeAll children) ++ Text.visible (closingTag name)) := by
  have hend : tagEnd name false = ['>'] := rfl
  have hclose : closingTag name = ['<', '/'] ++ name ++ ['>'] := rfl
  rw [visible_headDoc, hend, hclose, ← Text.visible_append, ← Text.visible_append, Node.serialize]
  simp only [Bool.false_eq_true, if_false, List.append_assoc]

theorem visible_elementDoc (indentWidth : Nat) (name : Text) (attributes : AttributeMap)
    (selfClosing : Bool) {children : List (Node × Doc)} (h : Shown children) :
    (elementDoc indentWidth name attributes selfClosing children).visible =
      Text.visible (Node.serialize
        (.markup name attributes (children.map Prod.fst) selfClosing)) := by
  have hbody := h.elementBody
  rw [elementDoc]
  split
  · rename_i hself
    subst hself
    rw [visible_headDoc, Node.serialize, tagEnd]
    cases isDeclarationName name <;> rfl
  · rename_i hself
    rw [Bool.not_eq_true] at hself
    subst hself
    rw [visible_serialize_open indentWidth]
    split
    · rename_i content hraw
      -- the only child is the raw text
      have hchild : children.map Prod.fst = [.text content] := by
        unfold rawBlock? at hraw
        split at hraw
        · rename_i content' heq
          split at hraw
          · cases hraw
            exact heq
          · cases hraw
        · cases hraw
      rw [hchild]
      simp [visible_blockDoc, Node.serializeAll, Node.serialize]
    · split
      · rename_i body hsplit
        rw [hsplit] at hbody
        simp [hbody]
      · rename_i body hsplit
        rw [hsplit] at hbody
        simp [hbody]

theorem visible_codeDoc (indentWidth : Nat) (keyword : Text) (selfClosing : Bool)
    {children : List (Node × Doc)} (h : Shown children)
    (hleaf : Node.LeafExpression (.code keyword (children.map Prod.fst) selfClosing)) :
    (codeDoc indentWidth keyword children).visible =
      Text.visible (Node.serialize (.code keyword (children.map Prod.fst) selfClosing)) := by
  have hbody := h.sequenceDoc .block
  rw [codeDoc, Node.serialize, Text.visible_append, Text.visible_append, ← hbody]
  cases hkind : CodeKind.ofKeyword keyword with
  | block =>
    dsimp only
    split
    · rename_i hnil
      simp [Doc.visible_of_isNil hnil]
    · simp
  | directive =>
    dsimp only
    split
    · rename_i hnil
      simp [Doc.visible_of_isNil hnil, visible_blockDoc]
    · simp [visible_blockDoc, visible_space]
  | expression =>
    -- children of an expression would be lost, but it has none
    have hnone : children.map Prod.fst = [] := hleaf (by simp [Node.isCode, hkind])
    rw [hnone] at hbody
    rw [hbody]
    simp [visible_blockDoc, Node.serializeAll]

/-! ## Nodes and forests -/

namespace Node

theorem withDocs_eq_map (indentWidth : Nat) (nodes : List Node) :
    withDocs indentWidth nodes = nodes.map fun node => (node, doc indentWidth node) := by
  induction nodes with
  | nil => rfl
  | cons node rest ih => rw [withDocs, ih, List.map_cons]

theorem map_fst_withDocs (indentWidth : Nat) (nodes : List Node) :
    (withDocs indentWidth nodes).map Prod.fst = nodes := by
  rw [withDocs_eq_map, List.map_map]
  exact List.map_id nodes

theorem shown_withDocs {indentWidth : Nat} {nodes : List Node}
    (hleaf : EverywhereIn LeafExpression nodes)
    (hdoc : ∀ node ∈ nodes, (doc indentWidth node).visible = Text.visible (serialize node)) :
    Shown (withDocs indentWidth nodes) := by
  intro child hmem
  rw [withDocs_eq_map] at hmem
  obtain ⟨node, hnode, rfl⟩ := List.mem_map.1 hmem
  have hevery := (everywhereIn_iff nodes).1 hleaf node hnode
  exact ⟨((everywhere_iff node).1 hevery).1, hdoc node hnode⟩

/-- The layout of a node shows the node. -/
theorem visible_doc (indentWidth : Nat) (node : Node) :
    Everywhere LeafExpression node →
      (doc indentWidth node).visible = Text.visible (serialize node) := by
  induction node using Node.induct with
  | markup name attributes children selfClosing ih =>
    rintro ⟨-, hchildren⟩
    have hshown := shown_withDocs hchildren fun node hnode =>
      ih node hnode ((everywhereIn_iff children).1 hchildren node hnode)
    have h := visible_elementDoc indentWidth name attributes selfClosing hshown
    rw [map_fst_withDocs] at h
    rw [doc, h]
  | code keyword children selfClosing ih =>
    rintro ⟨hleaf, hchildren⟩
    have hshown := shown_withDocs hchildren fun node hnode =>
      ih node hnode ((everywhereIn_iff children).1 hchildren node hnode)
    have h := visible_codeDoc indentWidth keyword selfClosing hshown
    rw [map_fst_withDocs] at h
    rw [doc, h hleaf]
  | text content =>
    intro _
    rw [doc, serialize, visible_textDoc]
  | comment content =>
    intro _
    rw [doc, serialize, visible_blockDoc]

end Node

theorem visible_sectionDoc (content : Text) :
    (sectionDoc content).visible = Text.visible content := by
  rw [sectionDoc, Doc.visible_ofLines, List.flatMap_map]
  simp only [Text.visible_trimEnd]
  rw [Text.visible_lines, Text.visible_trimEnd]

/-- Setting the code section aside loses nothing. -/
theorem splitSection_append (nodes : List Node) :
    (splitSection nodes).1 ++ (splitSection nodes).2.toList.map Node.text = nodes := by
  rw [splitSection]
  split
  · rename_i content hlast
    split
    · exact List.dropLast_append_getLast? _ hlast
    · exact List.append_nil nodes
  · exact List.append_nil nodes

/-- The layout of a forest shows the forest. -/
theorem visible_forestDoc (indentWidth : Nat) {nodes : List Node}
    (hleaf : Node.EverywhereIn Node.LeafExpression nodes) :
    (forestDoc indentWidth nodes).visible = Text.visible (Node.serializeAll nodes) := by
  have happend := splitSection_append nodes
  rw [forestDoc]
  rcases hsplit : splitSection nodes with ⟨body, codeSection⟩
  rw [hsplit] at happend
  dsimp only at happend ⊢
  -- the body is the forest without the code section, so it keeps the property
  have hbody : Node.EverywhereIn Node.LeafExpression body := by
    rw [Node.everywhereIn_iff] at hleaf ⊢
    intro node hnode
    exact hleaf node (happend ▸ List.mem_append_left _ hnode)
  have hshown := Node.shown_withDocs hbody fun node hnode =>
    Node.visible_doc indentWidth node ((Node.everywhereIn_iff body).1 hbody node hnode)
  have hdoc := hshown.sequenceDoc .root
  rw [Node.map_fst_withDocs] at hdoc
  -- the line break at the end shows nothing
  have hend : ∀ d : Doc,
      (if d.isNil then d else Doc.seq [d, Doc.hardLine]).visible = d.visible := by
    intro d
    split
    · rfl
    · simp
  rw [hend, ← happend, Node.serializeAll_append, Text.visible_append]
  cases codeSection with
  | none => simp [hdoc, Node.serializeAll]
  | some content =>
    dsimp only
    split
    · rename_i hnil
      rw [← hdoc, Doc.visible_of_isNil hnil, visible_sectionDoc]
      simp [Node.serializeAll, Node.serialize]
    · simp [hdoc, visible_sectionDoc, Node.serializeAll, Node.serialize]

/-- Formatting changes blanks only: a formatted template has the visible characters of the plain
serialisation of its forest. -/
theorem Style.visible_format (style : Style) (source : Text) :
    Text.visible (style.format source) = Text.visible (Node.serializeAll (style.parse source)) := by
  rw [Style.format, Style.print, Doc.visible_render]
  exact visible_forestDoc style.indentWidth
    (Template.leafExpressions_parse style.voidElements source)

end RazorTidy
