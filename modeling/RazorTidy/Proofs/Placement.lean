import RazorTidy.Proofs.LineStructure
import RazorTidy.Proofs.Strokes

/-!
# Where children are drawn

The strokes of a node hold the strokes of each child that stands on lines of its own: behind those
that draw what is written before the child, and in front of the rest. In an element a new line comes
before and after the child (`Node.strokes_child_of_element`). In a brace block and at the root the
same holds with two exceptions, a bare block and punctuation after a brace
(`Node.strokes_child_of_block`, `Node.strokes_child_of_sequence`). A directive puts its block behind
its header (`Node.strokes_child_of_directive`). So the strokes of a node hold those of every node
inside it that does not flow in a line (`Node.Regular.strokes_inside`), and a formatted template holds
what those of every such node of the template draw (`Style.exists_strokes_inside`).
-/

set_option autoImplicit false

namespace RazorTidy

/-! ## Items around an item -/

namespace Item

/-- The items of a list whose first node does not flow in a line do not start with a run. -/
theorem group_ne_run {children : List (Node × Doc)}
    (h : ∀ child ∈ children.head?, child.1.inline? = none) (pieces : List Inline)
    (items : List Item) : group children ≠ .run pieces :: items := by
  cases children with
  | nil => simp [group]
  | cons child rest =>
    rcases child with ⟨node, d⟩
    have hnone : node.inline? = none := h (node, d) rfl
    simp [group, hnone]

/-- Siblings may be taken apart in front of a node that does not flow in a line. -/
theorem group_append {front back : List (Node × Doc)}
    (h : ∀ child ∈ back.head?, child.1.inline? = none) :
    group (front ++ back) = group front ++ group back := by
  induction front with
  | nil => rfl
  | cons child rest ih =>
    rcases child with ⟨node, d⟩
    rw [List.cons_append, group, group, ih]
    split
    · rfl
    · rename_i piece hpiece
      -- whether the piece joins a run is seen at the first item behind it
      cases hrest : group rest with
      | nil =>
        rw [List.nil_append]
        split
        · rename_i pieces items hrun
          exact absurd hrun (group_ne_run h pieces items)
        · rfl
      | cons item items =>
        cases item with
        | run pieces => rfl
        | single node' d' => rfl

theorem group_append_single (front back : List (Node × Doc)) {node : Node}
    (h : node.inline? = none) (d : Doc) :
    group (front ++ (node, d) :: back) = group front ++ .single node d :: group back := by
  have hhead : ∀ child ∈ ((node, d) :: back).head?, child.1.inline? = none := by
    intro child hchild
    cases hchild
    exact h
  rw [group_append hhead, group, h]

theorem laidOut_append (container : Container) (front back : List Item) :
    laidOut container (front ++ back) = laidOut container front ++ laidOut container back := by
  rw [laidOut, List.map_append, List.filter_append]
  rfl

theorem laidOut_cons {container : Container} {item : Item}
    (h : (item.doc container).isNil = false) (rest : List Item) :
    laidOut container (item :: rest) = (item, item.doc container) :: laidOut container rest := by
  rw [laidOut, List.map_cons, List.filter_cons, h]
  rfl

/-! ## Strokes around an item -/

section Strokes

open Doc (Strokes StrokesAll hardLine)

variable {container : Container} {indent : Nat} {mode : LineMode} {ks : List Stroke}

/-- The layouts behind one of a sequence are drawn behind a line break, if the separator is one. -/
theorem strokesAll_separated_cons {entry : Item × Doc} {back : List (Item × Doc)}
    (h : StrokesAll indent mode (separated container (entry :: back)) ks) :
    ∃ inner after, ks = inner ++ after ∧ Strokes indent mode entry.2 inner ∧
      ((∀ next ∈ back.head?, separator container entry.1 next.1 = hardLine) →
        after = [] ∨ ∃ more, after = .newLine indent :: more) := by
  rcases entry with ⟨item, d⟩
  cases back with
  | nil =>
    refine ⟨ks, [], (List.append_nil ks).symm, ?_, fun _ => Or.inl rfl⟩
    exact (Doc.strokesAll_singleton d ks).1 h
  | cons next others =>
    rcases next with ⟨item', d'⟩
    rw [separated, StrokesAll] at h
    obtain ⟨inner, after, rfl, hd, hafter⟩ := h
    refine ⟨inner, after, rfl, hd, ?_⟩
    intro hline
    rw [StrokesAll, hline _ rfl] at hafter
    obtain ⟨sep, more, rfl, hsep, -⟩ := hafter
    rw [Doc.strokes_hardLine] at hsep
    exact Or.inr ⟨more, by rw [hsep]; rfl⟩

/-- The strokes of a sequence around the strokes of one of its layouts. A line starts right before
the layout, unless it is the first, and right after it, unless it is the last, if the separators
there are line breaks. -/
theorem strokesAll_separated (front : List (Item × Doc)) {entry : Item × Doc}
    {back : List (Item × Doc)}
    (h : StrokesAll indent mode (separated container (front ++ entry :: back)) ks) :
    ∃ before inner after, ks = before ++ inner ++ after ∧ Strokes indent mode entry.2 inner ∧
      before.flatMap Stroke.visible = front.flatMap (fun other => other.2.visible) ∧
      ((∀ other ∈ front, separator container other.1 entry.1 = hardLine) →
        (front = [] ∧ before = []) ∨ ∃ more, before = more ++ [.newLine indent]) ∧
      ((∀ next ∈ back.head?, separator container entry.1 next.1 = hardLine) →
        after = [] ∨ ∃ more, after = .newLine indent :: more) := by
  -- the induction is on the layouts in front, of which only the last meets the entry
  induction front generalizing ks with
  | nil =>
    obtain ⟨inner, after, rfl, hinner, hafter⟩ := strokesAll_separated_cons h
    exact ⟨[], inner, after, rfl, hinner, rfl, fun _ => Or.inl ⟨rfl, rfl⟩, hafter⟩
  | cons first rest ih =>
    obtain ⟨item, d⟩ := first
    obtain ⟨next, others, hnext⟩ : ∃ next others, rest ++ entry :: back = next :: others := by
      cases rest with
      | nil => exact ⟨_, _, rfl⟩
      | cons next others => exact ⟨_, _, rfl⟩
    rw [List.cons_append, hnext] at h
    rw [hnext] at ih
    rcases next with ⟨item', d'⟩
    rw [separated, StrokesAll] at h
    obtain ⟨drawn, ks₁, rfl, hd, hks₁⟩ := h
    rw [StrokesAll] at hks₁
    obtain ⟨sep, ks₂, rfl, hsep, hks₂⟩ := hks₁
    obtain ⟨before, inner, after, rfl, hinner, hvisible, hbefore, hafter⟩ := ih hks₂
    refine ⟨drawn ++ (sep ++ before), inner, after, ?_, hinner, ?_, ?_, hafter⟩
    · simp only [List.append_assoc]
    · rw [List.flatMap_append, List.flatMap_append, hvisible, Doc.visible_strokes d hd,
        Doc.visible_strokes _ hsep, visible_separator, List.nil_append, List.flatMap_cons]
    · intro hline
      right
      rcases hbefore (fun other hother => hline other (List.mem_cons_of_mem _ hother)) with
        ⟨hrest, hnil⟩ | ⟨more, rfl⟩
      · -- the first layout is followed by the entry itself
        rw [hrest, List.nil_append, List.cons.injEq] at hnext
        have hlast := hline (item, d) List.mem_cons_self
        rw [hnext.1] at hlast
        rw [hlast, Doc.strokes_hardLine] at hsep
        exact ⟨drawn, by rw [hsep, hnil, List.append_nil]⟩
      · exact ⟨drawn ++ (sep ++ more), by simp only [List.append_assoc]⟩

/-- The strokes of the layouts of an element's body around those of one of them. A line starts right
before and right after the layout, unless it is the last. -/
theorem strokesAll_elementLines (front : List (Item × Doc)) {entry : Item × Doc}
    {back : List (Item × Doc)}
    (h : StrokesAll indent .broken
      ((front ++ entry :: back).flatMap fun other => [elementLine other.1, other.2]) ks) :
    ∃ before inner after, ks = before ++ .newLine indent :: (inner ++ after) ∧
      Strokes indent .broken entry.2 inner ∧
      before.flatMap Stroke.visible = front.flatMap (fun other => other.2.visible) ∧
      (after = [] ∨ ∃ more, after = .newLine indent :: more) := by
  have hline : ∀ item ls, Strokes indent .broken (elementLine item) ls → ls = [.newLine indent] := by
    intro item ls hls
    unfold elementLine at hls
    split at hls
    · exact (Doc.strokes_hardLine ls).1 hls
    · exact (Doc.strokes_softLine_broken ls).1 hls
  have hcons : ∀ (other : Item × Doc) (rest : List (Item × Doc)) (ls : List Stroke),
      StrokesAll indent .broken
        ((other :: rest).flatMap fun other => [elementLine other.1, other.2]) ls →
      ∃ drawn more, ls = .newLine indent :: (drawn ++ more) ∧ Strokes indent .broken other.2 drawn ∧
        StrokesAll indent .broken (rest.flatMap fun other => [elementLine other.1, other.2]) more := by
    intro other rest ls hls
    rw [List.flatMap_cons, List.cons_append, List.cons_append, List.nil_append, StrokesAll] at hls
    obtain ⟨sep, ls₁, rfl, hsep, hls₁⟩ := hls
    rw [StrokesAll] at hls₁
    obtain ⟨drawn, more, rfl, hdrawn, hmore⟩ := hls₁
    exact ⟨drawn, more, by rw [hline _ _ hsep]; rfl, hdrawn, hmore⟩
  induction front generalizing ks with
  | nil =>
    obtain ⟨inner, after, rfl, hinner, hafter⟩ := hcons entry back ks h
    refine ⟨[], inner, after, rfl, hinner, rfl, ?_⟩
    cases back with
    | nil => exact Or.inl ((Doc.strokesAll_nil after).1 hafter)
    | cons next others =>
      obtain ⟨drawn, more, rfl, -, -⟩ := hcons next others after hafter
      exact Or.inr ⟨_, rfl⟩
  | cons first rest ih =>
    obtain ⟨drawn, more, rfl, hdrawn, hmore⟩ := hcons first (rest ++ entry :: back) ks h
    obtain ⟨before, inner, after, rfl, hinner, hvisible, hafter⟩ := ih hmore
    refine ⟨.newLine indent :: (drawn ++ before), inner, after, ?_, hinner, ?_, hafter⟩
    · simp only [List.cons_append, List.append_assoc]
    · rw [List.flatMap_cons, List.flatMap_append, hvisible, Doc.visible_strokes _ hdrawn,
        List.flatMap_cons]
      rfl

end Strokes

end Item

/-! ## Regular nodes -/

namespace Node

/-- A property of all nodes of a forest may be weakened. -/
theorem Everywhere.mono {P Q : Node → Prop} (h : ∀ node, P node → Q node) {node : Node} :
    Everywhere P node → Everywhere Q node := by
  induction node using Node.induct with
  | markup name attributes children selfClosing ih =>
    rintro ⟨hnode, hchildren⟩
    refine ⟨h _ hnode, (everywhereIn_iff children).2 fun child hchild => ?_⟩
    exact ih child hchild ((everywhereIn_iff children).1 hchildren child hchild)
  | code keyword children selfClosing ih =>
    rintro ⟨hnode, hchildren⟩
    refine ⟨h _ hnode, (everywhereIn_iff children).2 fun child hchild => ?_⟩
    exact ih child hchild ((everywhereIn_iff children).1 hchildren child hchild)
  | text content => exact h _
  | comment content => exact h _

theorem WellFormed.leafExpression {node : Node} (h : WellFormed node) : LeafExpression node := by
  intro hcode
  cases node with
  | code keyword children selfClosing =>
    have hkind : CodeKind.ofKeyword keyword = .expression := by simpa [isCode] using hcode
    rw [WellFormed, hkind] at h
    exact h.2
  | _ => cases hcode

/-- A node that is well formed and printable, with all that is below it. -/
structure Regular (node : Node) : Prop where
  wellFormed : Everywhere WellFormed node
  printable : Everywhere Printable node

namespace Regular

variable {node child : Node} (h : node.Regular)

include h

theorem of_mem (hchild : child ∈ node.children) : child.Regular where
  wellFormed :=
    (everywhereIn_iff _).1 ((everywhere_iff node).1 h.wellFormed).2 child hchild
  printable :=
    (everywhereIn_iff _).1 ((everywhere_iff node).1 h.printable).2 child hchild

theorem leafExpression : Everywhere LeafExpression node :=
  h.wellFormed.mono fun _ => WellFormed.leafExpression

/-- The layout of a node that stands on lines of its own is solid. -/
theorem solid_doc (indentWidth : Nat) (hinline : node.inline? = none) :
    (doc indentWidth node).Solid := by
  refine Node.solid_doc indentWidth node h.wellFormed h.printable ?_
  cases node with
  | text content => cases hinline
  | _ => rfl

/-- A node that stands on lines of its own shows something. -/
theorem visible_serialize_ne_nil (hinline : node.inline? = none) :
    Text.visible (serialize node) ≠ [] := by
  have hprintable := ((everywhere_iff node).1 h.printable).1
  rw [Ne, Text.visible_eq_nil_iff_allBlank, Bool.not_eq_true]
  cases node with
  | markup name attributes children selfClosing =>
    rw [serialize]
    exact Text.allBlank_cons (by decide) _
  | code keyword children selfClosing =>
    obtain ⟨c, r, hkeyword, hc⟩ := hprintable
    rw [serialize, hkeyword]
    exact Text.allBlank_cons hc _
  | text content => cases hinline
  | comment content => exact hprintable.allBlank

end Regular

section Regular

variable {nodes : List Node} (h : ∀ node ∈ nodes, node.Regular) (indentWidth : Nat)

include h

theorem shown_of_regular : Shown (withDocs indentWidth nodes) := by
  apply shown_withDocs
  · rw [everywhereIn_iff]
    exact fun node hnode => (h node hnode).leafExpression
  · exact fun node hnode => visible_doc indentWidth node (h node hnode).leafExpression

/-- The layouts of the items of regular nodes show the nodes. -/
theorem visible_laidOut_of_regular (container : Container) :
    (Item.laidOut container (Item.group (withDocs indentWidth nodes))).flatMap
        (fun entry => entry.2.visible) =
      Text.visible (serializeAll nodes) := by
  have hshown := shown_of_regular h indentWidth
  rw [Item.visible_laidOut, Item.visible_group container _ hshown.inline, hshown.flatMap,
    map_fst_withDocs]

end Regular

/-! ## Children of elements and of code -/

section Children

open Doc (Strokes StrokesAll)

variable {indentWidth indent : Nat} {mode : LineMode} {ks : List Stroke} {front back : List Node}
  {child : Node}

theorem withDocs_append (indentWidth : Nat) (as bs : List Node) :
    withDocs indentWidth (as ++ bs) = withDocs indentWidth as ++ withDocs indentWidth bs := by
  simp only [withDocs_eq_map, List.map_append]

/-- The items of siblings around one that stands on lines of its own. -/
theorem laidOut_around (container : Container) (hinline : child.inline? = none)
    (hchild : child.Regular) :
    Item.laidOut container (Item.group (withDocs indentWidth (front ++ child :: back))) =
      Item.laidOut container (Item.group (withDocs indentWidth front)) ++
        (.single child (doc indentWidth child), doc indentWidth child) ::
          Item.laidOut container (Item.group (withDocs indentWidth back)) := by
  have hitems : Item.group (withDocs indentWidth (front ++ child :: back)) =
      Item.group (withDocs indentWidth front) ++ .single child (doc indentWidth child) ::
        Item.group (withDocs indentWidth back) := by
    rw [withDocs_append]
    exact Item.group_append_single _ _ hinline _
  have hdoc : (Item.doc container (.single child (doc indentWidth child))).isNil = false :=
    (hchild.solid_doc indentWidth hinline).isNil
  rw [hitems, Item.laidOut_append, Item.laidOut_cons hdoc]
  rfl

/-- The opening tag of an element that is not closed, written without layout. -/
def openingTag (name : Text) (attributes : AttributeMap) : Text :=
  ['<'] ++ name ++ attributes.serialize ++ ['>']

/-- An element with a child on lines of its own has its body on indented lines. -/
theorem elementDoc_around (name : Text) (attributes : AttributeMap)
    (hinline : child.inline? = none) (hchild : child.Regular) :
    elementDoc indentWidth name attributes false (withDocs indentWidth (front ++ child :: back)) =
      Doc.seq
        [headDoc indentWidth name attributes false,
         Doc.grouped (Doc.seq
           [Doc.indentBy indentWidth (Doc.seq
             ((Item.laidOut .element (Item.group (withDocs indentWidth (front ++ child :: back)))).flatMap
               fun entry => [Item.elementLine entry.1, entry.2])),
            Doc.hardLine, Doc.ofText (closingTag name)])] := by
  have hraw : rawBlock? name ((withDocs indentWidth (front ++ child :: back)).map Prod.fst) = none := by
    rw [map_fst_withDocs]
    unfold rawBlock?
    split
    · rename_i content heq
      have hmem : child ∈ [Node.text content] := heq ▸ by simp
      rw [List.mem_singleton.1 hmem] at hinline
      cases hinline
    · rfl
  have hlines : (Item.laidOut .element
      (Item.group (withDocs indentWidth (front ++ child :: back)))).any Item.needsLines = true := by
    rw [laidOut_around .element hinline hchild]
    simp [Item.needsLines]
  have hbody : Item.elementBody (Item.group (withDocs indentWidth (front ++ child :: back))) =
      (Doc.seq ((Item.laidOut .element
        (Item.group (withDocs indentWidth (front ++ child :: back)))).flatMap
          fun entry => [Item.elementLine entry.1, entry.2]), true) := by
    rw [Item.elementBody, if_pos hlines]
  simp only [elementDoc, hraw, hbody, Bool.false_eq_true, if_false]

/-- In the strokes of an element, those of a child on lines of its own stand between two new
lines. -/
theorem strokes_child_of_element {name : Text} {attributes : AttributeMap}
    (hsiblings : ∀ node ∈ front ++ child :: back, node.Regular) (hinline : child.inline? = none)
    (h : Strokes indent mode
      (doc indentWidth (.markup name attributes (front ++ child :: back) false)) ks) :
    ∃ before inner after indent', ks = before ++ .newLine (indent + indentWidth) ::
        (inner ++ .newLine indent' :: after) ∧
      Strokes (indent + indentWidth) .broken (doc indentWidth child) inner ∧
      before.flatMap Stroke.visible =
        Text.visible (openingTag name attributes ++ serializeAll front) := by
  have hchild := hsiblings child (by simp)
  have hfront : ∀ node ∈ front, node.Regular := fun node hnode =>
    hsiblings node (List.mem_append_left _ hnode)
  rw [doc, elementDoc_around name attributes hinline hchild, laidOut_around .element hinline hchild,
    Doc.strokes_seq, StrokesAll] at h
  obtain ⟨head, tail, rfl, hhead, htail⟩ := h
  rw [Doc.strokesAll_singleton] at htail
  -- the closing tag is on a line of its own, so the group is broken
  have hbroken := Doc.strokes_grouped_of_hasHardLine
    (by simp [Doc.hasHardLine_seq, Doc.anyHardLine, Doc.hasHardLine, Doc.hardLine]) htail
  rw [Doc.strokes_seq, StrokesAll] at hbroken
  obtain ⟨body, close, rfl, hbody, hclose⟩ := hbroken
  rw [StrokesAll] at hclose
  obtain ⟨last, close, rfl, hlast, -⟩ := hclose
  rw [Doc.strokes_hardLine] at hlast
  rw [Doc.strokes_indentBy, Doc.strokes_seq] at hbody
  obtain ⟨before, inner, after, rfl, hinner, hvisible, hafter⟩ :=
    Item.strokesAll_elementLines _ hbody
  have hshown : (head ++ before).flatMap Stroke.visible =
      Text.visible (openingTag name attributes ++ serializeAll front) := by
    rw [List.flatMap_append, hvisible, visible_laidOut_of_regular hfront indentWidth,
      Doc.visible_strokes _ hhead, visible_headDoc, Text.visible_append (openingTag name attributes)]
    rfl
  subst hlast
  rcases hafter with rfl | ⟨more, rfl⟩
  · exact ⟨head ++ before, inner, close, indent, by simp, hinner, hshown⟩
  · exact ⟨head ++ before, inner, more ++ .newLine indent :: close, indent + indentWidth, by simp,
      hinner, hshown⟩

/-- The separator in front of a node that is no bare block is a line break. -/
theorem separator_single (container : Container) (item : Item) (hbare : Item.isBareBlock child = false)
    (d : Doc) : Item.separator container item (.single child d) = Doc.hardLine := by
  cases item with
  | run pieces => simp [Item.separator, hbare]
  | single node d' => rfl

/-- The separator behind a node that does not end with a brace is a line break. -/
theorem separator_of_single (container : Container) (item : Item)
    (hbrace : Item.endsWithBrace child = false) (d : Doc) :
    Item.separator container (.single child d) item = Doc.hardLine := by
  cases item with
  | run pieces => simp [Item.separator, hbrace]
  | single node d' => rfl

/-- In the strokes of siblings at the root or in a brace block, those of one on lines of its own
stand between two new lines, the ends of the strokes apart, unless it is a bare block or ends with a
brace. -/
theorem strokes_child_of_sequence {container : Container}
    (hsiblings : ∀ node ∈ front ++ child :: back, node.Regular) (hinline : child.inline? = none)
    (h : Strokes indent mode (Item.sequenceDoc container
      (Item.group (withDocs indentWidth (front ++ child :: back)))) ks) :
    ∃ before inner after, ks = before ++ inner ++ after ∧
      Strokes indent mode (doc indentWidth child) inner ∧
      before.flatMap Stroke.visible = Text.visible (serializeAll front) ∧
      (Item.isBareBlock child = false →
        before = [] ∨ ∃ more, before = more ++ [.newLine indent]) ∧
      (Item.endsWithBrace child = false →
        after = [] ∨ ∃ more, after = .newLine indent :: more) := by
  have hchild := hsiblings child (by simp)
  have hfront : ∀ node ∈ front, node.Regular := fun node hnode =>
    hsiblings node (List.mem_append_left _ hnode)
  rw [Item.sequenceDoc, Doc.strokes_seq, laidOut_around container hinline hchild] at h
  obtain ⟨before, inner, after, rfl, hinner, hvisible, hbefore, hafter⟩ :=
    Item.strokesAll_separated _ h
  rw [visible_laidOut_of_regular hfront indentWidth] at hvisible
  refine ⟨before, inner, after, rfl, hinner, hvisible, ?_, ?_⟩
  · intro hbare
    refine (hbefore fun other _ => separator_single container other.1 hbare _).imp_left ?_
    exact fun hnil => hnil.2
  · intro hbrace
    exact hafter fun next _ => separator_of_single container next.1 hbrace _

/-- A brace block that shows something is drawn as its brace, its children on indented lines and its
closing brace on a line of its own. -/
theorem strokes_block {keyword : Text} (hblock : CodeKind.ofKeyword keyword = .block)
    {children : List Node} {selfClosing : Bool} (hchildren : ∀ node ∈ children, node.Regular)
    (hshown : Text.visible (serializeAll children) ≠ [])
    (h : Strokes indent mode (doc indentWidth (.code keyword children selfClosing)) ks) :
    ∃ opening body closing,
      ks = opening ++ .newLine (indent + indentWidth) :: (body ++ .newLine indent :: closing) ∧
      Strokes (indent + indentWidth) mode
        (Item.sequenceDoc .block (Item.group (withDocs indentWidth children))) body ∧
      opening.flatMap Stroke.visible = Text.visible keyword := by
  have hbody : (Item.sequenceDoc .block
      (Item.group (withDocs indentWidth children))).isNil = false := by
    by_contra hnil
    rw [Bool.not_eq_false] at hnil
    have hvisible := (shown_of_regular hchildren indentWidth).sequenceDoc .block
    rw [Doc.visible_of_isNil hnil, map_fst_withDocs] at hvisible
    exact hshown hvisible.symm
  simp only [doc, codeDoc, hblock, hbody, Bool.false_eq_true, if_false] at h
  rw [Doc.strokes_seq, StrokesAll] at h
  obtain ⟨opening, ks₁, rfl, hopening, hks₁⟩ := h
  rw [StrokesAll] at hks₁
  obtain ⟨lines, ks₂, rfl, hlines, hks₂⟩ := hks₁
  rw [StrokesAll] at hks₂
  obtain ⟨last, closing, rfl, hlast, -⟩ := hks₂
  rw [Doc.strokes_hardLine] at hlast
  rw [Doc.strokes_indentBy, Doc.strokes_seq, StrokesAll] at hlines
  obtain ⟨first, body, rfl, hfirst, hdrawn⟩ := hlines
  rw [Doc.strokes_hardLine] at hfirst
  rw [Doc.strokesAll_singleton] at hdrawn
  refine ⟨opening, body, closing, ?_, hdrawn, ?_⟩
  · rw [hfirst, hlast]
    simp only [List.cons_append, List.nil_append]
  · rw [Doc.visible_strokes _ hopening, Doc.visible_ofText, Text.visible_trim]

/-- In the strokes of a brace block, those of a child on lines of its own stand between two new
lines, unless it is a bare block or ends with a brace. -/
theorem strokes_child_of_block {keyword : Text} (hblock : CodeKind.ofKeyword keyword = .block)
    {selfClosing : Bool} (hsiblings : ∀ node ∈ front ++ child :: back, node.Regular)
    (hinline : child.inline? = none)
    (h : Strokes indent mode
      (doc indentWidth (.code keyword (front ++ child :: back) selfClosing)) ks) :
    ∃ before inner after, ks = before ++ inner ++ after ∧
      Strokes (indent + indentWidth) mode (doc indentWidth child) inner ∧
      before.flatMap Stroke.visible = Text.visible (keyword ++ serializeAll front) ∧
      (Item.isBareBlock child = false →
        ∃ more, before = more ++ [.newLine (indent + indentWidth)]) ∧
      (Item.endsWithBrace child = false → ∃ indent' more, after = .newLine indent' :: more) := by
  have hshown : Text.visible (serializeAll (front ++ child :: back)) ≠ [] := by
    have hchild := (hsiblings child (by simp)).visible_serialize_ne_nil hinline
    simp [serializeAll_append, serializeAll, hchild]
  obtain ⟨opening, body, closing, rfl, hbody, hopening⟩ := strokes_block hblock hsiblings hshown h
  obtain ⟨before, inner, after, rfl, hinner, hvisible, hbefore, hafter⟩ :=
    strokes_child_of_sequence hsiblings hinline hbody
  refine ⟨opening ++ .newLine (indent + indentWidth) :: before, inner,
    after ++ .newLine indent :: closing, by simp, hinner, ?_, ?_, ?_⟩
  · simp [hopening, hvisible, Stroke.visible]
  · intro hbare
    rcases hbefore hbare with rfl | ⟨more, rfl⟩
    · exact ⟨opening, rfl⟩
    · exact ⟨opening ++ .newLine (indent + indentWidth) :: more, by simp⟩
  · intro hbrace
    rcases hafter hbrace with rfl | ⟨more, rfl⟩
    · exact ⟨indent, closing, rfl⟩
    · exact ⟨_, _, rfl⟩

theorem inline?_of_isBlock (h : child.isCode .block = true) : child.inline? = none := by
  cases child with
  | code keyword children selfClosing =>
    have hkind : CodeKind.ofKeyword keyword = .block := by simpa [isCode] using h
    simp [inline?, hkind]
  | _ => cases h

/-- A directive without a block is laid out as its header. -/
theorem doc_of_directive_nil {keyword : Text} (hdirective : CodeKind.ofKeyword keyword = .directive)
    {selfClosing : Bool} : doc indentWidth (.code keyword [] selfClosing) = blockDoc keyword := by
  rw [doc, codeDoc, hdirective]
  rfl

/-- A directive is drawn as its header, a space and its block. -/
theorem strokes_child_of_directive {keyword : Text}
    (hdirective : CodeKind.ofKeyword keyword = .directive) {selfClosing : Bool}
    (hchild : child.Regular) (hblock : child.isCode .block = true)
    (h : Strokes indent mode (doc indentWidth (.code keyword [child] selfClosing)) ks) :
    ∃ header inner, ks = header ++ .put [' '] :: inner ∧
      Strokes indent mode (blockDoc keyword) header ∧
      Strokes indent mode (doc indentWidth child) inner := by
  have hinline := inline?_of_isBlock hblock
  have hitems : Item.sequenceDoc .block (Item.group (withDocs indentWidth [child])) =
      Doc.seq [doc indentWidth child] := by
    have haround : Item.laidOut .block (Item.group (withDocs indentWidth ([] ++ [child]))) = _ :=
      laidOut_around .block hinline hchild
    rw [List.nil_append] at haround
    rw [Item.sequenceDoc, haround]
    rfl
  have hsolid : (Doc.seq [doc indentWidth child]).Solid := by
    intro k hk
    rw [Doc.breaksAfter_seq, Doc.breaksAfterAll_singleton]
    exact hchild.solid_doc indentWidth hinline k hk
  simp only [doc, codeDoc, hdirective, hitems, hsolid.isNil, Bool.false_eq_true, if_false] at h
  rw [Doc.strokes_seq, StrokesAll] at h
  obtain ⟨header, ks₁, rfl, hheader, hks₁⟩ := h
  rw [StrokesAll] at hks₁
  obtain ⟨space, inner, rfl, hspace, hinner⟩ := hks₁
  rw [Doc.strokes_ofText (by simp)] at hspace
  rw [Doc.strokesAll_singleton, Doc.strokes_seq, Doc.strokesAll_singleton] at hinner
  exact ⟨header, inner, by rw [hspace]; rfl, hheader, hinner⟩

end Children

/-! ## Nodes inside nodes -/

/-- A node `inner` is the node `outer` or stands in it. Between the two there are `depth` elements and
brace blocks, `outer` among them and `inner` not, and `outer` is written with `before` in front of
`inner`. -/
inductive Inside : (outer : Node) → (depth : Nat) → (before : Text) → (inner : Node) → Prop
  | self (node : Node) : Inside node 0 [] node
  | element {name : Text} {attributes : AttributeMap} {front back : List Node} {child inner : Node}
      {depth : Nat} {before : Text} (h : Inside child depth before inner) :
      Inside (.markup name attributes (front ++ child :: back) false) (depth + 1)
        (openingTag name attributes ++ serializeAll front ++ before) inner
  | block {keyword : Text} {front back : List Node} {child inner : Node} {selfClosing : Bool}
      {depth : Nat} {before : Text} (hkind : CodeKind.ofKeyword keyword = .block)
      (h : Inside child depth before inner) :
      Inside (.code keyword (front ++ child :: back) selfClosing) (depth + 1)
        (keyword ++ serializeAll front ++ before) inner
  | directive {keyword : Text} {front back : List Node} {child inner : Node} {selfClosing : Bool}
      {depth : Nat} {before : Text} (hkind : CodeKind.ofKeyword keyword = .directive)
      (h : Inside child depth before inner) :
      Inside (.code keyword (front ++ child :: back) selfClosing) depth
        (keyword ++ serializeAll front ++ before) inner

section Inside

variable {outer inner : Node} {depth : Nat} {before : Text}

/-- What flows in a line has only itself inside. -/
theorem Inside.inline? (h : Inside outer depth before inner) (hinner : inner.inline? = none) :
    outer.inline? = none := by
  cases h with
  | self => exact hinner
  | element => rfl
  | block hkind => simp [Node.inline?, hkind]
  | directive hkind => simp [Node.inline?, hkind]

/-- Without an element or a block in between, only a block has a block around itself. -/
theorem Inside.isCode_block (h : Inside outer 0 before inner) (hinner : inner.isCode .block = false) :
    outer.isCode .block = false := by
  cases h with
  | self => exact hinner
  | directive hkind => simp [isCode, hkind]

/-- What holds everywhere in a node holds everywhere in the nodes inside it. -/
theorem Inside.everywhere {P : Node → Prop} (h : Inside outer depth before inner)
    (houter : Everywhere P outer) : Everywhere P inner := by
  have hchild : ∀ {node child : Node}, Everywhere P node → child ∈ node.children →
      Everywhere P child := fun hnode hmem =>
    (everywhereIn_iff _).1 ((everywhere_iff _).1 hnode).2 _ hmem
  induction h with
  | self => exact houter
  | element _ ih => exact ih (hchild houter (by simp [children]))
  | block _ _ ih => exact ih (hchild houter (by simp [children]))
  | directive _ _ ih => exact ih (hchild houter (by simp [children]))

theorem Inside.regular (h : Inside outer depth before inner) (houter : outer.Regular) :
    inner.Regular := ⟨h.everywhere houter.wellFormed, h.everywhere houter.printable⟩

/-- A brace block without an `@` is a brace block. -/
theorem isBareBlock_of_isCode {child : Node} (h : child.isCode .block = false) :
    Item.isBareBlock child = false := by
  cases child with
  | code keyword children selfClosing =>
    rw [Item.isBareBlock, beq_eq_false_iff_ne]
    intro hbare
    have hkind : CodeKind.ofKeyword keyword = .block := by
      rw [CodeKind.ofKeyword, hbare]
      rfl
    simp [isCode, hkind] at h
  | _ => rfl

/-- A directive has no child, or its brace block as the only one. -/
theorem Regular.children_of_directive {keyword : Text} {children : List Node} {selfClosing : Bool}
    (h : (Node.code keyword children selfClosing).Regular)
    (hkind : CodeKind.ofKeyword keyword = .directive) :
    (selfClosing = true ∧ children = []) ∨
      selfClosing = false ∧ ∃ block, children = [block] ∧ block.isCode .block = true := by
  have hwell := ((everywhere_iff _).1 h.wellFormed).1
  rw [WellFormed, hkind] at hwell
  cases selfClosing with
  | true => exact Or.inl ⟨rfl, hwell⟩
  | false => exact Or.inr ⟨rfl, hwell⟩

/-- The strokes of a node hold those of every node inside it that does not flow in a line, behind
strokes that draw what is written in front of it. Unless it is a brace block, a line starts for it
with the indentation of its depth. -/
theorem Regular.strokes_inside {indentWidth : Nat} (houter : outer.Regular)
    (h : Inside outer depth before inner) (hinline : inner.inline? = none) {indent : Nat}
    {mode : LineMode} {ks : List Stroke} (hks : Doc.Strokes indent mode (doc indentWidth outer) ks) :
    ∃ mode' lead drawn tail, ks = lead ++ drawn ++ tail ∧
      Doc.Strokes (indent + depth * indentWidth) mode' (doc indentWidth inner) drawn ∧
      lead.flatMap Stroke.visible = Text.visible before ∧
      (inner.isCode .block = false → (lead = [] ∧ depth = 0) ∨
        ∃ more, lead = more ++ [.newLine (indent + depth * indentWidth)]) := by
  have hindent : ∀ indent depth : Nat,
      indent + indentWidth + depth * indentWidth = indent + (depth + 1) * indentWidth := by
    intro indent depth
    rw [Nat.succ_mul]
    omega
  induction h generalizing indent mode ks with
  | self node =>
    refine ⟨mode, [], ks, [], by simp, ?_, rfl, fun _ => Or.inl ⟨rfl, rfl⟩⟩
    rwa [Nat.zero_mul, Nat.add_zero]
  | @element name attributes front back child inner depth before hchild ih =>
    have hregular : child.Regular := houter.of_mem (by simp [children])
    obtain ⟨first, middle, last, indent', rfl, hmiddle, hfirst⟩ :=
      strokes_child_of_element (fun node hnode => houter.of_mem hnode) (hchild.inline? hinline) hks
    obtain ⟨mode', lead, drawn, tail, rfl, hdrawn, hlead, hline⟩ := ih hregular hinline hmiddle
    rw [hindent] at hdrawn hline
    refine ⟨mode', first ++ .newLine (indent + indentWidth) :: lead, drawn,
      tail ++ .newLine indent' :: last, by simp, hdrawn, ?_, ?_⟩
    · simp [hfirst, hlead, Stroke.visible]
    · intro hcode
      right
      rcases hline hcode with ⟨rfl, rfl⟩ | ⟨more, rfl⟩
      · exact ⟨first, by rw [Nat.zero_add, Nat.one_mul]⟩
      · exact ⟨first ++ .newLine (indent + indentWidth) :: more, by simp⟩
  | @block keyword front back child inner selfClosing depth before hkind hchild ih =>
    have hregular : child.Regular := houter.of_mem (by simp [children])
    obtain ⟨first, middle, last, rfl, hmiddle, hfirst, hstart, -⟩ :=
      strokes_child_of_block hkind (fun node hnode => houter.of_mem hnode) (hchild.inline? hinline) hks
    obtain ⟨mode', lead, drawn, tail, rfl, hdrawn, hlead, hline⟩ := ih hregular hinline hmiddle
    rw [hindent] at hdrawn hline
    refine ⟨mode', first ++ lead, drawn, tail ++ last, by simp, hdrawn, by simp [hfirst, hlead], ?_⟩
    intro hcode
    right
    rcases hline hcode with ⟨rfl, rfl⟩ | ⟨more, rfl⟩
    · obtain ⟨more, rfl⟩ := hstart (isBareBlock_of_isCode (hchild.isCode_block hcode))
      exact ⟨more, by rw [List.append_nil, Nat.zero_add, Nat.one_mul]⟩
    · exact ⟨first ++ more, by simp⟩
  | @directive keyword front back child inner selfClosing depth before hkind hchild ih =>
    have hregular : child.Regular := houter.of_mem (by simp [children])
    -- the only child of a directive is its block
    rcases houter.children_of_directive hkind with ⟨-, hnil⟩ | ⟨-, block, hone, hblock⟩
    · exact absurd hnil (by simp)
    obtain ⟨rfl, rfl, rfl⟩ : front = [] ∧ child = block ∧ back = [] := by
      cases front with
      | nil => simpa using hone
      | cons first rest => simp at hone
    obtain ⟨header, middle, rfl, hheader, hmiddle⟩ :=
      strokes_child_of_directive hkind hregular hblock hks
    obtain ⟨mode', lead, drawn, tail, rfl, hdrawn, hlead, hline⟩ := ih hregular hinline hmiddle
    refine ⟨mode', header ++ .put [' '] :: lead, drawn, tail, by simp, hdrawn, ?_, ?_⟩
    · have hspace : Text.visible [' '] = [] := by decide
      simp [hlead, Doc.visible_strokes _ hheader, visible_blockDoc, Stroke.visible, hspace,
        serializeAll]
    · intro hcode
      right
      rcases hline hcode with ⟨rfl, rfl⟩ | ⟨more, rfl⟩
      · rw [hchild.isCode_block hcode] at hblock
        cases hblock
      · exact ⟨header ++ .put [' '] :: more, by simp⟩

/-- A node that stands in a forest, as `Inside` has it for one that stands in a node. -/
def InsideAll (nodes : List Node) (depth : Nat) (before : Text) (inner : Node) : Prop :=
  ∃ front outer back before', nodes = front ++ outer :: back ∧
    before = serializeAll front ++ before' ∧ Inside outer depth before' inner

end Inside

end Node

/-! ## Templates -/

theorem Template.regular_parseBody (extra : List Text) (body : Text) :
    ∀ node ∈ parseBody extra body, node.Regular := by
  intro node hnode
  constructor
  · exact (Node.everywhereIn_iff _).1 (wellFormed_parseBody extra body).1 node hnode
  · exact (Node.everywhereIn_iff _).1 (printable_parseBody extra body) node hnode

theorem Style.regular_parse (style : Style) (source : Text) :
    ∀ node ∈ style.parse source, node.Regular := by
  intro node hnode
  rcases List.mem_append.1 hnode with hbody | hsection
  · exact Template.regular_parseBody _ _ node hbody
  · obtain ⟨content, -, rfl⟩ := List.mem_map.1 hsection
    exact ⟨trivial, trivial⟩

/-- A formatted template starts with what strokes of the nodes before its code section draw. -/
theorem Style.exists_strokes_format (style : Style) (source : Text) :
    ∃ ks after rest,
      Doc.Strokes 0 .broken (bodyDoc style.indentWidth
        (Template.parseBody style.voidElements (CodeSection.split source).1)) ks ∧
      style.format source = (Page.drawAll {} (ks ++ after)).text ++ rest := by
  -- without a section nothing follows the nodes but a line break
  have hnone : ∀ body : Text, (CodeSection.split body).2 = none →
      ∃ ks after,
        Doc.Strokes 0 .broken (bodyDoc style.indentWidth
          (Template.parseBody style.voidElements body)) ks ∧
        style.format body = (Page.drawAll {} (ks ++ after)).text := by
    intro body hbody
    rw [style.format_of_none hbody]
    split
    · rename_i hnil
      refine ⟨[], [], ?_, rfl⟩
      rw [Doc.eq_nil_of_isNil hnil, Doc.Strokes]
    · obtain ⟨drawn, hdrawn, hprint⟩ := Doc.exists_strokes_render style.printWidth
        (Doc.seq [bodyDoc style.indentWidth (Template.parseBody style.voidElements body),
          Doc.hardLine])
      rw [Doc.strokes_seq, Doc.StrokesAll] at hdrawn
      obtain ⟨ks, after, rfl, hks, -⟩ := hdrawn
      exact ⟨ks, after, hks, hprint⟩
  cases hsplit : CodeSection.split source with
  | mk body codeSection =>
    cases codeSection with
    | none =>
      have hsource : (CodeSection.split source).2 = none := by rw [hsplit]
      have hbody : body = source := by
        have h := CodeSection.split_of_forall ((CodeSection.split_eq_none_iff source).1 hsource)
        rw [hsplit] at h
        exact congrArg Prod.fst h
      obtain ⟨ks, after, hks, hformat⟩ := hnone source hsource
      exact ⟨ks, after, [], hbody ▸ hks, by rw [hformat, List.append_nil]⟩
    | some content =>
      have hbody : (CodeSection.split body).2 = none :=
        (CodeSection.split_eq_none_iff body).2 (CodeSection.split_spec hsplit).2.2
      obtain ⟨ks, after, hks, hformat⟩ := hnone body hbody
      refine ⟨ks, after, ?_⟩
      rw [style.format_of_split hsplit, hformat, List.append_assoc, List.append_assoc]
      exact ⟨_, hks, rfl⟩

/-- A node of a template that does not flow in a line stands before the code section. -/
theorem Style.insideAll_parseBody (style : Style) {source : Text} {depth : Nat} {before : Text}
    {inner : Node} (h : Node.InsideAll (style.parse source) depth before inner)
    (hinline : inner.inline? = none) :
    Node.InsideAll (Template.parseBody style.voidElements (CodeSection.split source).1) depth before
      inner := by
  obtain ⟨front, outer, back, before', hnodes, hbefore, hinside⟩ := h
  rw [Style.parse, Template.parse] at hnodes
  rcases List.append_eq_append_iff.1 hnodes with ⟨more, hfront, hsection⟩ | ⟨more, hbody, hback⟩
  · -- the section is a text, which has nothing inside
    have hmem : outer ∈ (CodeSection.split source).2.toList.map Node.text := by
      rw [hsection]
      simp
    obtain ⟨content, -, rfl⟩ := List.mem_map.1 hmem
    have htext := hinside.inline? hinline
    cases htext
  · cases more with
    | nil =>
      have hmem : outer ∈ (CodeSection.split source).2.toList.map Node.text := by
        rw [List.nil_append] at hback
        rw [← hback]
        simp
      obtain ⟨content, -, rfl⟩ := List.mem_map.1 hmem
      have htext := hinside.inline? hinline
      cases htext
    | cons first rest =>
      rw [List.cons_append, List.cons.injEq] at hback
      refine ⟨front, outer, rest, before', ?_, hbefore, hinside⟩
      rw [hbody, hback.1]

/-- A formatted template holds what the strokes of each node that does not flow in a line draw, behind
what is written in front of it. -/
theorem Style.exists_strokes_inside (style : Style) {source : Text} {depth : Nat} {before : Text}
    {inner : Node} (h : Node.InsideAll (style.parse source) depth before inner)
    (hinline : inner.inline? = none) :
    inner.Regular ∧ ∃ mode lead drawn tail rest,
      style.format source = (Page.drawAll {} (lead ++ drawn ++ tail)).text ++ rest ∧
      Doc.Strokes (depth * style.indentWidth) mode (Node.doc style.indentWidth inner) drawn ∧
      lead.flatMap Stroke.visible = Text.visible before ∧
      (inner.isCode .block = false → Page.StartsLine (depth * style.indentWidth) lead) := by
  obtain ⟨ks, after, rest, hks, hformat⟩ := style.exists_strokes_format source
  have hregular := Template.regular_parseBody style.voidElements (CodeSection.split source).1
  obtain ⟨front, outer, back, before', hnodes, rfl, hinside⟩ := style.insideAll_parseBody h hinline
  rw [hnodes] at hks hregular
  have houter : outer.Regular := hregular outer (by simp)
  obtain ⟨first, middle, last, rfl, hmiddle, hfirst, hstart, -⟩ :=
    Node.strokes_child_of_sequence hregular (hinside.inline? hinline) hks
  obtain ⟨mode, lead, drawn, tail, rfl, hdrawn, hlead, hline⟩ :=
    houter.strokes_inside hinside hinline hmiddle
  rw [Nat.zero_add] at hdrawn hline
  refine ⟨hinside.regular houter, mode, first ++ lead, drawn, tail ++ last ++ after, rest, ?_, hdrawn,
    ?_, ?_⟩
  · rw [hformat]
    simp only [List.append_assoc]
  · rw [List.flatMap_append, hfirst, hlead, Text.visible_append]
  · intro hcode
    rcases hline hcode with ⟨rfl, rfl⟩ | ⟨more, rfl⟩
    · have hstart := hstart (Node.isBareBlock_of_isCode (hinside.isCode_block hcode))
      rw [List.append_nil, Nat.zero_mul]
      exact hstart.imp_left fun hnil => ⟨hnil, rfl⟩
    · exact Or.inr ⟨first ++ more, by rw [List.append_assoc]⟩

end RazorTidy
