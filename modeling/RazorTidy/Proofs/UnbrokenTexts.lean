import RazorTidy.Proofs.LineStructure
import RazorTidy.Proofs.PrintMarks
import RazorTidy.Proofs.TidyDocs

/-!
# Texts without line breaks

While a template is laid out, no text with a line break is made a document, whatever line breaks the
template has in its attributes, headers, expressions, comments, texts and code section. So each text
of its layout is one line (`Style.layout_unbroken`).

`Doc.ofText?` makes a document of a text only if the text has no line break. The functions of a
layout are repeated with it in place of `Doc.ofText`: they give the same layout, or none if a text
that they hand over has a line break. For any forest there is such a layout exactly if the texts of
the ordinary one are lines (`forestDoc?_eq`), so that no text is handed over and then lost.

Only the name of an element is handed over as it stands (`unbroken_elementDoc`). All other texts are
split at their line breaks first, or are tried for one. The names in a template have no blanks.
-/

set_option autoImplicit false

namespace RazorTidy

/-! ## Documents -/

namespace Doc

/-- Whether the texts of a document are lines, and none of them is empty. -/
def Unbroken (d : Doc) : Prop := ∀ s ∈ d.texts, s ≠ [] ∧ '\n' ∉ s

instance (d : Doc) : Decidable d.Unbroken :=
  inferInstanceAs (Decidable (∀ s ∈ d.texts, s ≠ [] ∧ '\n' ∉ s))

@[simp]
theorem unbroken_nil : Unbroken .nil := by
  intro s hs
  cases hs

theorem unbroken_of_isNil {d : Doc} (h : d.isNil = true) : d.Unbroken := by
  rw [eq_nil_of_isNil h]
  exact unbroken_nil

@[simp]
theorem unbroken_hardLine : Unbroken hardLine := by
  intro s hs
  cases hs

@[simp]
theorem unbroken_softLine : Unbroken softLine := by
  intro s hs
  cases hs

theorem mem_textsAll {s : Text} {ds : List Doc} : s ∈ textsAll ds ↔ ∃ d ∈ ds, s ∈ d.texts := by
  induction ds with
  | nil => simp [textsAll]
  | cons d rest ih => simp [textsAll, ih]

theorem textsAll_singleton (d : Doc) : textsAll [d] = d.texts := List.append_nil _

theorem mem_texts_seq {s : Text} {ds : List Doc} : s ∈ (seq ds).texts ↔ ∃ d ∈ ds, s ∈ d.texts := by
  have hparts := apply_parts texts textsAll rfl textsAll_singleton fun _ => rfl
  rw [apply_seq texts textsAll rfl textsAll_singleton fun _ => rfl, mem_textsAll]
  constructor
  · rintro ⟨e, he, hs⟩
    obtain ⟨d, hd, he⟩ := List.mem_flatMap.1 he
    refine ⟨d, hd, ?_⟩
    rw [← hparts d]
    exact mem_textsAll.2 ⟨e, he, hs⟩
  · rintro ⟨d, hd, hs⟩
    rw [← hparts d] at hs
    obtain ⟨e, he, hs⟩ := mem_textsAll.1 hs
    exact ⟨e, List.mem_flatMap.2 ⟨d, hd, he⟩, hs⟩

/-- The texts of a sequence are lines if those of each of its documents are. -/
theorem unbroken_seq (ds : List Doc) : (seq ds).Unbroken ↔ ∀ d ∈ ds, d.Unbroken := by
  constructor
  · intro h d hd s hs
    exact h s (mem_texts_seq.2 ⟨d, hd, hs⟩)
  · intro h s hs
    obtain ⟨d, hd, hs⟩ := mem_texts_seq.1 hs
    exact h d hd s hs

@[simp]
theorem unbroken_seq_nil : (seq []).Unbroken := unbroken_nil

@[simp]
theorem unbroken_seq_cons (d : Doc) (ds : List Doc) :
    (seq (d :: ds)).Unbroken ↔ d.Unbroken ∧ (seq ds).Unbroken := by
  rw [unbroken_seq, unbroken_seq, List.forall_mem_cons]

@[simp]
theorem unbroken_indentBy (spaces : Nat) (d : Doc) :
    (indentBy spaces d).Unbroken ↔ d.Unbroken := by
  rw [indentBy]
  split <;> rfl

@[simp]
theorem unbroken_grouped (d : Doc) : (grouped d).Unbroken ↔ d.Unbroken := by
  rw [grouped]
  split <;> rfl

@[simp]
theorem unbroken_ofText (s : Text) : (ofText s).Unbroken ↔ '\n' ∉ s := by
  rw [ofText]
  split
  · rename_i hempty
    simp [List.isEmpty_iff.1 hempty, unbroken_nil]
  · rename_i hne
    rw [List.isEmpty_iff] at hne
    simp [Unbroken, texts, hne]

theorem eq_or_mem_of_mem_intersperse {d sep : Doc} {ds : List Doc} (h : d ∈ ds.intersperse sep) :
    d = sep ∨ d ∈ ds := by
  induction ds with
  | nil => cases h
  | cons first rest ih =>
    cases rest with
    | nil => exact Or.inr h
    | cons next others =>
      rw [List.intersperse_cons_cons, List.mem_cons, List.mem_cons] at h
      rcases h with rfl | rfl | h
      · exact Or.inr List.mem_cons_self
      · exact Or.inl rfl
      · exact (ih h).imp_right (List.mem_cons_of_mem _)

theorem unbroken_ofLines {ls : List Text} (h : ∀ line ∈ ls, '\n' ∉ line) :
    (ofLines ls).Unbroken := by
  rw [ofLines, unbroken_seq]
  intro d hd
  rcases eq_or_mem_of_mem_intersperse hd with rfl | hd
  · exact unbroken_hardLine
  · obtain ⟨line, hline, rfl⟩ := List.mem_map.1 hd
    exact (unbroken_ofText line).2 (h line hline)

end Doc

/-! ## Inline nodes -/

theorem newline_not_mem_normalize (s : Text) : ∀ line ∈ LineBlock.normalize s, '\n' ∉ line :=
  fun line hline => ((LineBlock.clean_normalize s).lines line hline).1

@[simp]
theorem unbroken_blockDoc (s : Text) : (blockDoc s).Unbroken :=
  Doc.unbroken_ofLines (newline_not_mem_normalize s)

theorem newline_not_mem_sectionLines (content : Text) :
    ∀ line ∈ (Text.lines (Text.trimEnd content)).map Text.trimEnd, '\n' ∉ line := by
  intro line hline hbreak
  obtain ⟨raw, hraw, rfl⟩ := List.mem_map.1 hline
  exact Text.newline_not_mem_of_mem_lines hraw (Text.mem_of_mem_trimEnd hbreak)

@[simp]
theorem unbroken_sectionDoc (content : Text) : (sectionDoc content).Unbroken :=
  Doc.unbroken_ofLines (newline_not_mem_sectionLines content)

@[simp]
theorem unbroken_textDoc (container : Container) (atStart atEnd : Bool) (content : Text) :
    (textDoc container atStart atEnd content).Unbroken := by
  rw [textDoc]
  dsimp only
  split
  · -- a blank text is a space or nothing
    split <;> simp
  · have hleading : (if !atStart && Text.startsBlank content then Doc.ofText [' '] else
        .nil).Unbroken := by
      split <;> simp
    have htrailing : (if atEnd || !Text.endsBlank content then .nil
        else if container = .block ∧ endsInLineComment (Text.trim content) then Doc.hardLine
        else Doc.ofText [' ']).Unbroken := by
      split
      · exact Doc.unbroken_nil
      · split <;> simp
    rw [Doc.unbroken_seq_cons, Doc.unbroken_seq_cons, Doc.unbroken_seq_cons]
    exact ⟨hleading, unbroken_blockDoc _, htrailing, Doc.unbroken_seq_nil⟩

namespace Inline

theorem unbroken_doc (container : Container) (atStart atEnd : Bool) (piece : Inline) :
    (piece.doc container atStart atEnd).Unbroken := by
  cases piece with
  | text content => exact unbroken_textDoc container atStart atEnd content
  | expression keyword => exact unbroken_blockDoc keyword

theorem unbroken_runDoc (container : Container) (run : List Inline) :
    (runDoc container run).Unbroken := by
  have hdocs : ∀ atStart, ∀ d ∈ docs container atStart run, d.Unbroken := by
    induction run with
    | nil =>
      intro atStart d hd
      cases hd
    | cons piece rest ih =>
      intro atStart d hd
      rcases List.mem_cons.1 hd with rfl | hd
      · exact unbroken_doc container atStart rest.isEmpty piece
      · exact ih false d hd
  exact (Doc.unbroken_seq _).2 (hdocs true)

end Inline

/-! ## Items -/

namespace Item

/-- Whether the texts of an item are lines. Those of a run always are. -/
def Unbroken : Item → Prop
  | .run _ => True
  | .single _ doc => doc.Unbroken

instance : (item : Item) → Decidable item.Unbroken
  | .run _ => instDecidableTrue
  | .single _ doc => inferInstanceAs (Decidable doc.Unbroken)

theorem unbroken_doc_iff (container : Container) (item : Item) :
    (item.doc container).Unbroken ↔ item.Unbroken := by
  cases item with
  | run pieces => exact iff_of_true (Inline.unbroken_runDoc container pieces) trivial
  | single node doc => rfl

theorem unbroken_separator (container : Container) (item item' : Item) :
    (separator container item item').Unbroken := by
  unfold separator
  split
  · split <;> simp
  · split <;> simp
  · exact Doc.unbroken_hardLine

theorem unbroken_separated (container : Container) (entries : List (Item × Doc)) :
    (∀ d ∈ separated container entries, d.Unbroken) ↔ ∀ entry ∈ entries, entry.2.Unbroken := by
  fun_induction separated container entries with
  | case1 => simp
  | case2 item d => simp
  | case3 item d item' d' rest ih =>
    simp only [List.forall_mem_cons, ih, unbroken_separator, true_and]

/-- An item without a layout has no texts, so the items that have one tell about all. -/
theorem unbroken_laidOut (container : Container) (items : List Item) :
    (∀ entry ∈ laidOut container items, entry.2.Unbroken) ↔ ∀ item ∈ items, item.Unbroken := by
  constructor
  · intro h item hitem
    rw [← unbroken_doc_iff container]
    by_cases hnil : (item.doc container).isNil = true
    · exact Doc.unbroken_of_isNil hnil
    · exact h (item, item.doc container)
        (List.mem_filter.2 ⟨List.mem_map_of_mem hitem, by simpa using hnil⟩)
  · intro h entry hentry
    obtain ⟨item, hitem, rfl⟩ := List.mem_map.1 (List.mem_filter.1 hentry).1
    exact (unbroken_doc_iff container item).2 (h item hitem)

theorem unbroken_sequenceDoc (container : Container) (items : List Item) :
    (sequenceDoc container items).Unbroken ↔ ∀ item ∈ items, item.Unbroken := by
  rw [sequenceDoc, Doc.unbroken_seq, unbroken_separated, unbroken_laidOut]

theorem unbroken_elementLine (item : Item) : (elementLine item).Unbroken := by
  unfold elementLine
  split <;> simp

theorem unbroken_elementBody (items : List Item) :
    (elementBody items).1.Unbroken ↔ ∀ item ∈ items, item.Unbroken := by
  rw [← unbroken_laidOut .element, elementBody]
  dsimp only
  split
  · simp only [Doc.unbroken_seq, List.forall_mem_flatMap, List.forall_mem_cons,
      unbroken_elementLine, true_and, List.not_mem_nil, false_implies, implies_true, and_true]
  · rw [Doc.unbroken_seq, List.forall_mem_map]

end Item

/-! ## Nodes -/

@[simp]
theorem unbroken_attributeDoc (name value : Text) : (attributeDoc name value).Unbroken := by
  rw [attributeDoc]
  split
  · exact unbroken_blockDoc _
  · rename_i hbreak
    rw [Doc.unbroken_ofText]
    simpa using hbreak

theorem newline_not_mem_tagEnd (name : Text) (selfClosing : Bool) :
    '\n' ∉ tagEnd name selfClosing := by
  rw [tagEnd]
  split <;> decide

/-- The name is the one text of an opening tag that may have a line break. -/
theorem unbroken_headDoc (indentWidth : Nat) (name : Text) (attributes : AttributeMap)
    (selfClosing : Bool) :
    (headDoc indentWidth name attributes selfClosing).Unbroken ↔ '\n' ∉ name := by
  have hentries : (Doc.seq (attributes.entries.map fun entry =>
      Doc.seq [Doc.softLine, attributeDoc entry.1 entry.2])).Unbroken := by
    rw [Doc.unbroken_seq, List.forall_mem_map]
    intro entry _
    simp
  simp [headDoc_eq, hentries, newline_not_mem_tagEnd]

theorem newline_mem_closingTag (name : Text) : '\n' ∈ closingTag name ↔ '\n' ∈ name := by
  simp [closingTag]

/-- An element is laid out in lines if its name is one and, where its children are laid out one by
one, their layouts are. -/
theorem unbroken_elementDoc (indentWidth : Nat) (name : Text) (attributes : AttributeMap)
    (selfClosing : Bool) (children : List (Node × Doc)) :
    (elementDoc indentWidth name attributes selfClosing children).Unbroken ↔
      '\n' ∉ name ∧
        (selfClosing = true ∨ (rawBlock? name (children.map Prod.fst)).isSome = true ∨
          ∀ item ∈ Item.group children, item.Unbroken) := by
  have hbody := Item.unbroken_elementBody (Item.group children)
  rw [elementDoc]
  split
  · rename_i hclosing
    simp [unbroken_headDoc, hclosing]
  rename_i hclosing
  -- in each case the head comes first, and the closing tag has the same name
  split
  · rename_i hraw
    rw [Doc.unbroken_seq_cons, unbroken_headDoc]
    apply and_congr_right
    intro hname
    simp [newline_mem_closingTag, hname, hraw]
  rename_i hraw
  split
  · rename_i heq
    rw [heq] at hbody
    rw [Doc.unbroken_seq_cons, unbroken_headDoc]
    apply and_congr_right
    intro hname
    simp [newline_mem_closingTag, hname, hclosing, hraw, hbody]
  · rename_i heq
    rw [heq] at hbody
    rw [Doc.unbroken_seq_cons, unbroken_headDoc]
    apply and_congr_right
    intro hname
    simp [newline_mem_closingTag, hname, hclosing, hraw, hbody]

theorem newline_not_mem_trim_of_block {keyword : Text}
    (h : CodeKind.ofKeyword keyword = .block) : '\n' ∉ Text.trim keyword := by
  rcases trim_of_ofKeyword_block h with heq | heq <;> rw [heq] <;> decide

/-- Code is laid out in lines if its children are, where it has any. -/
theorem unbroken_codeDoc (indentWidth : Nat) (keyword : Text) (children : List (Node × Doc)) :
    (codeDoc indentWidth keyword children).Unbroken ↔
      CodeKind.ofKeyword keyword = .expression ∨ ∀ item ∈ Item.group children, item.Unbroken := by
  have hbody := Item.unbroken_sequenceDoc .block (Item.group children)
  have hempty : (Item.sequenceDoc .block (Item.group children)).isNil = true →
      ∀ item ∈ Item.group children, item.Unbroken := by
    intro hnil
    rw [← hbody]
    exact Doc.unbroken_of_isNil hnil
  rw [codeDoc]
  dsimp only
  split
  · rename_i hkind
    have hopening := newline_not_mem_trim_of_block hkind
    split
    · rename_i hnil
      exact iff_of_true (by simp [hopening]) (Or.inr (hempty hnil))
    · simp [hkind, hopening, hbody]
  · rename_i hkind
    split
    · rename_i hnil
      exact iff_of_true (unbroken_blockDoc keyword) (Or.inr (hempty hnil))
    · simp [hkind, hbody]
  · rename_i hkind
    exact iff_of_true (unbroken_blockDoc keyword) (Or.inl hkind)

/-! ## Layouts of texts that are checked -/

theorem mapM_of_forall_some {α β : Type} {f : α → Option β} {g : α → β} {xs : List α}
    (h : ∀ x ∈ xs, f x = some (g x)) : xs.mapM f = some (xs.map g) := by
  induction xs with
  | nil => rfl
  | cons x rest ih =>
    rw [List.mapM_cons, h x List.mem_cons_self, ih fun y hy => h y (List.mem_cons_of_mem _ hy)]
    rfl

namespace Doc

/-- The document, if its texts are lines. -/
def unbroken? (d : Doc) : Option Doc := if d.Unbroken then some d else none

theorem unbroken?_of_unbroken {d : Doc} (h : d.Unbroken) : d.unbroken? = some d := if_pos h

theorem unbroken?_of_not {d : Doc} (h : ¬ d.Unbroken) : d.unbroken? = none := if_neg h

theorem unbroken?_eq_some_iff {d e : Doc} : d.unbroken? = some e ↔ d = e ∧ e.Unbroken := by
  rw [unbroken?, Option.ite_none_right_eq_some, Option.some_inj]
  constructor
  · rintro ⟨h, rfl⟩
    exact ⟨rfl, h⟩
  · rintro ⟨rfl, h⟩
    exact ⟨h, rfl⟩

/-- A text as a document, unless it has a line break. -/
def ofText? (s : Text) : Option Doc := if '\n' ∈ s then none else some (ofText s)

theorem ofText?_of_not_mem {s : Text} (h : '\n' ∉ s) : ofText? s = some (ofText s) := if_neg h

theorem ofText?_of_mem {s : Text} (h : '\n' ∈ s) : ofText? s = none := if_pos h

theorem ofText?_space : ofText? [' '] = some (ofText [' ']) := ofText?_of_not_mem (by decide)

/-- `Doc.ofLines` of checked texts. -/
def ofLines? (ls : List Text) : Option Doc := do
  return seq ((← ls.mapM ofText?).intersperse hardLine)

theorem ofLines?_eq {ls : List Text} (h : ∀ line ∈ ls, '\n' ∉ line) :
    ofLines? ls = some (ofLines ls) := by
  rw [ofLines?, mapM_of_forall_some fun line hline => ofText?_of_not_mem (h line hline)]
  rfl

end Doc

/-- `blockDoc` of checked texts. -/
def blockDoc? (s : Text) : Option Doc := Doc.ofLines? (LineBlock.normalize s)

theorem blockDoc?_eq (s : Text) : blockDoc? s = some (blockDoc s) :=
  Doc.ofLines?_eq (newline_not_mem_normalize s)

/-- `sectionDoc` of checked texts. -/
def sectionDoc? (content : Text) : Option Doc :=
  Doc.ofLines? ((Text.lines (Text.trimEnd content)).map Text.trimEnd)

theorem sectionDoc?_eq (content : Text) : sectionDoc? content = some (sectionDoc content) :=
  Doc.ofLines?_eq (newline_not_mem_sectionLines content)

/-! ### Inline nodes -/

/-- `textDoc` of checked texts. -/
def textDoc? (container : Container) (atStart atEnd : Bool) (content : Text) : Option Doc :=
  let core := Text.trim content
  if core.isEmpty then if atStart || atEnd then some .nil else Doc.ofText? [' ']
  else do
    let leading := if !atStart && Text.startsBlank content then Doc.ofText? [' '] else some .nil
    let trailing :=
      if atEnd || !Text.endsBlank content then some .nil
      else if container = .block ∧ endsInLineComment core then some Doc.hardLine
      else Doc.ofText? [' ']
    return Doc.seq [← leading, ← blockDoc? core, ← trailing]

theorem textDoc?_eq (container : Container) (atStart atEnd : Bool) (content : Text) :
    textDoc? container atStart atEnd content = some (textDoc container atStart atEnd content) := by
  simp only [textDoc?, textDoc, Doc.ofText?_space, blockDoc?_eq, ← apply_ite some]
  exact (apply_ite some _ _ _).symm

namespace Inline

/-- `Inline.doc` of checked texts. -/
def doc? (container : Container) (atStart atEnd : Bool) : Inline → Option Doc
  | .text content => textDoc? container atStart atEnd content
  | .expression keyword => blockDoc? keyword

theorem doc?_eq (container : Container) (atStart atEnd : Bool) (piece : Inline) :
    piece.doc? container atStart atEnd = some (piece.doc container atStart atEnd) := by
  cases piece with
  | text content => exact textDoc?_eq container atStart atEnd content
  | expression keyword => exact blockDoc?_eq keyword

/-- `Inline.docs` of checked texts. -/
def docs? (container : Container) (atStart : Bool) : List Inline → Option (List Doc)
  | [] => some []
  | piece :: rest => do
    return (← piece.doc? container atStart rest.isEmpty) :: (← docs? container false rest)

theorem docs?_eq (container : Container) (atStart : Bool) (run : List Inline) :
    docs? container atStart run = some (docs container atStart run) := by
  induction run generalizing atStart with
  | nil => rfl
  | cons piece rest ih =>
    rw [docs?, doc?_eq, ih]
    rfl

/-- `Inline.runDoc` of checked texts. -/
def runDoc? (container : Container) (run : List Inline) : Option Doc := do
  return Doc.seq (← docs? container true run)

theorem runDoc?_eq (container : Container) (run : List Inline) :
    runDoc? container run = some (runDoc container run) := by
  rw [runDoc?, docs?_eq]
  rfl

end Inline

/-! ### Items -/

namespace Item

/-- Items behind a further inline node, which joins their run or starts one. -/
def joinRun (piece : Inline) : List Item → List Item
  | .run pieces :: items => .run (piece :: pieces) :: items
  | items => .run [piece] :: items

theorem group_of_none {node : Node} (h : node.inline? = none) (doc : Doc)
    (rest : List (Node × Doc)) : group ((node, doc) :: rest) = .single node doc :: group rest := by
  rw [group, h]

theorem group_of_some {node : Node} {piece : Inline} (h : node.inline? = some piece) (doc : Doc)
    (rest : List (Node × Doc)) : group ((node, doc) :: rest) = joinRun piece (group rest) := by
  rw [group, h]
  rfl

theorem unbroken_joinRun (piece : Inline) (items : List Item) :
    (∀ item ∈ joinRun piece items, item.Unbroken) ↔ ∀ item ∈ items, item.Unbroken := by
  unfold joinRun
  split <;> simp [Unbroken]

/-- The items of sibling nodes, given with their checked layouts. A node in a run is laid out with
its run only. -/
def group? : List (Node × Option Doc) → Option (List Item)
  | [] => some []
  | (node, doc?) :: rest => do
    let items ← group? rest
    match node.inline? with
    | none => return .single node (← doc?) :: items
    | some piece => return joinRun piece items

theorem group?_eq (children : List (Node × Doc)) :
    group? (children.map fun child => (child.1, child.2.unbroken?)) =
      if ∀ item ∈ group children, item.Unbroken then some (group children) else none := by
  induction children with
  | nil => rfl
  | cons child rest ih =>
    rcases child with ⟨node, doc⟩
    rw [List.map_cons, group?, ih]
    cases hinline : node.inline? with
    | none =>
      -- both the layout of the node and the items behind it have to come out
      simp only [group_of_none hinline, List.forall_mem_cons]
      by_cases hrest : ∀ item ∈ group rest, item.Unbroken
      · rw [if_pos hrest]
        by_cases hdoc : doc.Unbroken
        · rw [if_pos ⟨hdoc, hrest⟩, Doc.unbroken?_of_unbroken hdoc]
          rfl
        · rw [if_neg fun h => hdoc h.1, Doc.unbroken?_of_not hdoc]
          rfl
      · rw [if_neg hrest, if_neg fun h => hrest h.2]
        rfl
    | some piece =>
      -- the node's own layout is not asked for, so the items behind it decide
      simp only [group_of_some hinline, unbroken_joinRun]
      split <;> rfl

/-- `Item.doc` of checked texts. -/
def doc? (container : Container) : Item → Option Doc
  | .run pieces => Inline.runDoc? container pieces
  | .single _ doc => some doc

theorem doc?_eq (container : Container) (item : Item) :
    item.doc? container = some (item.doc container) := by
  cases item with
  | run pieces => exact Inline.runDoc?_eq container pieces
  | single node doc => rfl

/-- `Item.laidOut` of checked texts. -/
def laidOut? (container : Container) (items : List Item) : Option (List (Item × Doc)) := do
  let entries ← items.mapM fun item => do return (item, ← item.doc? container)
  return entries.filter (!·.2.isNil)

theorem laidOut?_eq (container : Container) (items : List Item) :
    laidOut? container items = some (laidOut container items) := by
  have hentries : ∀ item ∈ items,
      (do return (item, ← item.doc? container)) = some (item, item.doc container) := by
    intro item _
    rw [doc?_eq]
    rfl
  rw [laidOut?, mapM_of_forall_some hentries]
  rfl

/-- `Item.separator` of checked texts. -/
def separator? (container : Container) : Item → Item → Option Doc
  | .run pieces, .single node _ =>
    if isBareBlock node && !runEndsInComment pieces then Doc.ofText? [' '] else some Doc.hardLine
  | .single node _, .run pieces =>
    if container == .block && endsWithBrace node && startsWithPunctuation pieces then some .nil
    else some Doc.hardLine
  | _, _ => some Doc.hardLine

theorem separator?_eq (container : Container) (item item' : Item) :
    separator? container item item' = some (separator container item item') := by
  cases item <;> cases item' <;>
    simp only [separator?, separator, Doc.ofText?_space, ← apply_ite some]

/-- `Item.separated` of checked texts. -/
def separated? (container : Container) : List (Item × Doc) → Option (List Doc)
  | [] => some []
  | [(_, d)] => some [d]
  | (item, d) :: (item', d') :: rest => do
    let between ← separator? container item item'
    return d :: between :: (← separated? container ((item', d') :: rest))

theorem separated?_eq (container : Container) (entries : List (Item × Doc)) :
    separated? container entries = some (separated container entries) := by
  fun_induction separated container entries with
  | case1 => rfl
  | case2 item d => rfl
  | case3 item d item' d' rest ih =>
    rw [separated?, separator?_eq, ih]
    rfl

/-- `Item.sequenceDoc` of checked texts. -/
def sequenceDoc? (container : Container) (items : List Item) : Option Doc := do
  return Doc.seq (← separated? container (← laidOut? container items))

theorem sequenceDoc?_eq (container : Container) (items : List Item) :
    sequenceDoc? container items = some (sequenceDoc container items) := by
  rw [sequenceDoc?, laidOut?_eq, Option.bind_eq_bind, Option.bind_some, separated?_eq]
  rfl

/-- `Item.elementBody` of checked texts. -/
def elementBody? (items : List Item) : Option (Doc × Bool) := do
  let entries ← laidOut? .element items
  if entries.any needsLines then
    return (Doc.seq (entries.flatMap fun (item, d) => [elementLine item, d]), true)
  else return (Doc.seq (entries.map Prod.snd), false)

theorem elementBody?_eq (items : List Item) : elementBody? items = some (elementBody items) := by
  rw [elementBody?, laidOut?_eq, elementBody]
  dsimp only
  exact (apply_ite some _ _ _).symm

end Item

/-! ### Nodes -/

/-- `attributeDoc` of checked texts. -/
def attributeDoc? (name value : Text) : Option Doc :=
  let written := attributeText name value
  if written.contains '\n' then blockDoc? written else Doc.ofText? written

theorem attributeDoc?_eq (name value : Text) :
    attributeDoc? name value = some (attributeDoc name value) := by
  rw [attributeDoc?, attributeDoc]
  split
  · exact blockDoc?_eq _
  · rename_i hbreak
    exact Doc.ofText?_of_not_mem (by simpa using hbreak)

/-- `headDoc` of checked texts. -/
def headDoc? (indentWidth : Nat) (name : Text) (attributes : AttributeMap) (selfClosing : Bool) :
    Option Doc := do
  let entries ← attributes.entries.mapM fun entry => do
    return Doc.seq [Doc.softLine, ← attributeDoc? entry.1 entry.2]
  return Doc.grouped (Doc.seq
    [← Doc.ofText? ('<' :: name), Doc.indentBy indentWidth (Doc.seq entries),
     ← Doc.ofText? (tagEnd name selfClosing)])

theorem headDoc?_eq (indentWidth : Nat) (name : Text) (attributes : AttributeMap)
    (selfClosing : Bool) :
    headDoc? indentWidth name attributes selfClosing =
      if '\n' ∈ name then none else some (headDoc indentWidth name attributes selfClosing) := by
  have hentries : ∀ entry ∈ attributes.entries,
      (do return Doc.seq [Doc.softLine, ← attributeDoc? entry.1 entry.2]) =
        some (Doc.seq [Doc.softLine, attributeDoc entry.1 entry.2]) := by
    intro entry _
    rw [attributeDoc?_eq]
    rfl
  rw [headDoc?, mapM_of_forall_some hentries, Doc.ofText?_of_not_mem (newline_not_mem_tagEnd _ _),
    headDoc_eq]
  split
  · rename_i hname
    rw [Doc.ofText?_of_mem (List.mem_cons_of_mem _ hname)]
    rfl
  · rename_i hname
    rw [Doc.ofText?_of_not_mem (by simpa using hname)]
    rfl

/-- `elementDoc` of checked texts. -/
def elementDoc? (indentWidth : Nat) (name : Text) (attributes : AttributeMap) (selfClosing : Bool)
    (children : List (Node × Option Doc)) : Option Doc := do
  let head ← headDoc? indentWidth name attributes selfClosing
  if selfClosing then return head
  else
    let close ← Doc.ofText? (closingTag name)
    match rawBlock? name (children.map Prod.fst) with
    | some content =>
      return Doc.seq
        [head, Doc.indentBy indentWidth (Doc.seq [Doc.hardLine, ← blockDoc? content]),
         Doc.hardLine, close]
    | none =>
      match ← Item.elementBody? (← Item.group? children) with
      | (body, true) =>
        return Doc.seq
          [head, Doc.grouped (Doc.seq [Doc.indentBy indentWidth body, Doc.hardLine, close])]
      | (body, false) => return Doc.seq [head, body, close]

theorem elementDoc?_eq (indentWidth : Nat) (name : Text) (attributes : AttributeMap)
    (selfClosing : Bool) (children : List (Node × Doc)) :
    elementDoc? indentWidth name attributes selfClosing
        (children.map fun child => (child.1, child.2.unbroken?)) =
      (elementDoc indentWidth name attributes selfClosing children).unbroken? := by
  have hnodes : (children.map fun child => (child.1, child.2.unbroken?)).map Prod.fst =
      children.map Prod.fst := by
    rw [List.map_map]
    rfl
  have helement := unbroken_elementDoc indentWidth name attributes selfClosing children
  rw [elementDoc?, headDoc?_eq, hnodes, Item.group?_eq]
  by_cases hname : '\n' ∈ name
  · -- the head does not come out, whatever follows it
    rw [if_pos hname, Doc.unbroken?_of_not fun h => (helement.1 h).1 hname]
    rfl
  rw [if_neg hname, Doc.ofText?_of_not_mem (mt (newline_mem_closingTag name).1 hname)]
  cases selfClosing with
  | true =>
    rw [Doc.unbroken?_of_unbroken (helement.2 ⟨hname, Or.inl rfl⟩)]
    rfl
  | false =>
    cases hraw : rawBlock? name (children.map Prod.fst) with
    | some content =>
      -- raw text of several lines is laid out as a block, and the children are not asked for
      have hsome : (rawBlock? name (children.map Prod.fst)).isSome = true := by
        rw [hraw]
        rfl
      rw [Doc.unbroken?_of_unbroken (helement.2 ⟨hname, Or.inr (Or.inl hsome)⟩), elementDoc, hraw]
      simp only [blockDoc?_eq]
      rfl
    | none =>
      by_cases hitems : ∀ item ∈ Item.group children, item.Unbroken
      · rw [Doc.unbroken?_of_unbroken (helement.2 ⟨hname, Or.inr (Or.inr hitems)⟩), elementDoc,
          hraw, if_pos hitems]
        simp only [Option.bind_eq_bind, Option.bind_some, Item.elementBody?_eq]
        rcases Item.elementBody (Item.group children) with ⟨body, inLines⟩
        cases inLines <;> rfl
      · have hbroken : ¬ (elementDoc indentWidth name attributes false children).Unbroken := by
          rw [helement, hraw]
          simp [hitems]
        rw [Doc.unbroken?_of_not hbroken, if_neg hitems]
        rfl

/-- `codeDoc` of checked texts. -/
def codeDoc? (indentWidth : Nat) (keyword : Text) (children : List (Node × Option Doc)) :
    Option Doc :=
  match CodeKind.ofKeyword keyword with
  | .block => do
    let opening ← Doc.ofText? (Text.trim keyword)
    let body ← Item.sequenceDoc? .block (← Item.group? children)
    let closing ← Doc.ofText? ['}']
    if body.isNil then return Doc.seq [opening, Doc.hardLine, closing]
    else
      return Doc.seq
        [opening, Doc.indentBy indentWidth (Doc.seq [Doc.hardLine, body]), Doc.hardLine, closing]
  | .directive => do
    let head ← blockDoc? keyword
    let body ← Item.sequenceDoc? .block (← Item.group? children)
    if body.isNil then return head else return Doc.seq [head, ← Doc.ofText? [' '], body]
  | .expression => blockDoc? keyword

theorem codeDoc?_eq (indentWidth : Nat) (keyword : Text) (children : List (Node × Doc)) :
    codeDoc? indentWidth keyword (children.map fun child => (child.1, child.2.unbroken?)) =
      (codeDoc indentWidth keyword children).unbroken? := by
  have hcode := unbroken_codeDoc indentWidth keyword children
  rw [codeDoc?, Item.group?_eq]
  by_cases hexpression : CodeKind.ofKeyword keyword = .expression
  · -- an expression does not ask for its children
    rw [Doc.unbroken?_of_unbroken (hcode.2 (Or.inl hexpression)), codeDoc, hexpression]
    exact blockDoc?_eq keyword
  by_cases hitems : ∀ item ∈ Item.group children, item.Unbroken
  · rw [Doc.unbroken?_of_unbroken (hcode.2 (Or.inr hitems)), codeDoc, if_pos hitems]
    simp only [Option.bind_eq_bind, Option.bind_some, Item.sequenceDoc?_eq, blockDoc?_eq,
      Doc.ofText?_space]
    cases hkind : CodeKind.ofKeyword keyword with
    | block =>
      rw [Doc.ofText?_of_not_mem (newline_not_mem_trim_of_block hkind),
        Doc.ofText?_of_not_mem (by decide)]
      exact (apply_ite some _ _ _).symm
    | directive => exact (apply_ite some _ _ _).symm
    | expression => exact absurd hkind hexpression
  · have hbroken : ¬ (codeDoc indentWidth keyword children).Unbroken := by
      rw [hcode]
      simp [hexpression, hitems]
    rw [Doc.unbroken?_of_not hbroken, if_neg hitems]
    cases hkind : CodeKind.ofKeyword keyword with
    | block =>
      rw [Doc.ofText?_of_not_mem (newline_not_mem_trim_of_block hkind)]
      rfl
    | directive =>
      simp only [blockDoc?_eq]
      rfl
    | expression => exact absurd hkind hexpression

namespace Node

mutual
/-- `Node.doc` of checked texts. -/
def doc? (indentWidth : Nat) : Node → Option Doc
  | .markup name attributes children selfClosing =>
    elementDoc? indentWidth name attributes selfClosing (withDocs? indentWidth children)
  | .code keyword children _ => codeDoc? indentWidth keyword (withDocs? indentWidth children)
  | .text content => textDoc? .root true true content
  | .comment content => blockDoc? content
/-- `Node.withDocs` of checked texts. -/
def withDocs? (indentWidth : Nat) : List Node → List (Node × Option Doc)
  | [] => []
  | node :: rest => (node, doc? indentWidth node) :: withDocs? indentWidth rest
end

theorem withDocs?_eq {indentWidth : Nat} {nodes : List Node}
    (h : ∀ node ∈ nodes, doc? indentWidth node = (doc indentWidth node).unbroken?) :
    withDocs? indentWidth nodes =
      (withDocs indentWidth nodes).map fun child => (child.1, child.2.unbroken?) := by
  induction nodes with
  | nil => rfl
  | cons node rest ih =>
    rw [withDocs?, withDocs, List.map_cons, h node List.mem_cons_self,
      ih fun n hn => h n (List.mem_cons_of_mem _ hn)]

/-- A node has a layout of checked texts exactly if the texts of its layout are lines. -/
theorem doc?_eq (indentWidth : Nat) (node : Node) :
    doc? indentWidth node = (doc indentWidth node).unbroken? := by
  induction node using Node.induct with
  | markup name attributes children selfClosing ih =>
    rw [doc?, withDocs?_eq ih, elementDoc?_eq, doc]
  | code keyword children selfClosing ih => rw [doc?, withDocs?_eq ih, codeDoc?_eq, doc]
  | text content =>
    rw [doc?, textDoc?_eq, doc, Doc.unbroken?_of_unbroken (unbroken_textDoc _ _ _ _)]
  | comment content =>
    rw [doc?, blockDoc?_eq, doc, Doc.unbroken?_of_unbroken (unbroken_blockDoc _)]

end Node

/-! ## Forests -/

/-- `forestDoc` of checked texts: the layout of a forest, if no text with a line break is made part
of it. -/
def forestDoc? (indentWidth : Nat) (nodes : List Node) : Option Doc := do
  let items ← Item.group? (Node.withDocs? indentWidth (splitSection nodes).1)
  let bodyDoc ← Item.sequenceDoc? .root items
  let whole ←
    match (splitSection nodes).2 with
    | none => pure bodyDoc
    | some content =>
      if bodyDoc.isNil then sectionDoc? content
      else pure (Doc.seq [bodyDoc, Doc.hardLine, Doc.hardLine, ← sectionDoc? content])
  return if whole.isNil then whole else Doc.seq [whole, Doc.hardLine]

/-- The texts of the layout of a forest are lines if those of its nodes are; those of a code section
always are. -/
theorem unbroken_forestDoc (indentWidth : Nat) (nodes : List Node) :
    (forestDoc indentWidth nodes).Unbroken ↔
      ∀ item ∈ Item.group (Node.withDocs indentWidth (splitSection nodes).1), item.Unbroken := by
  have hend : ∀ d : Doc, (if d.isNil then d else Doc.seq [d, Doc.hardLine]).Unbroken ↔
      d.Unbroken := by
    intro d
    split <;> simp
  rw [forestDoc, ← Item.unbroken_sequenceDoc .root]
  rcases splitSection nodes with ⟨body, codeSection⟩
  dsimp only
  rw [hend]
  cases codeSection with
  | none => rfl
  | some content =>
    dsimp only
    split
    · rename_i hnil
      exact iff_of_true (unbroken_sectionDoc content) (Doc.unbroken_of_isNil hnil)
    · simp

/-- A forest has a layout of checked texts exactly if the texts of its layout are lines. -/
theorem forestDoc?_eq (indentWidth : Nat) (nodes : List Node) :
    forestDoc? indentWidth nodes = (forestDoc indentWidth nodes).unbroken? := by
  have hforest := unbroken_forestDoc indentWidth nodes
  rw [forestDoc?, Node.withDocs?_eq fun node _ => Node.doc?_eq indentWidth node, Item.group?_eq]
  by_cases hitems : ∀ item ∈ Item.group (Node.withDocs indentWidth (splitSection nodes).1),
      item.Unbroken
  · -- all that is left to hand over are lines of the code section and spaces
    rw [Doc.unbroken?_of_unbroken (hforest.2 hitems), if_pos hitems, forestDoc]
    simp only [Option.bind_eq_bind, Option.bind_some, Item.sequenceDoc?_eq, sectionDoc?_eq]
    rcases splitSection nodes with ⟨body, codeSection⟩
    cases codeSection with
    | none => rfl
    | some content =>
      dsimp only
      split <;> rfl
  · rw [Doc.unbroken?_of_not (mt hforest.1 hitems), if_neg hitems]
    rfl

/-- The name of an element is handed over as it stands. -/
example : forestDoc? 2 [.markup ['a', '\n', 'b'] .empty [] true] = none := by decide

/-! ## Templates -/

namespace Node

theorem unbroken_group_withDocs {indentWidth : Nat} {nodes : List Node}
    (h : ∀ node ∈ nodes, (doc indentWidth node).Unbroken) :
    ∀ item ∈ Item.group (withDocs indentWidth nodes), item.Unbroken := by
  apply Item.forall_mem_group
  · intro child hchild _
    rw [withDocs_eq_map] at hchild
    obtain ⟨node, hnode, rfl⟩ := List.mem_map.1 hchild
    exact h node hnode
  · intros
    trivial
  · intros
    trivial

/-- The layout of a well-formed node has texts that are lines: names have no blanks. -/
theorem unbroken_doc (indentWidth : Nat) (node : Node) :
    Everywhere WellFormed node → (doc indentWidth node).Unbroken := by
  induction node using Node.induct with
  | markup name attributes children selfClosing ih =>
    rintro ⟨⟨hname, -, -⟩, hchildren⟩
    have hbreak : '\n' ∉ name := fun hmem => absurd (hname '\n' hmem) (by decide)
    rw [everywhereIn_iff] at hchildren
    rw [doc, unbroken_elementDoc]
    refine ⟨hbreak, Or.inr (Or.inr (unbroken_group_withDocs ?_))⟩
    exact fun child hchild => ih child hchild (hchildren child hchild)
  | code keyword children selfClosing ih =>
    rintro ⟨-, hchildren⟩
    rw [everywhereIn_iff] at hchildren
    rw [doc, unbroken_codeDoc]
    refine Or.inr (unbroken_group_withDocs ?_)
    exact fun child hchild => ih child hchild (hchildren child hchild)
  | text content => exact fun _ => unbroken_textDoc .root true true content
  | comment content => exact fun _ => unbroken_blockDoc content

end Node

theorem mem_of_mem_splitSection {nodes : List Node} {node : Node}
    (h : node ∈ (splitSection nodes).1) : node ∈ nodes := by
  unfold splitSection at h
  split at h
  · split at h
    · exact List.mem_of_mem_dropLast h
    · exact h
  · exact h

/-- A layout of checked texts is the layout of the forest, and there is one exactly if the texts of
the layout are lines and none of them is empty. For the forest of a template there is one: no text
with a line break is handed over while the template is laid out. -/
theorem Style.layout_unbroken (style : Style) (source : Text) :
    (∀ nodes d, forestDoc? style.indentWidth nodes = some d ↔
        forestDoc style.indentWidth nodes = d ∧ ∀ s ∈ d.texts, s ≠ [] ∧ '\n' ∉ s) ∧
      forestDoc? style.indentWidth (style.parse source) =
        some (forestDoc style.indentWidth (style.parse source)) ∧
      ∀ s ∈ (forestDoc style.indentWidth (style.parse source)).texts, s ≠ [] ∧ '\n' ∉ s := by
  have hdocs : ∀ node ∈ style.parse source, (node.doc style.indentWidth).Unbroken := by
    intro node hnode
    rcases List.mem_append.1 hnode with hbody | hsection
    · obtain ⟨hwell, -⟩ :=
        Template.wellFormed_parseBody style.voidElements (CodeSection.split source).1
      exact node.unbroken_doc style.indentWidth ((Node.everywhereIn_iff _).1 hwell node hbody)
    · -- the code section is a text like any other here
      obtain ⟨content, -, rfl⟩ := List.mem_map.1 hsection
      exact unbroken_textDoc .root true true content
  have hunbroken : (forestDoc style.indentWidth (style.parse source)).Unbroken := by
    rw [unbroken_forestDoc]
    apply Node.unbroken_group_withDocs
    exact fun node hnode => hdocs node (mem_of_mem_splitSection hnode)
  refine ⟨?_, ?_, hunbroken⟩
  · intro nodes d
    rw [forestDoc?_eq]
    exact Doc.unbroken?_eq_some_iff
  · rw [forestDoc?_eq, Doc.unbroken?_of_unbroken hunbroken]

end RazorTidy
