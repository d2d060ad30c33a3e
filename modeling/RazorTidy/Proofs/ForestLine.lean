import RazorTidy.Proofs.LineStructure
import RazorTidy.Proofs.Openers
import RazorTidy.Proofs.RunLine

/-!
# Forests on one line

A forest can be written on one line without any layout (`Node.flatAll`). The layout of the nodes of
a container has the same openers as their line, since it only sets the nodes apart by blanks
(`Legible.alikeApart_sequenceDoc`, `Legible.alikeApart_elementBody`).
-/

set_option autoImplicit false

namespace RazorTidy

/-! ## Forests on one line -/

/-- The opening tag of an element on one line. -/
def flatHead (name : Text) (attributes : AttributeMap) (selfClosing : Bool) : Text :=
  '<' :: name ++ (attributes.entries.flatMap fun (n, v) => ' ' :: serializeAttribute n v) ++
    tagEnd name selfClosing

namespace Node

mutual
/-- A node on one line: texts and inline expressions as they are, anything else between spaces. -/
def flat : Node → Text
  | .markup name attributes children selfClosing =>
    [' '] ++ flatHead name attributes selfClosing ++
      (if selfClosing then [] else flatAll children ++ closingTag name) ++ [' ']
  | .code keyword children _ =>
    match CodeKind.ofKeyword keyword with
    | .expression => Text.trim keyword
    | .directive => [' '] ++ keyword ++ [' '] ++ flatAll children ++ [' ']
    | .block => [' '] ++ keyword ++ [' '] ++ flatAll children ++ [' ', '}', ' ']
  | .text content => content
  | .comment content => [' '] ++ content ++ [' ']
/-- The nodes of a forest on one line. -/
def flatAll : List Node → Text
  | [] => []
  | node :: rest => flat node ++ flatAll rest
end

/-- A node that does not flow in a line stands between spaces. -/
theorem exists_flat_eq {node : Node} (h : node.inline? = none) :
    ∃ core, node.flat = [' '] ++ core ++ [' '] := by
  cases node with
  | markup name attributes children selfClosing =>
    rw [flat, List.append_assoc [' ']]
    exact ⟨_, rfl⟩
  | code keyword children selfClosing =>
    rw [flat]
    cases hkind : CodeKind.ofKeyword keyword with
    | expression =>
      rw [inline?, if_pos hkind] at h
      cases h
    | directive => exact ⟨keyword ++ [' '] ++ flatAll children, by simp⟩
    | block => exact ⟨keyword ++ [' '] ++ flatAll children ++ [' ', '}'], by simp⟩
  | text content => cases h
  | comment content =>
    rw [flat]
    exact ⟨content, rfl⟩

end Node

/-! ## Blanks between texts -/

namespace Text

/-- What reads alike between blanks does so wherever a blank on either side would not matter. -/
theorem AlikeApart.within {s t front back : Text} (h : AlikeApart s t)
    (hfront : Alike (front ++ [' ']) front) (hback : Alike ([' '] ++ back) back) :
    Alike (front ++ s ++ back) (front ++ t ++ back) := by
  have hwiden : ∀ u : Text,
      Alike (front ++ ([' '] ++ u ++ [' ']) ++ back) (front ++ u ++ back) := by
    intro u
    have hboth := (hfront.append (Alike.refl u)).append hback
    simpa only [List.append_assoc] using hboth
  exact (hwiden s).symm.trans (((h.append_left front).append_right back).trans (hwiden t))

theorem AlikeApart.refl (s : Text) : AlikeApart s s := Alike.refl _

theorem AlikeApart.symm {s t : Text} (h : AlikeApart s t) : AlikeApart t s := Alike.symm h

theorem AlikeApart.trans {s t u : Text} (h : AlikeApart s t) (h' : AlikeApart t u) :
    AlikeApart s u := Alike.trans h h'

theorem alike_spaces : Alike ([' '] ++ [' ']) [' '] := alike_space (by simp) (by decide)

/-- A space in front of another does not matter. -/
theorem alike_space_space (s : Text) : Alike ([' '] ++ ([' '] ++ s)) ([' '] ++ s) := by
  rw [← List.append_assoc]
  exact alike_spaces.append_right s

/-- A space behind another does not matter. -/
theorem alike_concat_spaces (s : Text) : Alike (s ++ [' '] ++ [' ']) (s ++ [' ']) := by
  rw [List.append_assoc]
  exact alike_spaces.append_left s

theorem alikeApart_append_blanks (s : Text) {b : Text} (hb : allBlank b = true) :
    AlikeApart (s ++ b) s := by
  have hblanks := (alike_append_space hb).append_left ([' '] ++ s)
  simpa only [AlikeApart, List.append_assoc] using hblanks

theorem alikeApart_concat_space (s : Text) : AlikeApart (s ++ [' ']) s :=
  alikeApart_append_blanks s rfl

/-- Spaces around a text do not matter between blanks. -/
theorem alikeApart_spaces (s : Text) : AlikeApart ([' '] ++ s ++ [' ']) s := by
  have hfront := alike_space_space (s ++ [' '])
  refine (alikeApart_concat_space ([' '] ++ s)).trans ?_
  simpa only [AlikeApart, List.append_assoc] using hfront

/-- Texts with a space between them may be spaced out each. -/
theorem AlikeApart.pair {s t s' t' : Text} (h : AlikeApart s t) (h' : AlikeApart s' t') :
    AlikeApart (s ++ [' '] ++ s') (t ++ [' '] ++ t') := by
  have hfirst := h.append_right (s' ++ [' '])
  have hsecond := h'.append_left ([' '] ++ t)
  rw [AlikeApart]
  simp only [List.append_assoc] at hfirst hsecond ⊢
  exact hfirst.trans hsecond

theorem alikeApart_trim (s : Text) : AlikeApart (trim s) s := by
  obtain ⟨front, back, hfront, hback, heq⟩ := exists_trim_append s
  have hboth := ((alike_space_append hfront).symm.append_right (trim s)).append
    (alike_append_space hback).symm
  rw [AlikeApart]
  conv => rhs; rw [heq]
  simpa only [List.append_assoc] using hboth

end Text

/-! ## Blocks and documents -/

/-- A printed document reads like the document on one line. -/
theorem Doc.alike_render (printWidth : Nat) (d : Doc) :
    Text.Alike (d.render printWidth) (flat d) :=
  (respaced_render printWidth d).alike

/-- Between blanks, a block reads like its text. -/
theorem alikeApart_blockDoc {s : Text} (hs : Text.allBlank s = false) :
    Text.AlikeApart (blockDoc s).flat s :=
  (respacedApart_blockDoc hs).alikeApart

/-! ## Runs -/

namespace Inline

/-- A run without empty texts, whose expressions start visibly. -/
structure Legible (run : List Inline) : Prop where
  texts : ∀ content, .text content ∈ run → content ≠ []
  expressions : ∀ keyword, .expression keyword ∈ run → Text.StartsVisible keyword

/-- A run laid out reads like its pieces. -/
theorem Legible.alikeApart_runDoc {run : List Inline} (h : Legible run) (container : Container) :
    Text.AlikeApart (runDoc container run).flat (run.flatMap flat) := by
  have hkeyword : ∀ keyword, .expression keyword ∈ run → Text.startsBlank keyword = false := by
    intro keyword hmem
    obtain ⟨c, r, rfl, hc⟩ := h.expressions keyword hmem
    exact hc
  have hinner : ∀ content, .text content ∈ run.tail.dropLast → content ≠ [] := by
    intro content hmem
    exact h.texts content (List.mem_of_mem_tail (List.mem_of_mem_dropLast hmem))
  rw [← spelledAll_eq_flatMap hinner]
  exact (respacedApart_runDoc container hkeyword).alikeApart

/-- A run that starts with punctuation does not need a space in front. -/
theorem Legible.alike_space_runDoc {run : List Inline} (h : Legible run) (container : Container)
    (hpunctuation : Item.startsWithPunctuation run = true) :
    Text.Alike ([' '] ++ (runDoc container run).flat) (runDoc container run).flat := by
  unfold Item.startsWithPunctuation at hpunctuation
  split at hpunctuation
  · rename_i content rest
    split at hpunctuation
    · rename_i c r hstart
      have hforeign : CodeSection.Foreign c := by
        simp only [Bool.or_eq_true, beq_iff_eq] at hpunctuation
        rcases hpunctuation with (rfl | rfl) | rfl <;> decide
      -- the first text is laid out from its punctuation on
      have hcore : Text.trim content = c :: Text.trimEnd r := by
        rw [Text.trim, hstart, Text.trimEnd_cons hforeign.1]
      have hblock := (respaced_blockDoc (s := Text.trim content) ⟨c, _, hcore, hforeign.1⟩).alike
      rw [Text.trimEnd_trim, hcore] at hblock
      have hdoc : ∃ more, (runDoc container (.text content :: rest)).flat =
          (blockDoc (Text.trim content)).flat ++ more := by
        rw [runDoc, Doc.flat_seq, docs, List.flatMap_cons, doc, textDoc, hcore]
        dsimp only [List.isEmpty_cons]
        rw [if_neg Bool.false_ne_true, Doc.flat_seq, List.flatMap_cons]
        simp only [Bool.not_true, Bool.false_and, Bool.false_eq_true, if_false, Doc.flat_nil,
          List.nil_append, List.flatMap_cons, List.append_assoc]
        exact ⟨_, rfl⟩
      obtain ⟨more, hmore⟩ := hdoc
      rw [hmore, hcore, ← List.append_assoc]
      refine Text.Alike.append_right ?_ more
      exact (hblock.append_left [' ']).trans ((Text.alike_space_cons hforeign _).trans hblock.symm)
    · cases hpunctuation
  · cases hpunctuation

end Inline

/-! ## Items -/

namespace Item

/-- An item on one line. -/
def flat : Item → Text
  | .run pieces => pieces.flatMap Inline.flat
  | .single node _ => node.flat

/-- An item whose layout reads like it. -/
def Legible : Item → Prop
  | .run pieces => Inline.Legible pieces
  | .single node d => node.inline? = none ∧ Text.AlikeApart d.flat node.flat

theorem Legible.alikeApart_doc {item : Item} (h : item.Legible) (container : Container) :
    Text.AlikeApart (item.doc container).flat item.flat := by
  cases item with
  | run pieces => exact Inline.Legible.alikeApart_runDoc h container
  | single node d => exact h.2

/-- Whether an item is a run. -/
def isRun : Item → Bool
  | .run _ => true
  | .single _ _ => false

/-- No two runs follow each other. -/
theorem isChain_group (children : List (Node × Doc)) :
    (group children).IsChain fun item next => item.isRun = false ∨ next.isRun = false := by
  induction children with
  | nil => exact .nil
  | cons child rest ih =>
    rcases child with ⟨node, d⟩
    rw [group]
    split
    · cases hgroup : group rest with
      | nil => exact .singleton _
      | cons next others => exact .cons_cons (Or.inl rfl) (hgroup ▸ ih)
    · split
      · rename_i pieces items hgroup
        rw [hgroup] at ih
        cases items with
        | nil => exact .singleton _
        | cons next others =>
          obtain ⟨hnext, hothers⟩ := List.isChain_cons_cons.1 ih
          exact .cons_cons (Or.inr (hnext.resolve_left fun h => by cases h)) hothers
      · rename_i hnotRun
        cases hgroup : group rest with
        | nil => exact .singleton _
        | cons next others =>
          refine .cons_cons (Or.inr ?_) (hgroup ▸ ih)
          cases next with
          | run pieces => exact absurd hgroup (hnotRun pieces others)
          | single node' d' => rfl

/-- Items read like their layouts, each behind a space. -/
theorem alike_flatMap_flat {items : List Item} (hlegible : ∀ item ∈ items, item.Legible)
    (hchain : items.IsChain fun item next => item.isRun = false ∨ next.isRun = false) :
    Text.Alike ([' '] ++ items.flatMap flat ++ [' '])
      (items.flatMap (fun item => [' '] ++ item.flat) ++ [' ']) := by
  induction items with
  | nil => exact Text.alike_spaces
  | cons item rest ih =>
    have htail : rest.IsChain fun item next => item.isRun = false ∨ next.isRun = false := by
      cases hchain with
      | singleton => exact .nil
      | cons_cons _ htail => exact htail
    have hrest := ih (fun i hi => hlegible i (List.mem_cons_of_mem _ hi)) htail
    -- a space between the item and the rest does not matter
    have hgap : Text.Alike (item.flat ++ (rest.flatMap flat ++ [' ']))
        (item.flat ++ ([' '] ++ rest.flatMap flat ++ [' '])) := by
      have hsingle : ∀ i ∈ item :: rest, i.isRun = false →
          ∃ core, i.flat = [' '] ++ core ++ [' '] := by
        intro i hi hrun
        cases i with
        | run pieces => cases hrun
        | single node d => exact Node.exists_flat_eq (hlegible _ hi).1
      by_cases hitem : item.isRun = false
      · obtain ⟨core, hcore⟩ := hsingle item List.mem_cons_self hitem
        rw [hcore]
        have hspaces := (Text.alike_concat_spaces ([' '] ++ core)).symm.append_right
          (rest.flatMap flat ++ [' '])
        simpa only [List.append_assoc] using hspaces
      · apply Text.Alike.append_left
        cases rest with
        | nil => exact Text.alike_spaces.symm
        | cons next others =>
          have hnext := (List.isChain_cons_cons.1 hchain).1.resolve_left hitem
          obtain ⟨core, hcore⟩ := hsingle next (List.mem_cons_of_mem _ List.mem_cons_self) hnext
          rw [List.flatMap_cons, hcore]
          have hspaces := (Text.alike_space_space
            (core ++ [' '] ++ (others.flatMap flat ++ [' ']))).symm
          simpa only [List.append_assoc] using hspaces
    have hall := (hgap.trans (hrest.append_left item.flat)).append_left [' ']
    simpa only [List.flatMap_cons, List.append_assoc] using hall

/-- Layouts behind spaces read like their items behind spaces. -/
theorem alike_flatMap_doc {items : List Item} (hlegible : ∀ item ∈ items, item.Legible)
    (container : Container) :
    Text.Alike (items.flatMap (fun item => [' '] ++ (item.doc container).flat) ++ [' '])
      (items.flatMap (fun item => [' '] ++ item.flat) ++ [' ']) := by
  induction items with
  | nil => exact Text.Alike.refl _
  | cons item rest ih =>
    have hrest := ih fun i hi => hlegible i (List.mem_cons_of_mem _ hi)
    have hitem := (hlegible item List.mem_cons_self).alikeApart_doc container
    have hback : Text.Alike
        ([' '] ++ (rest.flatMap (fun item => [' '] ++ (item.doc container).flat) ++ [' ']))
        (rest.flatMap (fun item => [' '] ++ (item.doc container).flat) ++ [' ']) := by
      cases rest with
      | nil => exact Text.alike_spaces
      | cons next others =>
        rw [List.flatMap_cons, List.append_assoc, List.append_assoc]
        exact Text.alike_space_space _
    have hfirst := hitem.within Text.alike_spaces hback
    have hall := hfirst.trans (hrest.append_left ([' '] ++ item.flat))
    simpa only [List.flatMap_cons, List.append_assoc] using hall

/-- Items with solid layouts are all laid out. -/
theorem laidOut_eq {items : List Item} (h : ∀ item ∈ items, item.Tangible)
    (container : Container) :
    laidOut container items = items.map fun item => (item, item.doc container) := by
  rw [laidOut, List.filter_eq_self]
  intro entry hentry
  obtain ⟨item, hitem, rfl⟩ := List.mem_map.1 hentry
  rw [((h item hitem).solid_doc container).isNil]
  rfl

theorem exists_separated_cons (container : Container) (item : Item) (d : Doc)
    (rest : List (Item × Doc)) : ∃ more, separated container ((item, d) :: rest) = d :: more := by
  cases rest with
  | nil => exact ⟨[], rfl⟩
  | cons next others => exact ⟨_, rfl⟩

/-- Separated layouts read like the layouts behind spaces. -/
theorem alike_separated (container : Container) {items : List Item}
    (hlegible : ∀ item ∈ items, item.Legible) :
    Text.Alike ([' '] ++
        (separated container (items.map fun item => (item, item.doc container))).flatMap Doc.flat ++
          [' '])
      (items.flatMap (fun item => [' '] ++ (item.doc container).flat) ++ [' ']) := by
  induction items with
  | nil => exact Text.alike_spaces
  | cons item rest ih =>
    cases rest with
    | nil =>
      simp only [List.map_singleton, separated, List.flatMap_singleton]
      exact Text.Alike.refl _
    | cons next others =>
      have hrest := ih fun i hi => hlegible i (List.mem_cons_of_mem _ hi)
      obtain ⟨more, hmore⟩ := exists_separated_cons container next (next.doc container)
        (others.map fun item => (item, item.doc container))
      -- a missing separator stands in front of punctuation
      have hseparator : ∀ back, Text.Alike
          ((separator container item next).flat ++ ((next.doc container).flat ++ back))
          ([' '] ++ ((next.doc container).flat ++ back)) := by
        intro back
        unfold separator
        split
        · split
          · rw [Doc.flat_ofText]
            exact Text.Alike.refl _
          · rw [Doc.flat_hardLine]
            exact Text.Alike.refl _
        · rename_i node d pieces
          split
          · rename_i hpunctuation
            simp only [Bool.and_eq_true] at hpunctuation
            have hrun : Inline.Legible pieces :=
              hlegible (.run pieces) (List.mem_cons_of_mem _ List.mem_cons_self)
            rw [Doc.flat_nil, List.nil_append, ← List.append_assoc]
            exact ((hrun.alike_space_runDoc container hpunctuation.2).append_right back).symm
          · rw [Doc.flat_hardLine]
            exact Text.Alike.refl _
        · rw [Doc.flat_hardLine]
          exact Text.Alike.refl _
      rw [List.map_cons] at hrest
      rw [List.map_cons, List.map_cons, separated, hmore]
      rw [hmore] at hrest
      have hgap := ((hseparator (more.flatMap Doc.flat ++ [' '])).append_left
        ([' '] ++ (item.doc container).flat))
      have hall := hgap.trans (Text.Alike.append_left
        (by simpa only [List.flatMap_cons, List.append_assoc] using hrest)
        ([' '] ++ (item.doc container).flat))
      simpa only [List.flatMap_cons, List.append_assoc] using hall

end Item

/-- Children that are laid out, without empty texts, where each layout reads like its node. -/
structure Legible (children : List (Node × Doc)) : Prop where
  laid : Laid children
  texts : ∀ content, .text content ∈ children.map Prod.fst → content ≠ []
  alike : ∀ child ∈ children, child.1.inline? = none → Text.AlikeApart child.2.flat child.1.flat

theorem Node.flat_of_inline? {node : Node} {piece : Inline} (h : node.inline? = some piece) :
    node.flat = piece.flat := by
  rcases inline?_eq_some h with ⟨content, rfl, rfl⟩ | ⟨keyword, _, _, rfl, hkind, rfl⟩
  · rw [flat, Inline.flat]
  · rw [flat, hkind, Inline.flat]

/-- Grouping nodes into items keeps what they read like. -/
theorem flatMap_flat_group (children : List (Node × Doc)) :
    (Item.group children).flatMap Item.flat = Node.flatAll (children.map Prod.fst) := by
  induction children with
  | nil => rfl
  | cons child rest ih =>
    rcases child with ⟨node, d⟩
    rw [Item.group, List.map_cons, Node.flatAll, ← ih]
    split
    · rfl
    · rename_i piece hpiece
      have hnode : node.flat = piece.flat := Node.flat_of_inline? hpiece
      split
      · rename_i pieces items hgroup
        simp only [hgroup, hnode, List.flatMap_cons, Item.flat, List.append_assoc]
      · simp only [hnode, List.flatMap_cons, Item.flat, List.flatMap_nil, List.append_nil]

theorem Legible.cons_inline {children : List (Node × Doc)} (h : Legible children)
    {child : Node × Doc} (hmem : child ∈ children) {piece : Inline}
    (hpiece : child.1.inline? = some piece) {pieces : List Inline}
    (hpieces : Inline.Legible pieces) : Inline.Legible (piece :: pieces) := by
  constructor
  · intro content hcontent
    rcases List.mem_cons.1 hcontent with rfl | hcontent
    · rcases Node.inline?_eq_some hpiece with ⟨_, htext, hcase⟩ | ⟨_, _, _, _, _, hcase⟩
      · cases hcase
        exact h.texts content (List.mem_map.2 ⟨child, hmem, htext⟩)
      · cases hcase
    · exact hpieces.texts content hcontent
  · intro keyword hkeyword
    rcases List.mem_cons.1 hkeyword with rfl | hkeyword
    · exact h.laid.startsVisible hmem hpiece
    · exact hpieces.expressions keyword hkeyword

theorem Legible.legible_group {children : List (Node × Doc)} (h : Legible children) :
    ∀ item ∈ Item.group children, item.Legible := by
  apply Item.forall_mem_group
  · intro child hmem hnone
    exact ⟨hnone, h.alike child hmem hnone⟩
  · intro child hmem piece pieces hpiece hpieces
    exact h.cons_inline hmem hpiece hpieces
  · intro front child back piece heq hpiece _
    exact h.cons_inline (by rw [heq]; simp) hpiece ⟨by simp, by simp⟩

/-- The layouts of children behind spaces read like the children on one line. -/
theorem Legible.alike_flatMap_doc {children : List (Node × Doc)} (h : Legible children)
    (container : Container) :
    Text.Alike
      ((Item.group children).flatMap (fun item => [' '] ++ (item.doc container).flat) ++ [' '])
      ([' '] ++ Node.flatAll (children.map Prod.fst) ++ [' ']) := by
  have hflat := Item.alike_flatMap_flat h.legible_group (Item.isChain_group children)
  rw [flatMap_flat_group] at hflat
  exact (Item.alike_flatMap_doc h.legible_group container).trans hflat.symm

/-- The layout of the root or of a brace block reads like its nodes on one line. -/
theorem Legible.alikeApart_sequenceDoc {children : List (Node × Doc)} (h : Legible children)
    (container : Container) :
    Text.AlikeApart (Item.sequenceDoc container (Item.group children)).flat
      (Node.flatAll (children.map Prod.fst)) := by
  have hseparated := Item.alike_separated container h.legible_group
  rw [Item.sequenceDoc, Item.laidOut_eq h.laid.tangible_group, Doc.flat_seq]
  exact hseparated.trans (h.alike_flatMap_doc container)

/-- A line of its own reads like a space. -/
theorem Item.flat_elementLines (entries : List (Item × Doc)) :
    (Doc.seq (entries.flatMap fun entry => [elementLine entry.1, entry.2])).flat =
      entries.flatMap fun entry => [' '] ++ entry.2.flat := by
  have hline : ∀ item, (elementLine item).flat = [' '] := by
    intro item
    unfold elementLine
    split
    · exact Doc.flat_hardLine
    · exact Doc.flat_softLine
  rw [Doc.flat_seq, List.flatMap_assoc]
  simp only [List.flatMap_cons, List.flatMap_nil, List.append_nil, hline]

/-- The layout of the body of an element reads like its nodes on one line. -/
theorem Legible.alikeApart_elementBody {children : List (Node × Doc)} (h : Legible children) :
    Text.AlikeApart (Item.elementBody (Item.group children)).1.flat
      (Node.flatAll (children.map Prod.fst)) := by
  have hlaid := Item.laidOut_eq h.laid.tangible_group .element
  rw [Item.elementBody, hlaid]
  dsimp only
  split
  · -- with lines of its own, each layout stands behind one
    change Text.AlikeApart (Doc.seq (List.flatMap
      (fun entry : Item × Doc => [Item.elementLine entry.1, entry.2]) _)).flat _
    rw [Item.flat_elementLines, List.flatMap_map]
    refine Text.Alike.trans ?_ (Text.alikeApart_spaces _)
    have hspaces := (h.alike_flatMap_doc .element).append_left [' ']
    have hback := (Text.alike_concat_spaces
      ([' '] ++ ([' '] ++ Node.flatAll (children.map Prod.fst)))).symm
    simp only [List.append_assoc] at hspaces hback ⊢
    exact hspaces.trans hback
  · rename_i hneeds
    -- otherwise there is one run at most
    have hrun : ∀ item ∈ Item.group children, item.isRun = true := by
      intro item hitem
      cases item with
      | run pieces => rfl
      | single node d =>
        exfalso
        apply hneeds
        rw [List.any_map, List.any_eq_true]
        exact ⟨_, hitem, rfl⟩
    have hchain := Item.isChain_group children
    rw [← flatMap_flat_group children]
    cases hgroup : Item.group children with
    | nil => exact Text.AlikeApart.refl _
    | cons item rest =>
      rw [hgroup] at hrun hchain
      cases rest with
      | nil =>
        rw [List.map_singleton, List.map_singleton, Doc.flat_seq, List.flatMap_singleton,
          List.flatMap_singleton]
        exact (h.legible_group item (hgroup ▸ List.mem_cons_self)).alikeApart_doc .element
      | cons next others =>
        rcases (List.isChain_cons_cons.1 hchain).1 with hitem | hnext
        · rw [hrun item List.mem_cons_self] at hitem
          cases hitem
        · rw [hrun next (List.mem_cons_of_mem _ List.mem_cons_self)] at hnext
          cases hnext

end RazorTidy
