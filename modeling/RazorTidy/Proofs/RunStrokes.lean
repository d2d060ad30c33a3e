import RazorTidy.Proofs.Nesting

/-!
# Where the texts of a run are drawn

Texts and inline expressions flow together in runs, and a run is laid out as a whole. Siblings around
a text are those before its run, the run, and those behind it (`Node.group_around_run`), and the
strokes of the run hold those of the text between the strokes of the pieces before and after it
(`Node.strokes_text_of_sequence`). What follows the text is the next piece if there is one; otherwise
a line break, unless a brace block follows and the text ends without a line comment.
-/

set_option autoImplicit false

namespace RazorTidy

/-! ## Pieces around a piece -/

/-- The layouts of a run around that of one of its pieces. -/
theorem Inline.docs_around (container : Container) (atStart : Bool) (front : List Inline)
    (piece : Inline) (back : List Inline) :
    ∃ atStart' ds, docs container atStart (front ++ piece :: back) =
        ds ++ piece.doc container atStart' back.isEmpty :: docs container false back ∧
      ds.flatMap Doc.visible = front.flatMap fun other => Text.visible other.source := by
  induction front generalizing atStart with
  | nil => exact ⟨atStart, [], rfl, rfl⟩
  | cons first rest ih =>
    obtain ⟨atStart', ds, hdocs, hvisible⟩ := ih false
    refine ⟨atStart', first.doc container atStart (rest ++ piece :: back).isEmpty :: ds, ?_, ?_⟩
    · rw [List.cons_append, docs, hdocs]
      rfl
    · rw [List.flatMap_cons, List.flatMap_cons, hvisible, visible_doc]

/-- The strokes of a run around those of one of its pieces. -/
theorem Inline.strokes_runDoc_around {container : Container} {front : List Inline} {piece : Inline}
    {back : List Inline} {indent : Nat} {mode : LineMode} {ks : List Stroke}
    (h : Doc.Strokes indent mode (runDoc container (front ++ piece :: back)) ks) :
    ∃ atStart before own after, ks = before ++ own ++ after ∧
      Doc.Strokes indent mode (piece.doc container atStart back.isEmpty) own ∧
      before.flatMap Stroke.visible = front.flatMap (fun other => Text.visible other.source) ∧
      Doc.StrokesAll indent mode (docs container false back) after := by
  obtain ⟨atStart, ds, hdocs, hds⟩ := docs_around container true front piece back
  rw [runDoc, hdocs, Doc.strokes_seq, Doc.strokesAll_append] at h
  obtain ⟨before, more, rfl, hbefore, hmore⟩ := h
  rw [Doc.StrokesAll] at hmore
  obtain ⟨own, after, rfl, hown, hafter⟩ := hmore
  refine ⟨atStart, before, own, after, (List.append_assoc ..).symm, hown, ?_, hafter⟩
  rw [Doc.visible_strokesAll ds hbefore, Doc.visibleAll_eq_flatMap, hds]

namespace Item

/-- A run with a text that is not blank is laid out as something. -/
theorem isNil_doc_run {container : Container} {content : Text}
    (hcontent : Text.allBlank content = false) (front back : List Inline) :
    (doc container (.run (front ++ .text content :: back))).isNil = false := by
  by_contra hnil
  rw [Bool.not_eq_false] at hnil
  have hvisible := Doc.visible_of_isNil hnil
  rw [doc, Inline.visible_runDoc] at hvisible
  have hshown : Text.visible content = [] := by
    simp only [List.flatMap_append, List.flatMap_cons, List.append_eq_nil_iff] at hvisible
    exact hvisible.2.1
  rw [Text.visible_eq_nil_iff_allBlank, hcontent] at hshown
  cases hshown

/-- Nodes that flow in a line are one run. -/
theorem group_of_inline {children : List (Node × Doc)} (hne : children ≠ [])
    (h : ∀ child ∈ children, child.1.inline?.isSome = true) :
    group children = [.run (children.filterMap fun child => child.1.inline?)] := by
  induction children with
  | nil => exact absurd rfl hne
  | cons child rest ih =>
    rcases child with ⟨node, d⟩
    obtain ⟨piece, hpiece⟩ := Option.isSome_iff_exists.1 (h (node, d) List.mem_cons_self)
    rw [group, hpiece, List.filterMap_cons]
    dsimp only
    rw [hpiece]
    cases rest with
    | nil => rfl
    | cons next others =>
      rw [ih (List.cons_ne_nil _ _) fun child hchild => h child (List.mem_cons_of_mem _ hchild)]

/-- Siblings may be taken apart behind a node that does not flow in a line. -/
theorem group_append_of_last {front back : List (Node × Doc)}
    (h : ∀ child ∈ front.getLast?, child.1.inline? = none) :
    group (front ++ back) = group front ++ group back := by
  rcases List.eq_nil_or_concat front with rfl | ⟨others, child, rfl⟩
  · rfl
  · rcases child with ⟨node, d⟩
    have hnode : node.inline? = none := h (node, d) (by simp)
    rw [List.concat_eq_append, List.append_assoc, List.singleton_append,
      group_append_single others back hnode, group_append_single others [] hnode, List.append_assoc]
    rfl

end Item

/-! ## Runs among siblings -/

namespace Node

/-- Whether siblings go on with a node that flows in a line. -/
def runsOn (nodes : List Node) : Bool := nodes.head?.any (·.inline?.isSome)

theorem exists_run_before (front : List Node) :
    ∃ others run, front = others ++ run ∧ (∀ node ∈ run, node.inline?.isSome = true) ∧
      ∀ node ∈ others.getLast?, node.inline? = none := by
  induction front using List.reverseRecOn with
  | nil => exact ⟨[], [], rfl, by simp, by simp⟩
  | append_singleton rest node ih =>
    obtain ⟨others, run, rfl, hrun, hothers⟩ := ih
    cases hnode : node.inline? with
    | none => exact ⟨others ++ run ++ [node], [], by simp, by simp, by simp [hnode]⟩
    | some piece =>
      refine ⟨others, run ++ [node], by simp, ?_, hothers⟩
      intro node' hnode'
      rcases List.mem_append.1 hnode' with hmem | hmem
      · exact hrun node' hmem
      · rw [List.mem_singleton.1 hmem, hnode]
        rfl

theorem exists_run_after (back : List Node) :
    ∃ run others, back = run ++ others ∧ (∀ node ∈ run, node.inline?.isSome = true) ∧
      (∀ node ∈ others.head?, node.inline? = none) ∧ run.isEmpty = !runsOn back := by
  induction back with
  | nil => exact ⟨[], [], rfl, by simp, by simp, rfl⟩
  | cons node rest ih =>
    obtain ⟨run, others, rfl, hrun, hothers, -⟩ := ih
    cases hnode : node.inline? with
    | none => exact ⟨[], node :: (run ++ others), rfl, by simp, by simp [hnode], by simp [runsOn, hnode]⟩
    | some piece =>
      refine ⟨node :: run, others, rfl, ?_, hothers, by simp [runsOn, hnode]⟩
      intro node' hnode'
      rcases List.mem_cons.1 hnode' with rfl | hmem
      · rw [hnode]
        rfl
      · exact hrun node' hmem

theorem getLast?_withDocs (indentWidth : Nat) {nodes : List Node}
    (h : ∀ node ∈ nodes.getLast?, node.inline? = none) :
    ∀ child ∈ (withDocs indentWidth nodes).getLast?, child.1.inline? = none := by
  intro child hchild
  rw [withDocs_eq_map, List.getLast?_map, Option.mem_def, Option.map_eq_some_iff] at hchild
  obtain ⟨node, hnode, rfl⟩ := hchild
  exact h node hnode

theorem head?_withDocs (indentWidth : Nat) {nodes : List Node}
    (h : ∀ node ∈ nodes.head?, node.inline? = none) :
    ∀ child ∈ (withDocs indentWidth nodes).head?, child.1.inline? = none := by
  intro child hchild
  rw [withDocs_eq_map, List.head?_map, Option.mem_def, Option.map_eq_some_iff] at hchild
  obtain ⟨node, hnode, rfl⟩ := hchild
  exact h node hnode

/-- The items of siblings around the run that holds one of them. -/
theorem group_around_run (indentWidth : Nat) {before run after : List Node} (hne : run ≠ [])
    (hrun : ∀ node ∈ run, node.inline?.isSome = true)
    (hbefore : ∀ node ∈ before.getLast?, node.inline? = none)
    (hafter : ∀ node ∈ after.head?, node.inline? = none) :
    Item.group (withDocs indentWidth (before ++ run ++ after)) =
      Item.group (withDocs indentWidth before) ++
        .run (run.filterMap Node.inline?) :: Item.group (withDocs indentWidth after) := by
  have hpieces : Item.group (withDocs indentWidth run) = [.run (run.filterMap Node.inline?)] := by
    rw [Item.group_of_inline]
    · rw [withDocs_eq_map, List.filterMap_map]
      rfl
    · rw [withDocs_eq_map]
      simpa using hne
    · intro child hchild
      rw [withDocs_eq_map] at hchild
      obtain ⟨node, hnode, rfl⟩ := List.mem_map.1 hchild
      exact hrun node hnode
  rw [List.append_assoc, withDocs_append, withDocs_append,
    Item.group_append_of_last (getLast?_withDocs indentWidth hbefore),
    Item.group_append (head?_withDocs indentWidth hafter), hpieces]
  rfl

theorem isEmpty_filterMap_inline? {nodes : List Node}
    (h : ∀ node ∈ nodes, node.inline?.isSome = true) :
    (nodes.filterMap Node.inline?).isEmpty = nodes.isEmpty := by
  cases nodes with
  | nil => rfl
  | cons node rest =>
    obtain ⟨piece, hpiece⟩ := Option.isSome_iff_exists.1 (h node List.mem_cons_self)
    rw [List.filterMap_cons, hpiece]
    rfl

/-- What the pieces of a run show is what is written for its nodes. -/
theorem visible_filterMap_inline? (nodes : List Node) (hregular : ∀ node ∈ nodes, node.Regular)
    (h : ∀ node ∈ nodes, node.inline?.isSome = true) :
    (nodes.filterMap Node.inline?).flatMap (fun piece => Text.visible piece.source) =
      Text.visible (serializeAll nodes) := by
  induction nodes with
  | nil => rfl
  | cons node rest ih =>
    obtain ⟨piece, hpiece⟩ := Option.isSome_iff_exists.1 (h node List.mem_cons_self)
    have hsource : Text.visible piece.source = Text.visible (serialize node) := by
      rcases inline?_eq_some hpiece with ⟨content, rfl, rfl⟩ | ⟨keyword, children, closed, rfl, hkind, rfl⟩
      · rfl
      · have hnil : children = [] :=
          ((everywhere_iff _).1 (hregular _ List.mem_cons_self).leafExpression).1
            (by simp [isCode, hkind])
        simp [serialize, serializeAll, hkind, hnil, Inline.source]
    rw [List.filterMap_cons, hpiece]
    dsimp only
    rw [List.flatMap_cons, serializeAll, Text.visible_append, hsource,
      ih (fun node hnode => hregular node (List.mem_cons_of_mem _ hnode))
        fun node hnode => h node (List.mem_cons_of_mem _ hnode)]

/-! ## Strokes of a text -/

section Strokes

open Doc (Strokes StrokesAll)

variable {indentWidth indent : Nat} {mode : LineMode} {ks : List Stroke} {front back : List Node}

/-- In the strokes of the children of a brace block, those of a text that is not blank stand behind
those of what is written before it. If the text is the last of its run, a line break follows it,
provided that it ends with a line comment; otherwise the next piece follows. -/
theorem strokes_text_of_sequence {content : Text}
    (hsiblings : ∀ node ∈ front ++ .text content :: back, node.Regular)
    (hcontent : Text.allBlank content = false)
    (h : Strokes indent mode (Item.sequenceDoc .block
      (Item.group (withDocs indentWidth (front ++ .text content :: back)))) ks) :
    ∃ atStart before own after, ks = before ++ own ++ after ∧
      Strokes indent mode (textDoc .block atStart (!runsOn back) content) own ∧
      before.flatMap Stroke.visible = Text.visible (serializeAll front) ∧
      (runsOn back = false → endsInLineComment content = true →
        after = [] ∨ ∃ more, after = .newLine indent :: more) ∧
      (∀ next ∈ back.head?, ∀ piece, next.inline? = some piece →
        ∃ atEnd drawn more, after = drawn ++ more ∧
          Strokes indent mode (piece.doc .block false atEnd) drawn) := by
  obtain ⟨others, run₁, rfl, hrun₁, hothers⟩ := exists_run_before front
  obtain ⟨run₂, rest, rfl, hrun₂, hrest, hends⟩ := exists_run_after back
  have hrun : ∀ node ∈ run₁ ++ .text content :: run₂, node.inline?.isSome = true := by
    intro node hnode
    rcases List.mem_append.1 hnode with hmem | hmem
    · exact hrun₁ node hmem
    · rcases List.mem_cons.1 hmem with rfl | hmem
      · rfl
      · exact hrun₂ node hmem
  have hitems := group_around_run indentWidth (by simp) hrun hothers hrest
  have hpieces : (run₁ ++ .text content :: run₂).filterMap Node.inline? =
      run₁.filterMap Node.inline? ++ .text content :: run₂.filterMap Node.inline? := by
    rw [List.filterMap_append, List.filterMap_cons]
    rfl
  rw [hpieces] at hitems
  have hlist : others ++ run₁ ++ .text content :: (run₂ ++ rest) =
      others ++ (run₁ ++ .text content :: run₂) ++ rest := by simp
  rw [hlist, Item.sequenceDoc, hitems, Item.laidOut_append,
    Item.laidOut_cons (Item.isNil_doc_run hcontent _ _), Doc.strokes_seq] at h
  obtain ⟨first, inner, last, rfl, hinner, hfirst, -, hlast⟩ := Item.strokesAll_separated _ h
  obtain ⟨atStart, drawn₁, own, drawn₂, rfl, hown, hdrawn₁, hdrawn₂⟩ :=
    Inline.strokes_runDoc_around hinner
  have hempty : (run₂.filterMap Node.inline?).isEmpty = !runsOn (run₂ ++ rest) :=
    (isEmpty_filterMap_inline? hrun₂).trans hends
  rw [hempty] at hown
  refine ⟨atStart, first ++ drawn₁, own, drawn₂ ++ last, by simp, hown, ?_, ?_, ?_⟩
  · rw [List.flatMap_append, hfirst, hdrawn₁,
      visible_laidOut_of_regular (fun node hnode => hsiblings node (by simp [hnode])) indentWidth,
      visible_filterMap_inline? run₁ (fun node hnode => hsiblings node (by simp [hnode])) hrun₁,
      serializeAll_append, Text.visible_append]
  · intro hon hcomment
    rw [hon, Bool.not_false, List.isEmpty_iff] at hempty
    rw [hempty] at hlast hdrawn₂
    rw [(Doc.strokesAll_nil drawn₂).1 hdrawn₂, List.nil_append]
    apply hlast
    intro next _
    cases next.1 with
    | run pieces => rfl
    | single node d => simp [Item.separator, Item.runEndsInComment, hcomment]
  · intro next hnext piece hpiece
    obtain ⟨nodes, rfl⟩ : ∃ nodes, run₂ = next :: nodes := by
      cases run₂ with
      | nil => rw [hrest next hnext] at hpiece; cases hpiece
      | cons node nodes => exact ⟨nodes, by rw [Option.mem_some.1 hnext]⟩
    rw [List.filterMap_cons, hpiece] at hdrawn₂
    dsimp only at hdrawn₂
    rw [Inline.docs, StrokesAll] at hdrawn₂
    obtain ⟨drawn, more, rfl, hdrawn, -⟩ := hdrawn₂
    exact ⟨_, drawn, more ++ last, by simp, hdrawn⟩

end Strokes

end Node

end RazorTidy
