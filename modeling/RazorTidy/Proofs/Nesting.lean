import RazorTidy.Proofs.OneLine
import RazorTidy.Proofs.Placement
import Mathlib.Data.List.Forall2

/-!
# Nesting shown by indentation

An element, a comment and a directive each start a line of the formatted template, and the
indentation of this line says how many elements and brace blocks they stand in
(`Style.nesting_format`). Such a node is a landmark: it has a depth, a place in the plain
serialisation and a first text of its own.

A landmark is a node inside the forest (`Node.Regular.exists_inside_of_mem_landmarks`), and whatever
the width, its strokes start with its first text (`Node.Regular.strokes_first`), on a new line at the
indentation of its depth. The visible characters in front of this text are those that the
serialisation has in front of the landmark, so the landmark is found at this place and at no other,
and landmarks follow each other in the output as they do in the forest.
-/

set_option autoImplicit false

namespace RazorTidy

/-! ## First texts -/

/-- The first line of a text, without the blanks at its ends. -/
def Text.firstLine (s : Text) : Text := trim ((lines s).headD [])

/-- A text that starts visibly is laid out with its first line first. -/
theorem LineBlock.exists_normalize_cons {s : Text} (h : Text.StartsVisible s) :
    ∃ rest, normalize s = Text.firstLine s :: rest := by
  obtain ⟨c, r, rfl, hc⟩ := h
  obtain ⟨line, others, hlines⟩ := Text.exists_lines_cons hc r
  have hline : Text.allBlank (c :: line) = false := Text.allBlank_cons hc line
  have hfirst : Text.firstLine (c :: r) = Text.trim (c :: line) := by
    rw [Text.firstLine, hlines]
    rfl
  have hne : Text.trim (c :: line) ≠ [] := by
    rw [Ne, Text.trim_eq_nil_iff, hline]
    exact Bool.false_ne_true
  refine ⟨squeeze false (dedentAll (dropBlankEnd others)), ?_⟩
  rw [normalize, hlines, Text.dropBlankEnd_cons hline]
  dsimp only
  rw [hline, if_neg Bool.false_ne_true, squeeze_cons hne, hfirst]

theorem Text.firstLine_spec {s : Text} (h : StartsVisible s) :
    firstLine s ≠ [] ∧ (firstLine s).getLast? ≠ some ' ' := by
  obtain ⟨rest, hrest⟩ := LineBlock.exists_normalize_cons h
  have hclean := LineBlock.clean_normalize s
  rw [hrest] at hclean
  constructor
  · exact fun hnil => hclean.first (congrArg some hnil)
  · intro hspace
    exact absurd (isBlank_getLast?_trimEnd hspace) (by decide)

theorem strokes_blockDoc_first {s : Text} (h : Text.StartsVisible s) {indent : Nat}
    {mode : LineMode} {ks : List Stroke} (hks : Doc.Strokes indent mode (blockDoc s) ks) :
    ∃ more, ks = .put (Text.firstLine s) :: more := by
  obtain ⟨rest, hrest⟩ := LineBlock.exists_normalize_cons h
  rw [blockDoc, hrest] at hks
  exact Doc.strokes_ofLines_first (Text.firstLine_spec h).1 hks

/-- An opening tag is drawn from its name on, on one line or on several. -/
theorem strokes_headDoc_first {indentWidth : Nat} {name : Text} {attributes : AttributeMap}
    {selfClosing : Bool} {indent : Nat} {mode : LineMode} {ks : List Stroke}
    (hks : Doc.Strokes indent mode (headDoc indentWidth name attributes selfClosing) ks) :
    ∃ more, ks = .put ('<' :: name) :: more := by
  rw [headDoc_eq] at hks
  obtain ⟨mode', hks⟩ := Doc.strokes_grouped hks
  rw [Doc.strokes_seq, Doc.StrokesAll] at hks
  obtain ⟨first, more, rfl, hfirst, -⟩ := hks
  rw [Doc.strokes_ofText (List.cons_ne_nil _ _)] at hfirst
  exact ⟨more, by rw [hfirst]; rfl⟩

/-! ## Landmarks -/

/-- A node that starts a line of its own. -/
structure Landmark where
  /-- The number of elements and brace blocks around the node. -/
  depth : Nat
  /-- What the plain serialisation has in front of the node. -/
  before : Text
  /-- The first text of the node: its tag up to the name, or its first line. -/
  opening : Text
  deriving DecidableEq, Repr

namespace Node

mutual
/-- The elements, comments and directives of a node in pre-order, where `depth` elements and brace
blocks stand around the node and `before` is written in front of it. -/
def landmarks (depth : Nat) (before : Text) : Node → List Landmark
  | .markup name attributes children _ =>
    ⟨depth, before, '<' :: name⟩ ::
      landmarksAll (depth + 1) (before ++ openingTag name attributes) children
  | .code keyword children _ =>
    match CodeKind.ofKeyword keyword with
    | .block => landmarksAll (depth + 1) (before ++ keyword) children
    | .directive =>
      ⟨depth, before, Text.firstLine keyword⟩ :: landmarksAll depth (before ++ keyword) children
    | .expression => landmarksAll depth (before ++ keyword) children
  | .text _ => []
  | .comment content => [⟨depth, before, Text.firstLine content⟩]
/-- The elements, comments and directives of a forest in pre-order. -/
def landmarksAll (depth : Nat) (before : Text) : List Node → List Landmark
  | [] => []
  | node :: rest =>
    landmarks depth before node ++ landmarksAll depth (before ++ serialize node) rest
end

/-- The first text of a node that starts a line of its own. -/
def opening? : Node → Option Text
  | .markup name _ _ _ => some ('<' :: name)
  | .code keyword _ _ =>
    if CodeKind.ofKeyword keyword = .directive then some (Text.firstLine keyword) else none
  | .text _ => none
  | .comment content => some (Text.firstLine content)

theorem opening?_ne_none {node : Node} {s : Text} (h : node.opening? = some s) :
    node.inline? = none ∧ node.isCode .block = false := by
  cases node with
  | markup name attributes children selfClosing => exact ⟨rfl, rfl⟩
  | code keyword children selfClosing =>
    by_cases hkind : CodeKind.ofKeyword keyword = .directive
    · simp [inline?, isCode, hkind]
    · rw [opening?, if_neg hkind] at h
      cases h
  | text content => cases h
  | comment content => exact ⟨rfl, rfl⟩

/-- A landmark of a forest is one of a node in it, with the nodes before that node in front. -/
theorem exists_of_mem_landmarksAll {depth : Nat} {before : Text} {nodes : List Node}
    {mark : Landmark} (h : mark ∈ landmarksAll depth before nodes) :
    ∃ front node back, nodes = front ++ node :: back ∧
      mark ∈ landmarks depth (before ++ serializeAll front) node := by
  induction nodes generalizing before with
  | nil => cases h
  | cons node rest ih =>
    rw [landmarksAll, List.mem_append] at h
    rcases h with h | h
    · exact ⟨[], node, rest, rfl, by rwa [serializeAll, List.append_nil]⟩
    · obtain ⟨front, node', back, rfl, hmark⟩ := ih h
      refine ⟨node :: front, node', back, rfl, ?_⟩
      rwa [serializeAll, ← List.append_assoc]

/-- A landmark of a node is a node inside it. -/
theorem Regular.exists_inside_of_mem_landmarks {node : Node} (h : node.Regular) {depth : Nat}
    {before : Text} {mark : Landmark} (hmark : mark ∈ landmarks depth before node) :
    ∃ depth' before' inner, Inside node depth' before' inner ∧ mark.depth = depth + depth' ∧
      mark.before = before ++ before' ∧ inner.opening? = some mark.opening := by
  induction node using Node.induct generalizing depth before with
  | markup name attributes children selfClosing ih =>
    rw [landmarks, List.mem_cons] at hmark
    rcases hmark with rfl | hmark
    · exact ⟨0, [], _, .self _, rfl, (List.append_nil _).symm, rfl⟩
    · obtain ⟨-, hempty, -⟩ := ((everywhere_iff _).1 h.wellFormed).1
      obtain ⟨front, child, back, rfl, hchild⟩ := exists_of_mem_landmarksAll hmark
      obtain ⟨depth', before', inner, hinside, hdepth, hbefore, hopening⟩ :=
        ih child (by simp) (h.of_mem (by simp [Node.children])) hchild
      have hopen : selfClosing = false := by
        by_contra hclosed
        simpa using hempty (by simpa using hclosed)
      subst hopen
      exact ⟨_, _, inner, .element hinside, by omega, by simp [hbefore], hopening⟩
  | code keyword children selfClosing ih =>
    have hchildren : ∀ depth, mark ∈ landmarksAll depth (before ++ keyword) children →
        ∃ front child back depth' before' inner, children = front ++ child :: back ∧
          Inside child depth' before' inner ∧ mark.depth = depth + depth' ∧
          mark.before = before ++ (keyword ++ serializeAll front ++ before') ∧
          inner.opening? = some mark.opening := by
      intro depth hmark
      obtain ⟨front, child, back, rfl, hchild⟩ := exists_of_mem_landmarksAll hmark
      obtain ⟨depth', before', inner, hinside, hdepth, hbefore, hopening⟩ :=
        ih child (by simp) (h.of_mem (by simp [Node.children])) hchild
      exact ⟨front, child, back, depth', before', inner, rfl, hinside, hdepth, by simp [hbefore],
        hopening⟩
    cases hkind : CodeKind.ofKeyword keyword with
    | block =>
      rw [landmarks, hkind] at hmark
      obtain ⟨front, child, back, depth', before', inner, rfl, hinside, hdepth, hbefore, hopening⟩ :=
        hchildren _ hmark
      exact ⟨_, _, inner, .block hkind hinside, by omega, hbefore, hopening⟩
    | directive =>
      rw [landmarks, hkind, List.mem_cons] at hmark
      rcases hmark with rfl | hmark
      · exact ⟨0, [], _, .self _, rfl, (List.append_nil _).symm, by rw [opening?, if_pos hkind]⟩
      · obtain ⟨front, child, back, depth', before', inner, rfl, hinside, hdepth, hbefore, hopening⟩ :=
          hchildren _ hmark
        exact ⟨_, _, inner, .directive hkind hinside, hdepth, hbefore, hopening⟩
    | expression =>
      have hnil : children = [] := ((everywhere_iff _).1 h.leafExpression).1 (by simp [isCode, hkind])
      rw [landmarks, hkind, hnil] at hmark
      cases hmark
  | text content => cases hmark
  | comment content =>
    rw [landmarks, List.mem_singleton] at hmark
    subst hmark
    exact ⟨0, [], _, .self _, rfl, (List.append_nil _).symm, rfl⟩

end Node

/-! ## First strokes -/

/-- An element is drawn from the name in its opening tag on. -/
theorem strokes_elementDoc_first {indentWidth : Nat} {name : Text} {attributes : AttributeMap}
    {selfClosing : Bool} {children : List (Node × Doc)} {indent : Nat} {mode : LineMode}
    {ks : List Stroke}
    (hks : Doc.Strokes indent mode
      (elementDoc indentWidth name attributes selfClosing children) ks) :
    ∃ more, ks = .put ('<' :: name) :: more := by
  have hseq : ∀ ds : List Doc, Doc.Strokes indent mode
      (Doc.seq (headDoc indentWidth name attributes selfClosing :: ds)) ks →
      ∃ more, ks = .put ('<' :: name) :: more := by
    intro ds hds
    rw [Doc.strokes_seq, Doc.StrokesAll] at hds
    obtain ⟨head, rest, rfl, hhead, -⟩ := hds
    obtain ⟨more, rfl⟩ := strokes_headDoc_first hhead
    exact ⟨more ++ rest, rfl⟩
  unfold elementDoc at hks
  dsimp only at hks
  split at hks
  · exact strokes_headDoc_first hks
  · split at hks
    · exact hseq _ hks
    · split at hks
      · exact hseq _ hks
      · exact hseq _ hks

namespace Node

/-- A directive is drawn from the first line of its header on, whether a block follows or not. -/
theorem Regular.strokes_directive_first {indentWidth : Nat} {keyword : Text} {children : List Node}
    {selfClosing : Bool} (h : (Node.code keyword children selfClosing).Regular)
    (hkind : CodeKind.ofKeyword keyword = .directive) {indent : Nat} {mode : LineMode}
    {ks : List Stroke}
    (hks : Doc.Strokes indent mode (doc indentWidth (.code keyword children selfClosing)) ks) :
    ∃ more, ks = .put (Text.firstLine keyword) :: more := by
  have hvisible : Text.StartsVisible keyword := ((everywhere_iff _).1 h.printable).1
  rcases h.children_of_directive hkind with ⟨-, rfl⟩ | ⟨-, block, rfl, hblock⟩
  · rw [doc_of_directive_nil hkind] at hks
    exact strokes_blockDoc_first hvisible hks
  · obtain ⟨header, inner, rfl, hheader, -⟩ :=
      strokes_child_of_directive hkind (h.of_mem (by simp [Node.children])) hblock hks
    obtain ⟨more, rfl⟩ := strokes_blockDoc_first hvisible hheader
    exact ⟨_, rfl⟩

/-- A node that starts a line of its own is drawn from its first text on, which does not end with a
space. -/
theorem Regular.strokes_first {indentWidth : Nat} {node : Node} (h : node.Regular) {s : Text}
    (hopening : node.opening? = some s) {indent : Nat} {mode : LineMode} {ks : List Stroke}
    (hks : Doc.Strokes indent mode (doc indentWidth node) ks) :
    (∃ more, ks = .put s :: more) ∧ s ≠ [] ∧ s.getLast? ≠ some ' ' := by
  have hprintable := ((everywhere_iff _).1 h.printable).1
  cases node with
  | markup name attributes children selfClosing =>
    cases hopening
    obtain ⟨hname, -, -⟩ := ((everywhere_iff _).1 h.wellFormed).1
    rw [doc] at hks
    refine ⟨strokes_elementDoc_first hks, List.cons_ne_nil _ _, fun hlast => ?_⟩
    rcases List.mem_cons.1 (List.mem_of_getLast? hlast) with hc | hc
    · cases hc
    · exact absurd (hname _ hc) (by decide)
  | code keyword children selfClosing =>
    by_cases hkind : CodeKind.ofKeyword keyword = .directive
    · rw [opening?, if_pos hkind] at hopening
      cases hopening
      exact ⟨h.strokes_directive_first hkind hks, Text.firstLine_spec hprintable⟩
    · rw [opening?, if_neg hkind] at hopening
      cases hopening
  | text content => cases hopening
  | comment content =>
    cases hopening
    exact ⟨strokes_blockDoc_first hprintable hks, Text.firstLine_spec hprintable⟩

end Node

/-! ## The order of landmarks -/

/-- The number of visible characters of a text. -/
def Text.ink (s : Text) : Nat := (visible s).length

theorem Text.ink_append (s t : Text) : ink (s ++ t) = ink s + ink t := by
  rw [ink, visible_append, List.length_append]
  rfl

theorem Text.ink_le_of_isPrefix {s t : Text} (h : s <+: t) : ink s ≤ ink t := by
  obtain ⟨more, rfl⟩ := h
  rw [ink_append]
  exact Nat.le_add_right _ _

theorem Text.ink_pos {s : Text} (h : StartsVisible s) : 0 < ink s := by
  obtain ⟨c, r, rfl, hc⟩ := h
  simp [ink, visible, hc]

namespace Landmark

/-- The number of visible characters that are written in front of a landmark. -/
def place (mark : Landmark) : Nat := mark.before.ink

/-- Landmarks whose places increase, from `lo` on and below `hi`. -/
structure Ordered (marks : List Landmark) (lo hi : Nat) : Prop where
  increasing : marks.Pairwise fun mark next => mark.place < next.place
  inside : ∀ mark ∈ marks, lo ≤ mark.place ∧ mark.place < hi

namespace Ordered

variable {marks others : List Landmark} {lo mid hi : Nat}

theorem nil (lo hi : Nat) : Ordered [] lo hi where
  increasing := List.Pairwise.nil
  inside := fun _ hmark => by cases hmark

theorem mono (h : Ordered marks lo hi) {lo' hi' : Nat} (hlo : lo' ≤ lo) (hhi : hi ≤ hi') :
    Ordered marks lo' hi' where
  increasing := h.increasing
  inside := fun mark hmark => by
    have := h.inside mark hmark
    omega

theorem append (h : Ordered marks lo mid) (hothers : Ordered others mid hi) (hlo : lo ≤ mid)
    (hhi : mid ≤ hi) : Ordered (marks ++ others) lo hi where
  increasing := by
    refine List.pairwise_append.2 ⟨h.increasing, hothers.increasing, fun mark hmark next hnext => ?_⟩
    exact (h.inside mark hmark).2.trans_le (hothers.inside next hnext).1
  inside := fun mark hmark => by
    rcases List.mem_append.1 hmark with hmark | hmark
    · have := h.inside mark hmark
      omega
    · have := hothers.inside mark hmark
      omega

theorem singleton {mark : Landmark} (h : mark.place < hi) : Ordered [mark] mark.place hi where
  increasing := List.pairwise_singleton _ _
  inside := fun mark' hmark => by
    rw [List.mem_singleton.1 hmark]
    exact ⟨le_rfl, h⟩

end Ordered

end Landmark

namespace Node

theorem ordered_landmarksAll {nodes : List Node}
    (h : ∀ node ∈ nodes, ∀ depth before, Landmark.Ordered (landmarks depth before node)
      (Text.ink before) (Text.ink (before ++ serialize node)))
    (depth : Nat) (before : Text) :
    Landmark.Ordered (landmarksAll depth before nodes) (Text.ink before)
      (Text.ink (before ++ serializeAll nodes)) := by
  induction nodes generalizing before with
  | nil => exact Landmark.Ordered.nil _ _
  | cons node rest ih =>
    have hrest := ih (fun node hnode => h node (List.mem_cons_of_mem _ hnode))
      (before ++ serialize node)
    rw [List.append_assoc] at hrest
    rw [landmarksAll, serializeAll]
    refine (h node List.mem_cons_self depth before).append hrest ?_ ?_
    · simp only [Text.ink_append]
      omega
    · simp only [Text.ink_append]
      omega

/-- The landmarks of a node follow each other in the order in which the node is written. -/
theorem Regular.ordered_landmarks {node : Node} (h : node.Regular) (depth : Nat) (before : Text) :
    Landmark.Ordered (landmarks depth before node) (Text.ink before)
      (Text.ink (before ++ serialize node)) := by
  induction node using Node.induct generalizing depth before with
  | markup name attributes children selfClosing ih =>
    obtain ⟨-, hempty, -⟩ := ((everywhere_iff _).1 h.wellFormed).1
    have hchildren := ordered_landmarksAll (fun child hchild => ih child hchild (h.of_mem hchild))
      (depth + 1) (before ++ openingTag name attributes)
    have hopening : 0 < Text.ink (openingTag name attributes) :=
      Text.ink_pos ⟨'<', _, rfl, by decide⟩
    have hself : Landmark.Ordered [⟨depth, before, '<' :: name⟩] (Text.ink before)
        (Text.ink (before ++ openingTag name attributes)) := by
      apply Landmark.Ordered.singleton
      rw [Text.ink_append]
      exact Nat.lt_add_of_pos_right hopening
    rw [landmarks]
    refine (hself.append hchildren ?_ ?_).mono le_rfl ?_
    · exact Text.ink_le_of_isPrefix (List.prefix_append _ _)
    · exact Text.ink_le_of_isPrefix (List.prefix_append _ _)
    · cases selfClosing with
      | true =>
        rw [hempty rfl]
        simp only [serialize, serializeAll, openingTag, Text.ink_append, if_true, List.append_nil]
        split
        · omega
        · have : Text.ink ['>'] ≤ Text.ink ['/', '>'] := by decide
          omega
      | false =>
        simp only [serialize, openingTag, Text.ink_append, Bool.false_eq_true, if_false]
        omega
  | code keyword children selfClosing ih =>
    have hkeyword : 0 < Text.ink keyword := Text.ink_pos ((everywhere_iff _).1 h.printable).1
    have hchildren := fun depth =>
      ordered_landmarksAll (fun child hchild => ih child hchild (h.of_mem hchild)) depth
        (before ++ keyword)
    have hlo : Text.ink before ≤ Text.ink (before ++ keyword) :=
      Text.ink_le_of_isPrefix (List.prefix_append _ _)
    have hmid : Text.ink (before ++ keyword) ≤ Text.ink (before ++ keyword ++ serializeAll children) :=
      Text.ink_le_of_isPrefix (List.prefix_append _ _)
    have hhi : Text.ink (before ++ keyword ++ serializeAll children) ≤
        Text.ink (before ++ serialize (.code keyword children selfClosing)) := by
      simp only [serialize, Text.ink_append]
      omega
    rw [landmarks]
    split
    · exact (hchildren (depth + 1)).mono hlo hhi
    · have hself : Landmark.Ordered [⟨depth, before, Text.firstLine keyword⟩] (Text.ink before)
          (Text.ink (before ++ keyword)) := by
        apply Landmark.Ordered.singleton
        rw [Text.ink_append]
        exact Nat.lt_add_of_pos_right hkeyword
      exact (hself.append (hchildren depth) hlo hmid).mono le_rfl hhi
    · exact (hchildren depth).mono hlo hhi
  | text content => exact Landmark.Ordered.nil _ _
  | comment content =>
    rw [landmarks]
    apply Landmark.Ordered.singleton
    rw [serialize, Text.ink_append]
    exact Nat.lt_add_of_pos_right (Text.ink_pos ((everywhere_iff _).1 h.printable).1)

end Node

/-! ## Landmarks in a formatted template -/

namespace Landmark

/-- The first text of a landmark stands at a position of a text: between it and the line break before
it, or the start of the text, there is the indentation of its depth, and what stands before it shows
what is written in front of the landmark. -/
structure StandsAt (indentWidth : Nat) (printed : Text) (mark : Landmark) (position : Nat) : Prop where
  opening : mark.opening <+: printed.drop position
  line : ∃ lines, (lines = [] ∨ lines.getLast? = some '\n') ∧
    printed.take position = lines ++ List.replicate (mark.depth * indentWidth) ' '
  before : Text.visible (printed.take position) = Text.visible mark.before

/-- What is drawn at the start of a line stands on the page, whatever follows. -/
theorem exists_standsAt {indentWidth : Nat} {mark : Landmark} {lead : List Stroke}
    (hline : Page.StartsLine (mark.depth * indentWidth) lead)
    (hlead : lead.flatMap Stroke.visible = Text.visible mark.before) (hne : mark.opening ≠ [])
    (hlast : mark.opening.getLast? ≠ some ' ') (more : List Stroke) (rest : Text) :
    ∃ position, mark.StandsAt indentWidth
      ((Page.drawAll {} (lead ++ .put mark.opening :: more)).text ++ rest) position := by
  obtain ⟨lines, back, htext, hbreak, hlines⟩ := Page.text_drawAll_opening hline hne hlast more
  have hsplit : (Page.drawAll {} (lead ++ .put mark.opening :: more)).text ++ rest =
      (lines ++ List.replicate (mark.depth * indentWidth) ' ') ++ (mark.opening ++ (back ++ rest)) := by
    rw [htext]
    simp only [List.append_assoc]
  refine ⟨(lines ++ List.replicate (mark.depth * indentWidth) ' ').length, ?_, ?_, ?_⟩
  · rw [hsplit, List.drop_left]
    exact List.prefix_append _ _
  · rw [hsplit, List.take_left]
    exact ⟨lines, hbreak, rfl⟩
  · rw [hsplit, List.take_left, Text.visible_append, Text.visible_replicate_space, List.append_nil,
      hlines, hlead]

/-- Landmarks stand in a text in the order of their places. -/
theorem StandsAt.position_lt {indentWidth : Nat} {printed : Text} {mark next : Landmark}
    {position position' : Nat} (h : mark.StandsAt indentWidth printed position)
    (h' : next.StandsAt indentWidth printed position') (hplace : mark.place < next.place) :
    position < position' := by
  by_contra hle
  rw [Nat.not_lt] at hle
  have hink : Text.ink (printed.take position') ≤ Text.ink (printed.take position) :=
    Text.ink_le_of_isPrefix (List.take_prefix_take_left hle)
  rw [Text.ink, Text.ink, h.before, h'.before] at hink
  exact absurd hplace (Nat.not_lt.2 hink)

theorem exists_positions {indentWidth : Nat} {printed : Text} {marks : List Landmark}
    (hordered : marks.Pairwise fun mark next => mark.place < next.place)
    (hstands : ∀ mark ∈ marks, ∃ position, mark.StandsAt indentWidth printed position) :
    ∃ positions : List Nat, positions.Pairwise (· < ·) ∧
      List.Forall₂ (StandsAt indentWidth printed) marks positions := by
  choose! position hposition using hstands
  refine ⟨marks.map position, ?_, ?_⟩
  · rw [List.pairwise_map]
    refine hordered.imp_of_mem fun hmark hnext hplace => ?_
    exact (hposition _ hmark).position_lt (hposition _ hnext) hplace
  · rw [List.forall₂_map_right_iff, List.forall₂_same]
    exact hposition

end Landmark

/-- Every element, comment and directive of a template starts a line of the formatted template, which
is indented by the indentation width for each element and each brace block around it. They stand
there in the order in which they stand in the forest. -/
theorem Style.nesting_format (style : Style) (source : Text) :
    ∃ positions : List Nat, positions.Pairwise (· < ·) ∧
      List.Forall₂ (Landmark.StandsAt style.indentWidth (style.format source))
        (Node.landmarksAll 0 [] (style.parse source)) positions := by
  have hregular := style.regular_parse source
  apply Landmark.exists_positions
  · exact (Node.ordered_landmarksAll
      (fun node hnode => (hregular node hnode).ordered_landmarks) 0 []).increasing
  · intro mark hmark
    obtain ⟨front, node, back, hnodes, hlandmark⟩ := Node.exists_of_mem_landmarksAll hmark
    have hnode : node.Regular := hregular node (by rw [hnodes]; simp)
    obtain ⟨depth, before, inner, hinside, hdepth, hbefore, hopening⟩ :=
      hnode.exists_inside_of_mem_landmarks hlandmark
    rw [Nat.zero_add] at hdepth
    have hall : Node.InsideAll (style.parse source) mark.depth mark.before inner :=
      ⟨front, node, back, before, hnodes, hbefore, hdepth ▸ hinside⟩
    obtain ⟨hinline, hcode⟩ := Node.opening?_ne_none hopening
    obtain ⟨hinner, mode, lead, drawn, tail, rest, hformat, hdrawn, hlead, hline⟩ :=
      style.exists_strokes_inside hall hinline
    obtain ⟨⟨more, rfl⟩, hne, hlast⟩ := hinner.strokes_first hopening hdrawn
    rw [hformat, List.append_assoc, List.cons_append]
    exact Landmark.exists_standsAt (hline hcode) hlead hne hlast _ rest

example :
    (Node.landmarksAll 0 [] (Style.parse {} "<p>@if (x) \x7b <b/> \x7d</p>".toList)).map
        (fun mark => (mark.depth, mark.opening)) =
      [(0, "<p".toList), (1, "@if (x)".toList), (2, "<b".toList)] := by
  decide +kernel

end RazorTidy
