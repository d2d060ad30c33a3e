import RazorTidy.Proofs.Forest
import RazorTidy.Proofs.Reading

/-!
# Forests from their walks

A scaffold is built by moves: the text of a gap, a node that starts, the end of an element, the end
of a brace. Walking over a forest from left to right gives such moves, and performing them builds
the forest again (`Scaffold.performAll_walk`).

The end of an element or of a brace looks for its node among all that are open, and a brace takes
the directive around its block with it. In a walk each of them finds its own node innermost, because
what was started inside is closed by then. So a walk over a node attaches the node to any scaffold
(`Node.attaches_of_rebuildable`), with one condition: where the innermost open node is a directive,
the end of a block would close it too.
-/

set_option autoImplicit false

namespace RazorTidy

/-! ## Moves -/

/-- One change to a scaffold. -/
inductive Move where
  /-- The text between two tokens, with whether both are inline expressions. -/
  | gap (content : Text) (betweenExpressions : Bool)
  /-- A node, finished or open. -/
  | start (node : Node) (finished : Bool)
  /-- The end of the element of this name. -/
  | closeTag (name : Text)
  /-- The end of a brace block. -/
  | closeBrace
  deriving DecidableEq, Repr

namespace Scaffold

/-- The scaffold after a move. -/
def perform (s : Scaffold) : Move → Scaffold
  | .gap content betweenExpressions => s.addGap content betweenExpressions
  | .start node finished => s.add node finished
  | .closeTag name => s.closeTag name
  | .closeBrace => s.closeBrace

/-- The scaffold after moves one after the other. -/
def performAll (s : Scaffold) (moves : List Move) : Scaffold := moves.foldl perform s

theorem performAll_append (s : Scaffold) (as bs : List Move) :
    s.performAll (as ++ bs) = (s.performAll as).performAll bs := List.foldl_append

theorem performAll_cons (s : Scaffold) (move : Move) (moves : List Move) :
    s.performAll (move :: moves) = (s.perform move).performAll moves := rfl

end Scaffold

namespace Node

/-! ## Walks -/

/-- Whether a node is one that a walk builds again: a text is not blank or is one space, what closes
itself is empty, an inline expression closes itself, a brace block does not, and a directive that
does not has its brace block as its only child. -/
def rebuildable : Node → Bool
  | .markup _ _ children selfClosing => !selfClosing || children.isEmpty
  | .code keyword children selfClosing =>
    match CodeKind.ofKeyword keyword, selfClosing, children with
    | .block, false, _ => true
    | .directive, false, [child] => child.isCode .block
    | .directive, true, [] => true
    | .expression, true, [] => true
    | _, _, _ => false
  | .text content => !Text.allBlank content || content == [' ']
  | .comment _ => true

/-- A directive that stays open has one child, which is a brace block. -/
theorem exists_block_of_rebuildable {header : Text} {children : List Node}
    (hheader : CodeKind.ofKeyword header = .directive)
    (h : rebuildable (.code header children false) = true) :
    ∃ block, children = [block] ∧ block.isCode .block = true := by
  simp only [rebuildable, hheader] at h
  cases children with
  | nil => cases h
  | cons block rest =>
    cases rest with
    | nil => exact ⟨block, rfl, h⟩
    | cons next others => cases h

/-- A brace block stays open. -/
theorem exists_code_of_rebuildable {block : Node} (hblock : block.isCode .block = true)
    (h : block.rebuildable = true) :
    ∃ keyword children, block = .code keyword children false ∧
      CodeKind.ofKeyword keyword = .block := by
  cases block with
  | code keyword children selfClosing =>
    have hkeyword : CodeKind.ofKeyword keyword = .block := by simpa [isCode] using hblock
    cases selfClosing with
    | false => exact ⟨keyword, children, rfl, hkeyword⟩
    | true =>
      simp only [rebuildable, hkeyword] at h
      cases h
  | markup _ _ _ _ => cases hblock
  | text _ => cases hblock
  | comment _ => cases hblock

mutual
/-- Whether moves are a walk over a node. A text is a gap, and one space is a gap between
expressions. A comment and a node that closes itself are finished at once. Any other node is started
without its children, which follow, and an element is then closed by its name in any ASCII case, a
brace block by a brace; a directive is closed with its block. -/
def Walk : Node → List Move → Prop
  | .markup name attributes children true, moves =>
    moves = [.start (.markup name attributes children true) true]
  | .markup name attributes children false, moves =>
    ∃ inner closing, WalkAll children inner ∧ Text.sameName name closing = true ∧
      moves = .start (.markup name attributes [] false) false :: (inner ++ [.closeTag closing])
  | .code keyword children true, moves => moves = [.start (.code keyword children true) true]
  | .code keyword children false, moves =>
    ∃ inner, WalkAll children inner ∧
      moves = .start (.code keyword [] false) false ::
        (inner ++ if CodeKind.ofKeyword keyword = .block then [.closeBrace] else [])
  | .text content, moves =>
    ∃ between, moves = [.gap content between] ∧ (content = [' '] → between = true)
  | .comment content, moves => moves = [.start (.comment content) true]
/-- Whether moves are a walk over a forest. -/
def WalkAll : List Node → List Move → Prop
  | [], moves => moves = []
  | node :: rest, moves =>
    ∃ first others, moves = first ++ others ∧ Walk node first ∧ WalkAll rest others
end

attribute [local simp] Walk WalkAll in
/-- Nodes that all have walks have one together. -/
theorem exists_walkAll_of_forall {nodes : List Node}
    (h : ∀ node ∈ nodes, ∃ moves, node.Walk moves) : ∃ moves, WalkAll nodes moves := by
  induction nodes with
  | nil => simp
  | cons node rest ih =>
    obtain ⟨first, hfirst⟩ := h node List.mem_cons_self
    obtain ⟨others, hothers⟩ := ih fun n hn => h n (List.mem_cons_of_mem _ hn)
    exact ⟨first ++ others, first, others, rfl, hfirst, hothers⟩

theorem exists_walk (node : Node) : ∃ moves, node.Walk moves := by
  induction node using Node.induct with
  | markup name attributes children selfClosing ih =>
    obtain ⟨inner, hinner⟩ := exists_walkAll_of_forall ih
    cases selfClosing with
    | true => exact ⟨_, rfl⟩
    | false => exact ⟨_, inner, name, hinner, Text.sameName_refl name, rfl⟩
  | code keyword children selfClosing ih =>
    obtain ⟨inner, hinner⟩ := exists_walkAll_of_forall ih
    cases selfClosing with
    | true => exact ⟨_, rfl⟩
    | false => exact ⟨_, inner, hinner, rfl⟩
  | text content => exact ⟨_, true, rfl, fun _ => rfl⟩
  | comment content => exact ⟨_, rfl⟩

theorem exists_walkAll (nodes : List Node) : ∃ moves, WalkAll nodes moves :=
  exists_walkAll_of_forall fun node _ => exists_walk node

/-! ## Walks on a scaffold -/

/-- Whether a walk over a node attaches it to every scaffold whose innermost open node is not a
directive. -/
def Attaches (node : Node) : Prop :=
  ∀ (moves : List Move) (s : Scaffold), node.Walk moves → s.inDirective = false →
    s.performAll moves = s.attach node

section Performing

variable {moves : List Move} {children : List Node}

/-- A walk over a forest attaches its nodes one after the other. -/
theorem performAll_walkAll {nodes : List Node} (h : ∀ node ∈ nodes, node.Attaches)
    (hmoves : WalkAll nodes moves) {s : Scaffold} (hs : s.inDirective = false) :
    s.performAll moves = s.attachAll nodes := by
  induction nodes generalizing moves s with
  | nil =>
    rw [WalkAll] at hmoves
    rw [hmoves]
    rfl
  | cons node rest ih =>
    rw [WalkAll] at hmoves
    obtain ⟨first, others, rfl, hfirst, hothers⟩ := hmoves
    rw [Scaffold.performAll_append, h node List.mem_cons_self first s hfirst hs,
      ih (fun n hn => h n (List.mem_cons_of_mem _ hn)) hothers
        ((Scaffold.inDirective_attach node s).trans hs)]
    rfl

/-- A walk over the children of an open brace block gives them to the block. -/
theorem performAll_block {keyword : Text} (hkeyword : CodeKind.ofKeyword keyword = .block)
    (h : ∀ child ∈ children, child.Attaches) (hmoves : WalkAll children moves)
    (root below : List Node) :
    Scaffold.performAll ⟨root, .code keyword [] false :: below⟩ moves =
      ⟨root, .code keyword children false :: below⟩ := by
  rw [performAll_walkAll h hmoves, Scaffold.attachAll_code, List.nil_append]
  simp [Scaffold.inDirective, isCode, hkeyword]

/-- A text that is not blank is attached as it is, and so is one space between expressions. -/
theorem attaches_text {content : Text} (h : rebuildable (.text content) = true) :
    Attaches (.text content) := by
  intro moves s hmoves _
  rw [rebuildable, Bool.or_eq_true, Bool.not_eq_true', beq_iff_eq] at h
  rw [Walk] at hmoves
  obtain ⟨between, rfl, hbetween⟩ := hmoves
  rw [Scaffold.performAll_cons, Scaffold.perform]
  rcases h with hvisible | rfl
  · have hne : content.isEmpty = false := by
      cases content with
      | nil => cases hvisible
      | cons c r => rfl
    rw [Scaffold.addGap, hne, hvisible]
    rfl
  · rw [hbetween rfl]
    rfl

theorem attaches_comment (content : Text) : Attaches (.comment content) := by
  intro moves s hmoves _
  rw [Walk] at hmoves
  rw [hmoves]
  rfl

/-- The end of an element finds it innermost. -/
theorem attaches_element (name : Text) (attributes : AttributeMap)
    (h : ∀ child ∈ children, child.Attaches) :
    Attaches (.markup name attributes children false) := by
  intro moves s hmoves _
  rw [Walk] at hmoves
  obtain ⟨inner, closing, hinner, hclosing, rfl⟩ := hmoves
  have hopen : Scaffold.performAll ⟨s.root, .markup name attributes [] false :: s.stack⟩ inner =
      ⟨s.root, .markup name attributes children false :: s.stack⟩ := by
    rw [performAll_walkAll h hinner rfl, Scaffold.attachAll_markup, List.nil_append]
  rw [Scaffold.performAll_cons, Scaffold.performAll_append]
  show Scaffold.closeTag closing (Scaffold.performAll ⟨s.root, _ :: s.stack⟩ inner) = _
  rw [hopen, Scaffold.closeTag_sameName hclosing]

/-- The end of a brace block finds it innermost, and no directive around it. -/
theorem attaches_block {keyword : Text} (hkeyword : CodeKind.ofKeyword keyword = .block)
    (h : ∀ child ∈ children, child.Attaches) : Attaches (.code keyword children false) := by
  intro moves s hmoves hs
  rw [Walk, if_pos hkeyword] at hmoves
  obtain ⟨inner, hinner, rfl⟩ := hmoves
  rw [Scaffold.performAll_cons, Scaffold.performAll_append]
  show Scaffold.closeBrace (Scaffold.performAll ⟨s.root, _ :: s.stack⟩ inner) = _
  rw [performAll_block hkeyword h hinner, Scaffold.closeBrace_lone _ _ _ _ hkeyword hs]

/-- The end of the brace block of a directive closes both. -/
theorem attaches_directive {header keyword : Text}
    (hheader : CodeKind.ofKeyword header = .directive)
    (hkeyword : CodeKind.ofKeyword keyword = .block) (h : ∀ child ∈ children, child.Attaches) :
    Attaches (.code header [.code keyword children false] false) := by
  intro moves s hmoves _
  have hopen : CodeKind.ofKeyword header ≠ .block := by simp [hheader]
  rw [Walk, if_neg hopen] at hmoves
  obtain ⟨block, hblock, rfl⟩ := hmoves
  rw [WalkAll] at hblock
  obtain ⟨first, others, rfl, hfirst, hothers⟩ := hblock
  rw [WalkAll] at hothers
  rw [Walk, if_pos hkeyword] at hfirst
  obtain ⟨inner, hinner, rfl⟩ := hfirst
  rw [hothers, List.append_nil, List.append_nil, Scaffold.performAll_cons,
    Scaffold.performAll_cons, Scaffold.performAll_append]
  show Scaffold.closeBrace (Scaffold.performAll ⟨s.root, _ :: _ :: s.stack⟩ inner) = _
  rw [performAll_block hkeyword h hinner, Scaffold.closeBrace_block _ _ _ _ _ _ hkeyword hheader,
    List.nil_append]

/-- A walk over a rebuildable node attaches it. -/
theorem attaches_of_rebuildable (node : Node) (hnode : Everywhere (·.rebuildable) node) :
    node.Attaches ∧ ∀ child ∈ node.children, child.Attaches := by
  -- the children of a node are carried along, because a directive closes with its block
  induction node using Node.induct with
  | markup name attributes children selfClosing ih =>
    obtain ⟨hself, hall⟩ := hnode
    rw [everywhereIn_iff] at hall
    have hchildren : ∀ child ∈ children, child.Attaches := fun child hchild =>
      (ih child hchild (hall child hchild)).1
    refine ⟨?_, hchildren⟩
    cases selfClosing with
    | true =>
      intro moves s hmoves _
      rw [Walk] at hmoves
      rw [hmoves]
      rfl
    | false => exact attaches_element name attributes hchildren
  | code keyword children selfClosing ih =>
    obtain ⟨hcode, hall⟩ := hnode
    rw [everywhereIn_iff] at hall
    have hchildren : ∀ child ∈ children, child.Attaches := fun child hchild =>
      (ih child hchild (hall child hchild)).1
    refine ⟨?_, hchildren⟩
    cases selfClosing with
    | true =>
      intro moves s hmoves _
      rw [Walk] at hmoves
      rw [hmoves]
      rfl
    | false =>
      cases hkind : CodeKind.ofKeyword keyword with
      | block => exact attaches_block hkind hchildren
      | expression =>
        simp only [rebuildable, hkind] at hcode
        cases hcode
      | directive =>
        obtain ⟨block, rfl, hblock⟩ := exists_block_of_rebuildable hkind hcode
        have hwhole := hall block List.mem_cons_self
        obtain ⟨keyword', children', rfl, hkind'⟩ := exists_code_of_rebuildable hblock
          ((everywhere_iff block).1 hwhole).1
        exact attaches_directive hkind hkind' (ih _ List.mem_cons_self hwhole).2
  | text content => exact ⟨attaches_text hnode, fun _ hchild => by cases hchild⟩
  | comment content => exact ⟨attaches_comment content, fun _ hchild => by cases hchild⟩

end Performing

end Node

namespace Scaffold

/-- Every forest that can be built has a walk, and each of its walks builds it from nothing and
leaves nothing open. -/
theorem performAll_walk (forest : List Node)
    (h : Node.EverywhereIn (·.rebuildable) forest) :
    (∃ moves, Node.WalkAll forest moves) ∧
      ∀ moves, Node.WalkAll forest moves →
        (empty.performAll moves).depth = 0 ∧ (empty.performAll moves).finish = forest := by
  rw [Node.everywhereIn_iff] at h
  have hattaches : ∀ node ∈ forest, node.Attaches := fun node hnode =>
    (Node.attaches_of_rebuildable node (h node hnode)).1
  refine ⟨Node.exists_walkAll forest, fun moves hmoves => ?_⟩
  have hbuilt : empty.performAll moves = ⟨forest, []⟩ := by
    rw [Node.performAll_walkAll hattaches hmoves rfl, empty, attachAll_root, List.nil_append]
  rw [hbuilt]
  exact ⟨rfl, rfl⟩

end Scaffold

/-- An element and a directive's block around an element of the same name and another block, and two
expressions behind them. -/
def nestedForest : List Node :=
  [.markup "div".toList .empty
    [.code "@if (x)".toList
      [.code ['{']
        [.markup "div".toList .empty [.code ['@', '{'] [.text "go();".toList] false] false] false]
      false,
     .code "@a".toList [] true, .text [' '], .code "@b".toList [] true] false]

/-- A walk over `nestedForest` whose closing names are in capitals. -/
def nestedWalk : List Move :=
  [.start (.markup "div".toList .empty [] false) false,
   .start (.code "@if (x)".toList [] false) false,
   .start (.code ['{'] [] false) false,
   .start (.markup "div".toList .empty [] false) false,
   .start (.code ['@', '{'] [] false) false,
   .gap "go();".toList false, .closeBrace, .closeTag "Div".toList, .closeBrace,
   .start (.code "@a".toList [] true) true, .gap [' '] true,
   .start (.code "@b".toList [] true) true, .closeTag "DIV".toList]

theorem walkAll_nestedForest : Node.WalkAll nestedForest nestedWalk := by
  -- from the inside out: the block, the element around it, the directive, and all together
  have hblock : Node.WalkAll [.code ['@', '{'] [.text "go();".toList] false]
      [.start (.code ['@', '{'] [] false) false, .gap "go();".toList false, .closeBrace] :=
    ⟨_, [], rfl, ⟨[.gap "go();".toList false], ⟨_, [], rfl, ⟨false, rfl, by decide⟩, rfl⟩, rfl⟩,
      rfl⟩
  have helement := (show Node.WalkAll
      [.markup "div".toList .empty [.code ['@', '{'] [.text "go();".toList] false] false] _ from
    ⟨_, [], rfl, ⟨_, "Div".toList, hblock, by decide, rfl⟩, rfl⟩)
  have hdirective := (show Node.Walk (.code "@if (x)".toList [.code ['{'] _ false] false) _ from
    ⟨_, ⟨_, [], rfl, ⟨_, helement, rfl⟩, rfl⟩, rfl⟩)
  have hexpressions : Node.WalkAll
      [.code "@a".toList [] true, .text [' '], .code "@b".toList [] true]
      [.start (.code "@a".toList [] true) true, .gap [' '] true,
       .start (.code "@b".toList [] true) true] :=
    ⟨[_], _, rfl, rfl, [_], [_], rfl, ⟨true, rfl, fun _ => rfl⟩, [_], [], rfl, rfl, rfl⟩
  exact ⟨_, [], rfl, ⟨_, "DIV".toList, ⟨_, _, rfl, hdirective, hexpressions⟩, by decide, rfl⟩, rfl⟩

theorem performAll_walk_nestedForest :
    Node.EverywhereIn (·.rebuildable) nestedForest ∧ Node.WalkAll nestedForest nestedWalk ∧
      (Scaffold.empty.performAll nestedWalk).depth = 0 ∧
      (Scaffold.empty.performAll nestedWalk).finish = nestedForest := by
  have hforest : Node.EverywhereIn (·.rebuildable) nestedForest := by
    simp only [nestedForest, Node.EverywhereIn, Node.Everywhere]
    decide
  obtain ⟨-, hbuilt⟩ := Scaffold.performAll_walk nestedForest hforest
  exact ⟨hforest, walkAll_nestedForest, hbuilt nestedWalk walkAll_nestedForest⟩

end RazorTidy
