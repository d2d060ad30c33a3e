import RazorTidy.Template

/-!
# The nodes of a template in source order

Reading a template loses, doubles and moves nothing but closing tokens and blank gaps. Both sides
are lists of nodes without their children: the forest in pre-order, and what the segments of the
template give one after the other (`Template.listing`). They are equal for every template
(`Template.preorderAll_parse`), however its tags and braces are nested.

A node is attached to its parent only when it closes, so during the reading part of the list lies in
the finished nodes of a scaffold and part in its open ones. `Scaffold.listed` reads both in source
order. Closing nodes leaves it as it is; a finished node or a new open one is added at its end.
-/

set_option autoImplicit false

namespace RazorTidy

/-! ## Pre-order -/

namespace Node

/-- The node without its children. -/
def shell : Node → Node
  | .markup name attributes _ selfClosing => .markup name attributes [] selfClosing
  | .code keyword _ selfClosing => .code keyword [] selfClosing
  | .text content => .text content
  | .comment content => .comment content

mutual
/-- A node and its descendants in source order, each without its children. -/
def preorder : Node → List Node
  | .markup name attributes children selfClosing =>
    .markup name attributes [] selfClosing :: preorderAll children
  | .code keyword children selfClosing => .code keyword [] selfClosing :: preorderAll children
  | .text content => [.text content]
  | .comment content => [.comment content]
/-- The nodes of a forest in source order, each without its children. -/
def preorderAll : List Node → List Node
  | [] => []
  | node :: rest => preorder node ++ preorderAll rest
end

attribute [local simp] preorder preorderAll in
theorem preorder_eq (node : Node) : node.preorder = node.shell :: preorderAll node.children := by
  cases node <;> simp [shell, children]

theorem preorderAll_eq_flatMap (nodes : List Node) :
    preorderAll nodes = nodes.flatMap preorder := by
  induction nodes with
  | nil => rfl
  | cons node rest ih => rw [preorderAll, ih, List.flatMap_cons]

theorem preorderAll_append (as bs : List Node) :
    preorderAll (as ++ bs) = preorderAll as ++ preorderAll bs := by
  simp only [preorderAll_eq_flatMap, List.flatMap_append]

theorem preorderAll_singleton (node : Node) : preorderAll [node] = node.preorder := by
  rw [preorderAll_eq_flatMap, List.flatMap_singleton]

theorem preorder_ne_nil (node : Node) : node.preorder ≠ [] := by
  rw [preorder_eq]
  exact List.cons_ne_nil _ _

/-- Only the empty forest has an empty listing. -/
theorem preorderAll_eq_nil_iff (nodes : List Node) : preorderAll nodes = [] ↔ nodes = [] := by
  constructor
  · intro h
    cases nodes with
    | nil => rfl
    | cons node rest =>
      rw [preorderAll, List.append_eq_nil_iff] at h
      exact absurd h.1 (preorder_ne_nil node)
  · rintro rfl
    rfl

/-- Whether a node can hold children: it is an element or code. -/
def isParent : Node → Bool
  | .markup _ _ _ _ => true
  | .code _ _ _ => true
  | .text _ => false
  | .comment _ => false

/-- A parent takes a further child, which comes last in its listing. -/
theorem exists_push?_of_isParent {node : Node} (h : node.isParent = true) (child : Node) :
    ∃ node', node.push? child = some node' ∧ node'.isParent = true ∧
      node'.preorder = node.preorder ++ child.preorder := by
  cases node with
  | markup name attributes children selfClosing =>
    refine ⟨_, rfl, rfl, ?_⟩
    simp only [preorder, preorderAll_append, preorderAll_singleton, List.cons_append]
  | code keyword children selfClosing =>
    refine ⟨_, rfl, rfl, ?_⟩
    simp only [preorder, preorderAll_append, preorderAll_singleton, List.cons_append]
  | text content => simp [isParent] at h
  | comment content => simp [isParent] at h

end Node

/-! ## Scaffolds -/

namespace Scaffold

/-- Every open node can hold children. -/
def OpenParents (s : Scaffold) : Prop := ∀ node ∈ s.stack, node.isParent = true

/-- What is built so far in source order: the finished nodes, then the open ones from the outermost
to the innermost, with the children they have. -/
def listed (s : Scaffold) : List Node :=
  Node.preorderAll s.root ++ Node.preorderAll s.stack.reverse

theorem openParents_empty : OpenParents empty := by
  intro node h
  cases h

theorem listed_mk_cons (root below : List Node) (top : Node) :
    listed ⟨root, top :: below⟩ = listed ⟨root, below⟩ ++ top.preorder := by
  simp only [listed, List.reverse_cons, Node.preorderAll_append, Node.preorderAll_singleton,
    List.append_assoc]

/-- A finished node is added at the end of the listing. -/
theorem attach_spec {s : Scaffold} (h : s.OpenParents) (node : Node) :
    (s.attach node).OpenParents ∧ (s.attach node).listed = s.listed ++ node.preorder ∧
      (s.attach node).depth = s.depth := by
  rcases s with ⟨root, stack⟩
  cases stack with
  | nil =>
    refine ⟨h, ?_, rfl⟩
    simp [attach, listed, Node.preorderAll_append, Node.preorderAll]
  | cons top below =>
    -- the node becomes the last child of the innermost open node, which is listed last
    obtain ⟨top', hpush, htop', hpre⟩ :=
      Node.exists_push?_of_isParent (h top List.mem_cons_self) node
    have e : attach node ⟨root, top :: below⟩ = ⟨root, top' :: below⟩ := by
      simp only [attach, hpush]
    rw [e]
    refine ⟨?_, ?_, rfl⟩
    · intro n hn
      rcases List.mem_cons.1 hn with rfl | hn
      · exact htop'
      · exact h n (List.mem_cons_of_mem _ hn)
    · rw [listed_mk_cons, listed_mk_cons, hpre, List.append_assoc]

/-- Closing the innermost open node leaves the listing as it is. -/
theorem closeTop_spec {s : Scaffold} (h : s.OpenParents) :
    s.closeTop.OpenParents ∧ s.closeTop.listed = s.listed ∧ s.closeTop.depth = s.depth - 1 := by
  rcases s with ⟨root, stack⟩
  cases stack with
  | nil => exact ⟨h, rfl, rfl⟩
  | cons top below =>
    -- closing moves the innermost node from the stack into the one below it; both end the listing
    have hbelow : OpenParents ⟨root, below⟩ := fun n hn => h n (List.mem_cons_of_mem _ hn)
    obtain ⟨hopen, hlisted, hdepth⟩ := attach_spec hbelow top
    refine ⟨hopen, ?_, hdepth⟩
    rw [listed_mk_cons]
    exact hlisted

theorem closeMany_spec (n : Nat) {s : Scaffold} (h : s.OpenParents) :
    (s.closeMany n).OpenParents ∧ (s.closeMany n).listed = s.listed ∧
      (s.closeMany n).depth = s.depth - n := by
  induction n generalizing s with
  | zero => exact ⟨h, rfl, rfl⟩
  | succ n ih =>
    obtain ⟨hopen, hlisted, hdepth⟩ := closeTop_spec h
    obtain ⟨hopen', hlisted', hdepth'⟩ := ih hopen
    refine ⟨hopen', hlisted'.trans hlisted, ?_⟩
    rw [closeMany, hdepth', hdepth]
    omega

theorem closeTag_spec (name : Text) {s : Scaffold} (h : s.OpenParents) :
    (s.closeTag name).OpenParents ∧ (s.closeTag name).listed = s.listed := by
  rw [closeTag]
  split
  · rename_i i _
    obtain ⟨hopen, hlisted, -⟩ := closeMany_spec (i + 1) h
    exact ⟨hopen, hlisted⟩
  · exact ⟨h, rfl⟩

theorem closeBrace_spec {s : Scaffold} (h : s.OpenParents) :
    s.closeBrace.OpenParents ∧ s.closeBrace.listed = s.listed := by
  rw [closeBrace]
  split
  · rename_i i _
    obtain ⟨hopen, hlisted, -⟩ := closeMany_spec (i + 1) h
    -- the directive around the block may close with it
    dsimp only
    split
    · obtain ⟨hopen', hlisted', -⟩ := closeTop_spec hopen
      exact ⟨hopen', hlisted'.trans hlisted⟩
    · exact ⟨hopen, hlisted⟩
  · exact ⟨h, rfl⟩

/-- Closing everything leaves the whole listing at the root. -/
theorem preorderAll_finish {s : Scaffold} (h : s.OpenParents) :
    Node.preorderAll s.finish = s.listed := by
  obtain ⟨-, hlisted, hdepth⟩ := closeMany_spec s.depth h
  have hstack : (s.closeMany s.depth).stack = [] := by
    rw [Nat.sub_self] at hdepth
    exact List.length_eq_zero_iff.1 hdepth
  rw [← hlisted, listed, hstack, finish]
  simp [Node.preorderAll]

end Scaffold

/-! ## Gaps and tokens -/

/-- The node that an event brings, if any. -/
def Event.node? : Event → Option Node
  | .start node => some node
  | .comment content => some (.comment content)
  | .closeTag _ => none
  | .closeBrace => none

namespace Template

/-- The node that a gap gives, if any: its text, or one space where only blanks separate two inline
expressions. -/
def gapNodes (gap : Text) (betweenExpressions : Bool) : List Node :=
  if !Text.allBlank gap then [.text gap]
  else if !gap.isEmpty && betweenExpressions then [.text [' ']]
  else []

/-- The node that a token gives: none if it closes an element or a brace block, else the one that it
starts. -/
def tokenNodes (extra : List Text) (token : Token) (beforeBlock : Bool) : List Node :=
  if token.kind = .closeTag ∨ token.kind = .braceClose then []
  else (Event.ofToken extra token beforeBlock).node?.toList

/-- The nodes that segments and the text after them give in source order, where `previous` is the
kind of the token before them. -/
def listing (extra : List Text) (previous : Option TokenKind) : List Segment → Text → List Node
  | [], tail => gapNodes tail false
  | ⟨gap, token⟩ :: rest, tail =>
    gapNodes gap (previous == some .expression && token.kind == .expression) ++
      tokenNodes extra token (startsBlock rest) ++ listing extra (some token.kind) rest tail

end Template

namespace Scaffold

theorem addGap_spec {s : Scaffold} (h : s.OpenParents) (gap : Text) (between : Bool) :
    (s.addGap gap between).OpenParents ∧
      (s.addGap gap between).listed = s.listed ++ Template.gapNodes gap between := by
  cases gap with
  | nil => exact ⟨h, (List.append_nil _).symm⟩
  | cons c r =>
    simp only [addGap, Template.gapNodes, List.isEmpty_cons, Bool.false_eq_true, if_false,
      Bool.not_false, Bool.true_and]
    split
    · obtain ⟨hopen, hlisted, -⟩ := attach_spec h (.text (c :: r))
      exact ⟨hopen, hlisted⟩
    · split
      · obtain ⟨hopen, hlisted, -⟩ := attach_spec h (.text [' '])
        exact ⟨hopen, hlisted⟩
      · exact ⟨h, (List.append_nil _).symm⟩

/-- A node that can hold children and has none yet is added at the end of the listing, finished or
open. -/
theorem add_spec {s : Scaffold} (h : s.OpenParents) {node : Node} (hnode : node.isParent = true)
    (hchildren : node.children = []) (finished : Bool) :
    (s.add node finished).OpenParents ∧ (s.add node finished).listed = s.listed ++ [node] := by
  -- without children a node is its own listing, so it may as well stay open
  have hpre : node.preorder = [node] := by
    cases node <;> simp_all [Node.preorder, Node.children, Node.preorderAll]
  cases finished with
  | true =>
    obtain ⟨hopen, hlisted, -⟩ := attach_spec h node
    rw [hpre] at hlisted
    exact ⟨hopen, hlisted⟩
  | false =>
    rcases s with ⟨root, stack⟩
    refine ⟨?_, ?_⟩
    · intro n hn
      rcases List.mem_cons.1 hn with rfl | hn
      · exact hnode
      · exact h n hn
    · rw [← hpre]
      exact listed_mk_cons root stack node

/-- A token adds its node at the end of the listing, and nothing if it closes something. -/
theorem apply_ofToken_spec {s : Scaffold} (h : s.OpenParents) (extra : List Text) (token : Token)
    (beforeBlock : Bool) :
    (s.apply (Event.ofToken extra token beforeBlock)).OpenParents ∧
      (s.apply (Event.ofToken extra token beforeBlock)).listed =
        s.listed ++ Template.tokenNodes extra token beforeBlock := by
  rcases token with ⟨kind, text⟩
  cases kind with
  | comment =>
    obtain ⟨hopen, hlisted, -⟩ := attach_spec h (.comment text)
    exact ⟨hopen, hlisted⟩
  | openTag => exact add_spec h rfl rfl _
  | closeTag =>
    obtain ⟨hopen, hlisted⟩ := closeTag_spec (tagName text) h
    exact ⟨hopen, hlisted.trans (List.append_nil _).symm⟩
  | voidTag => exact add_spec h rfl rfl _
  | braceOpen => exact add_spec h rfl rfl _
  | braceClose =>
    obtain ⟨hopen, hlisted⟩ := closeBrace_spec h
    exact ⟨hopen, hlisted.trans (List.append_nil _).symm⟩
  | directive => exact add_spec h rfl rfl _
  | expression => exact add_spec h rfl rfl _
  | continuation => exact add_spec h rfl rfl _

end Scaffold

/-! ## Templates -/

namespace Template

/-- The listing grows by what each segment gives, whatever is open before. -/
theorem build_spec (extra : List Text) (previous : Option TokenKind) (segments : List Segment)
    (tail : Text) {s : Scaffold} (h : s.OpenParents) :
    ((build extra previous segments s).addGap tail false).OpenParents ∧
      ((build extra previous segments s).addGap tail false).listed =
        s.listed ++ listing extra previous segments tail := by
  induction segments generalizing previous s with
  | nil => exact Scaffold.addGap_spec h tail false
  | cons segment rest ih =>
    rcases segment with ⟨gap, token⟩
    obtain ⟨hgap, hgapListed⟩ := Scaffold.addGap_spec h gap
      (previous == some .expression && token.kind == .expression)
    obtain ⟨htoken, htokenListed⟩ :=
      Scaffold.apply_ofToken_spec hgap extra token (startsBlock rest)
    obtain ⟨hrest, hrestListed⟩ := ih (some token.kind) htoken
    refine ⟨hrest, ?_⟩
    rw [build, hrestListed, htokenListed, hgapListed, listing, List.append_assoc,
      List.append_assoc, List.append_assoc]

/-- The listing of the forest of a template without a code section. -/
theorem preorderAll_parseBody (extra : List Text) (body : Text) :
    Node.preorderAll (parseBody extra body) =
      let cut := Segmentation.segment body
      let listed := listing extra none cut.segments cut.tail
      if listed.isEmpty && !body.isEmpty then
        [.text (if Text.allBlank body then [' '] else body)]
      else listed := by
  obtain ⟨hopen, hlisted⟩ := build_spec extra none (Segmentation.segment body).segments
    (Segmentation.segment body).tail Scaffold.openParents_empty
  rw [show Scaffold.empty.listed = [] from rfl, List.nil_append] at hlisted
  have hfinish := (Scaffold.preorderAll_finish hopen).trans hlisted
  simp only [parseBody]
  split
  · rename_i hnil
    rw [hnil] at hfinish
    rw [← hfinish]
    cases body <;> simp [Node.preorderAll, Node.preorder]
  · rename_i nodes hne
    rw [hfinish]
    -- the forest is not empty, so neither is its listing
    have hlisting : listing extra none (Segmentation.segment body).segments
        (Segmentation.segment body).tail ≠ [] := by
      intro hempty
      rw [hempty] at hfinish
      exact hne ((Node.preorderAll_eq_nil_iff _).1 hfinish)
    simp [hlisting]

/-- Reading a template keeps everything but closing tokens and blank gaps, in source order: its
forest in pre-order is what its gaps and tokens give one after the other, then the code section. A
template that would give nothing is one text. -/
theorem preorderAll_parse (extra : List Text) (source : Text) :
    Node.preorderAll (parse extra source) =
      let (body, codeSection) := CodeSection.split source
      let cut := Segmentation.segment body
      let listed := listing extra none cut.segments cut.tail
      (if listed.isEmpty && !body.isEmpty then
        [.text (if Text.allBlank body then [' '] else body)]
      else listed) ++ codeSection.toList.map Node.text := by
  rcases hsplit : CodeSection.split source with ⟨body, codeSection⟩
  have hsection : Node.preorderAll (codeSection.toList.map Node.text) =
      codeSection.toList.map Node.text := by
    cases codeSection <;> rfl
  simp only [parse, hsplit, Node.preorderAll_append, preorderAll_parseBody, hsection]

end Template

end RazorTidy
