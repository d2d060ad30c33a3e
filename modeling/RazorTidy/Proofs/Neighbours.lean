import RazorTidy.Proofs.OpenModes
import RazorTidy.Proofs.OpenComments

/-!
# Neighbours in a forest

Two siblings without a node between them are printed next to each other, so for inline expressions
it matters where this happens. `Node.Neighbours` says of two nodes that they are such siblings, at a
place in source order.

A scaffold that closes completely gets a new pair only by attaching a node after the last one of the
innermost siblings (`Scaffold.neighbours_finish_attach`). So one segment of a template makes a new
pair of inline expressions only if its token is one, its gap gives no node and an inline expression
is last before it (`Scaffold.neighbours_segment_iff`), and one stays last only as long as tokens are
ignored (`Scaffold.last_apply_iff`).
-/

set_option autoImplicit false

namespace RazorTidy

/-- The ways to cut a list at one of its elements, by its last element. -/
theorem concat_eq_append_cons_iff {α : Type} {xs front back : List α} {x y : α} :
    xs ++ [x] = front ++ y :: back ↔
      (back = [] ∧ xs = front ∧ x = y) ∨
        ∃ back', back = back' ++ [x] ∧ xs = front ++ y :: back' := by
  constructor
  · intro heq
    rcases List.eq_nil_or_concat back with rfl | ⟨back', last, rfl⟩
    · obtain ⟨hxs, hx⟩ := List.append_inj' heq rfl
      exact .inl ⟨rfl, hxs, (List.cons.inj hx).1⟩
    · rw [List.concat_eq_append, ← List.cons_append, ← List.append_assoc] at heq
      obtain ⟨hxs, hx⟩ := List.append_inj' heq rfl
      rw [(List.cons.inj hx).1]
      exact .inr ⟨back', List.concat_eq_append, hxs⟩
  · rintro (⟨rfl, rfl, rfl⟩ | ⟨back', rfl, rfl⟩)
    · rfl
    · rw [List.append_assoc, List.cons_append]

/-! ## Pairs in a forest -/

namespace Node

/-- Two nodes of a forest that are siblings, the second right after the first, where `k` nodes come
before the first in source order. -/
inductive Neighbours : List Node → Nat → Node → Node → Prop
  | here (front : List Node) (first second : Node) (back : List Node) :
    Neighbours (front ++ first :: second :: back) (preorderAll front).length first second
  | inside (front : List Node) {node : Node} (back : List Node) {k : Nat} {first second : Node} :
    Neighbours node.children k first second →
      Neighbours (front ++ node :: back) ((preorderAll front).length + 1 + k) first second

variable {nodes : List Node} {node first second : Node} {k : Nat}

theorem not_neighbours_nil : ¬ Neighbours [] k first second := by
  generalize hnodes : ([] : List Node) = nodes
  intro h
  cases h with
  | here front first second back => simp at hnodes
  | inside front back _ => simp at hnodes

theorem Neighbours.concat (h : Neighbours nodes k first second) (node : Node) :
    Neighbours (nodes ++ [node]) k first second := by
  cases h with
  | here front first second back =>
    rw [List.append_assoc, List.cons_append, List.cons_append]
    exact .here front first second (back ++ [node])
  | inside front back hbelow =>
    rw [List.append_assoc, List.cons_append]
    exact .inside front (back ++ [node]) hbelow

/-- A further sibling makes one new pair, with the last one before it, and brings its own. -/
theorem neighbours_concat_iff :
    Neighbours (nodes ++ [node]) k first second ↔
      Neighbours nodes k first second ∨
        (nodes.getLast? = some first ∧ node = second ∧
          k + first.preorder.length = (preorderAll nodes).length) ∨
        ∃ k', Neighbours node.children k' first second ∧
          k = (preorderAll nodes).length + 1 + k' := by
  constructor
  · generalize hall : nodes ++ [node] = all
    intro h
    cases h with
    | here front first second back =>
      rcases concat_eq_append_cons_iff.1 hall with ⟨hback, -⟩ | ⟨back', hback, rfl⟩
      · cases hback
      · -- the pair may end the list
        cases back' with
        | nil =>
          rw [List.nil_append, List.cons.injEq] at hback
          refine .inr (.inl ⟨by simp, hback.1.symm, ?_⟩)
          rw [preorderAll_append, preorderAll_singleton, List.length_append]
        | cons other others =>
          obtain ⟨rfl, rfl⟩ := List.cons.inj hback
          exact .inl (.here front first second others)
    | inside front back hbelow =>
      rcases concat_eq_append_cons_iff.1 hall with ⟨-, rfl, rfl⟩ | ⟨back', -, rfl⟩
      · exact .inr (.inr ⟨_, hbelow, rfl⟩)
      · exact .inl (.inside front back' hbelow)
  · rintro (h | ⟨hlast, rfl, hk⟩ | ⟨k', h, rfl⟩)
    · exact h.concat node
    · obtain ⟨front, rfl⟩ := List.getLast?_eq_some_iff.1 hlast
      rw [preorderAll_append, preorderAll_singleton, List.length_append,
        Nat.add_right_cancel_iff] at hk
      rw [hk, List.append_assoc, List.singleton_append]
      exact .here front first node []
    · exact .inside nodes [] h

/-- A text is in no pair with an inline expression after it. -/
theorem neighbours_concat_text_iff (hsecond : second.isCode .expression = true) (content : Text) :
    Neighbours (nodes ++ [.text content]) k first second ↔ Neighbours nodes k first second := by
  have hne : Node.text content ≠ second := by
    rintro rfl
    cases hsecond
  rw [neighbours_concat_iff]
  simp [hne, children, not_neighbours_nil]

end Node

open Node (Neighbours)

/-- A token of code has the keyword of its kind. -/
def Token.Keyed (token : Token) : Prop :=
  ∀ codeKind, token.kind.codeKind? = some codeKind → CodeKind.ofKeyword token.text = codeKind

/-- A token starts a node without children, which is an inline expression if the token is one. -/
theorem Event.node?_ofToken {extra : List Text} {token : Token} {beforeBlock : Bool}
    (hkeyword : token.Keyed) {node : Node}
    (hnode : (Event.ofToken extra token beforeBlock).node? = some node) :
    node.children = [] ∧ (node.isCode .expression = true ↔ token.kind = .expression) := by
  rcases token with ⟨kind, text⟩
  have hcode : ∀ codeKind selfClosing, kind.codeKind? = some codeKind →
      ((Node.code text [] selfClosing).isCode .expression = true ↔ codeKind = .expression) := by
    intro codeKind selfClosing hkind
    rw [Node.isCode, beq_iff_eq, hkeyword codeKind hkind]
  cases kind with
  | closeTag => cases hnode
  | braceClose => cases hnode
  | comment => cases hnode; exact ⟨rfl, by simp [Node.isCode]⟩
  | openTag => cases hnode; exact ⟨rfl, by simp [Node.isCode, element]⟩
  | voidTag => cases hnode; exact ⟨rfl, by simp [Node.isCode, element]⟩
  | braceOpen => cases hnode; exact ⟨rfl, by simp [hcode .block false rfl]⟩
  | directive => cases hnode; exact ⟨rfl, by simp [hcode .directive _ rfl]⟩
  | continuation => cases hnode; exact ⟨rfl, by simp [hcode .directive _ rfl]⟩
  | expression => cases hnode; exact ⟨rfl, by simp [hcode .expression true rfl]⟩

/-! ## Pairs in a scaffold -/

namespace Scaffold

/-- Every open node can hold children, and none is an inline expression. -/
def OpenFrames (s : Scaffold) : Prop :=
  ∀ node ∈ s.stack, node.isParent = true ∧ node.isCode .expression = false

variable {s : Scaffold} {first second : Node} {k : Nat}

theorem OpenFrames.openParents (h : s.OpenFrames) : s.OpenParents :=
  fun node hnode => (h node hnode).1

/-- The children of the open nodes do not matter. -/
theorem OpenFrames.of_map_shell {s' : Scaffold} (h : s.OpenFrames)
    (hshell : ∀ shell ∈ s'.stack.map Node.shell, shell ∈ s.stack.map Node.shell) :
    s'.OpenFrames := by
  intro node hnode
  obtain ⟨node', hnode', heq⟩ := List.mem_map.1 (hshell _ (List.mem_map_of_mem hnode))
  have hparent : ∀ n : Node, n.shell.isParent = n.isParent := by
    intro n
    cases n <;> rfl
  have hcode : ∀ n : Node, n.shell.isCode .expression = n.isCode .expression := by
    intro n
    cases n <;> rfl
  rw [← hparent, ← hcode, ← heq, hparent, hcode]
  exact h node' hnode'

theorem OpenFrames.attachAll (h : s.OpenFrames) (nodes : List Node) :
    (s.attachAll nodes).OpenFrames := by
  induction nodes generalizing s with
  | nil => exact h
  | cons node rest ih =>
    apply ih
    apply h.of_map_shell
    rw [map_shell_attach]
    exact fun _ hmem => hmem

theorem OpenFrames.addGap (h : s.OpenFrames) (gap : Text) (between : Bool) :
    (s.addGap gap between).OpenFrames := by
  rw [addGap_eq_attachAll]
  exact h.attachAll _

theorem OpenFrames.closeMany (h : s.OpenFrames) (n : Nat) : (s.closeMany n).OpenFrames := by
  apply h.of_map_shell
  rw [map_shell_closeMany, List.map_drop]
  exact fun _ hmem => List.mem_of_mem_drop hmem

/-- Finished nodes go to the end of the innermost siblings. -/
theorem OpenParents.innermost_attach (h : s.OpenParents) (node : Node) :
    (s.attach node).innermost = s.innermost ++ [node] := by
  rcases s with ⟨root, _ | ⟨top, below⟩⟩
  · rfl
  · have htop := h top List.mem_cons_self
    cases top with
    | markup _ _ _ _ => rfl
    | code _ _ _ => rfl
    | text _ => cases htop
    | comment _ => cases htop

/-! ### Closing everything -/

theorem finish_closeTop (s : Scaffold) : s.closeTop.finish = s.finish := by
  rcases s with ⟨root, _ | ⟨top, below⟩⟩
  · rfl
  · rw [finish, depth_closeTop]
    rfl

theorem finish_closeMany (n : Nat) (s : Scaffold) : (s.closeMany n).finish = s.finish := by
  induction n generalizing s with
  | zero => rfl
  | succ n ih => rw [closeMany, ih, finish_closeTop]

/-- In the end it does not matter whether a node was open. -/
theorem finish_add (node : Node) (finished : Bool) (s : Scaffold) :
    (s.add node finished).finish = (s.attach node).finish := by
  cases finished with
  | true => rfl
  | false => exact (finish_closeTop ⟨s.root, node :: s.stack⟩).symm

/-- In the end an event has attached its node, if it brings one. -/
theorem finish_apply (event : Event) (s : Scaffold) :
    (s.apply event).finish = (s.attachAll event.node?.toList).finish := by
  cases event with
  | start node => exact finish_add node _ s
  | comment content => exact finish_add (.comment content) true s
  | closeTag name =>
    rw [apply, closeTag]
    split
    · exact finish_closeMany _ s
    · rfl
  | closeBrace =>
    rw [apply, closeBrace]
    split
    · dsimp only
      split
      · rw [finish_closeTop, finish_closeMany]
        rfl
      · exact finish_closeMany _ s
    · rfl

/-- Attaching a node makes one new pair, with the last one of the innermost siblings. -/
theorem neighbours_finish_attach (h : s.OpenFrames) (hsecond : second.isCode .expression = true)
    (node : Node) :
    Neighbours (s.attach node).finish k first second ↔
      Neighbours s.finish k first second ∨
        (s.innermost.getLast? = some first ∧ node = second ∧
          k + first.preorder.length = s.listed.length) ∨
        ∃ k', Neighbours node.children k' first second ∧ k = s.listed.length + 1 + k' := by
  rcases s with ⟨root, stack⟩
  induction stack generalizing node k with
  | nil =>
    rw [show listed ⟨root, []⟩ = Node.preorderAll root from List.append_nil _]
    exact Node.neighbours_concat_iff
  | cons top below ih =>
    have hbelow : OpenFrames ⟨root, below⟩ := fun n hn => h n (List.mem_cons_of_mem _ hn)
    obtain ⟨hparent, hexpression⟩ := h top List.mem_cons_self
    obtain ⟨top', hpush, -, -⟩ := Node.exists_push?_of_isParent hparent node
    have hattach : attach node ⟨root, top :: below⟩ = ⟨root, top' :: below⟩ := by
      simp only [attach, hpush]
    -- an open node closes at the end of the siblings below it, where it is no inline expression
    have hclose : ∀ n : Node, n.isCode .expression = false →
        (Neighbours (finish ⟨root, n :: below⟩) k first second ↔
          Neighbours (finish ⟨root, below⟩) k first second ∨
            ∃ k', Neighbours n.children k' first second ∧
              k = (listed ⟨root, below⟩).length + 1 + k') := by
      intro n hn
      have hne : n ≠ second := by
        rintro rfl
        rw [hsecond] at hn
        cases hn
      rw [← finish_closeTop]
      have hattached := @ih k n hbelow
      simp only [hne, false_and, and_false, false_or] at hattached
      exact hattached
    have hlength : (listed ⟨root, top :: below⟩).length =
        (listed ⟨root, below⟩).length + 1 + (Node.preorderAll top.children).length := by
      rw [listed_mk_cons, List.length_append, Node.preorder_eq, List.length_cons]
      omega
    rw [hattach, hclose top hexpression,
      hclose top' ((Node.isCode_push? hpush).trans hexpression), Node.children_push? hpush, hlength]
    simp only [Node.neighbours_concat_iff, innermost]
    constructor
    · rintro (hold | ⟨k', hold | ⟨hlast, hnode, hk⟩ | ⟨k'', hnode, rfl⟩, rfl⟩)
      · exact .inl (.inl hold)
      · exact .inl (.inr ⟨k', hold, rfl⟩)
      · exact .inr (.inl ⟨hlast, hnode, by omega⟩)
      · exact .inr (.inr ⟨k'', hnode, by omega⟩)
    · rintro ((hold | ⟨k', hold, rfl⟩) | ⟨hlast, hnode, hk⟩ | ⟨k'', hnode, rfl⟩)
      · exact .inl hold
      · exact .inr ⟨k', .inl hold, rfl⟩
      · obtain ⟨k', rfl⟩ : ∃ k', k = (listed ⟨root, below⟩).length + 1 + k' := by
          obtain ⟨front, hfront⟩ := List.getLast?_eq_some_iff.1 hlast
          rw [hfront, Node.preorderAll_append, Node.preorderAll_singleton,
            List.length_append] at hk
          exact ⟨(Node.preorderAll front).length, by omega⟩
        exact .inr ⟨k', .inr (.inl ⟨hlast, hnode, by omega⟩), rfl⟩
      · exact .inr ⟨_, .inr (.inr ⟨k'', hnode, rfl⟩), by omega⟩

/-! ### The last node -/

/-- Whether a token closes nothing here: it is the end of an element that is not open, or of a brace
block where none is open. -/
def Ignores (s : Scaffold) (token : Token) : Prop :=
  match token.kind with
  | .closeTag => ∀ node ∈ s.stack, node.isElement (tagName token.text) = false
  | .braceClose => ∀ node ∈ s.stack, node.isCode .block = false
  | _ => False

theorem Ignores.kind {token : Token} (h : s.Ignores token) :
    token.kind = .closeTag ∨ token.kind = .braceClose := by
  rcases token with ⟨kind, text⟩
  cases kind <;> simp_all [Ignores]

/-- A token that is ignored leaves the scaffold as it is. -/
theorem Ignores.apply_eq {token : Token} (h : s.Ignores token) (extra : List Text)
    (beforeBlock : Bool) : s.apply (Event.ofToken extra token beforeBlock) = s := by
  rcases token with ⟨kind, text⟩
  cases kind with
  | closeTag =>
    have hfind : s.stack.findIdx? (·.isElement (tagName text)) = none :=
      List.findIdx?_eq_none_iff.2 h
    show s.closeTag (tagName text) = s
    rw [closeTag, hfind]
  | braceClose =>
    have hfind : s.stack.findIdx? (·.isCode .block) = none := List.findIdx?_eq_none_iff.2 h
    show s.closeBrace = s
    rw [closeBrace, hfind]
  | _ => cases h

section Last

variable (hfirst : first.isCode .expression = true)
include hfirst

/-- A new node that is no inline expression is last, or its children are. -/
theorem not_last_add (h : s.OpenFrames) {node : Node} (hnode : node.isCode .expression = false)
    (hchildren : node.children = []) (finished : Bool) :
    (s.add node finished).innermost.getLast? ≠ some first := by
  cases finished with
  | true =>
    show (s.attach node).innermost.getLast? ≠ _
    rw [h.openParents.innermost_attach, List.getLast?_concat]
    intro heq
    rw [Option.some.inj heq, hfirst] at hnode
    cases hnode
  | false =>
    show node.children.getLast? ≠ _
    rw [hchildren]
    exact fun heq => by cases heq

/-- An open node that closes is last. -/
theorem not_last_closeMany (h : s.OpenFrames) {i : Nat} (hi : i < s.stack.length) :
    (s.closeMany (i + 1)).innermost.getLast? ≠ some first := by
  have hframes := h.closeMany i
  obtain ⟨-, -, hdepth⟩ := closeMany_spec i h.openParents
  rw [closeMany_succ]
  generalize s.closeMany i = s' at hframes hdepth
  rcases s' with ⟨root, _ | ⟨top, below⟩⟩
  · simp only [depth, List.length_nil] at hdepth
    omega
  · have hbelow : OpenFrames ⟨root, below⟩ := fun n hn => hframes n (List.mem_cons_of_mem _ hn)
    show (attach top ⟨root, below⟩).innermost.getLast? ≠ _
    rw [hbelow.openParents.innermost_attach, List.getLast?_concat]
    intro heq
    have htop := (hframes top List.mem_cons_self).2
    rw [Option.some.inj heq, hfirst] at htop
    cases htop

/-- After a token that is no inline expression, one is last only if the token was ignored. -/
theorem last_apply_iff (h : s.OpenFrames) (extra : List Text) {token : Token} (beforeBlock : Bool)
    (hkind : token.kind ≠ .expression)
    (hkeyword : token.Keyed) :
    (s.apply (Event.ofToken extra token beforeBlock)).innermost.getLast? = some first ↔
      s.innermost.getLast? = some first ∧ s.Ignores token := by
  constructor
  · intro hlast
    suffices hignores : s.Ignores token by
      rw [hignores.apply_eq] at hlast
      exact ⟨hlast, hignores⟩
    have hnode : ∀ node, (Event.ofToken extra token beforeBlock).node? = some node →
        node.isCode .expression = false := by
      intro node hnode
      rw [← Bool.not_eq_true, (Event.node?_ofToken hkeyword hnode).2]
      exact hkind
    rcases token with ⟨kind, text⟩
    cases kind with
    | expression => exact absurd rfl hkind
    | closeTag =>
      by_contra hopen
      obtain ⟨i, hfind⟩ := Option.ne_none_iff_exists'.1
        (mt List.findIdx?_eq_none_iff.1 hopen)
      obtain ⟨hi, -⟩ := List.findIdx?_eq_some_iff_getElem.1 hfind
      have hclose : s.closeTag (tagName text) = s.closeMany (i + 1) := by rw [closeTag, hfind]
      exact not_last_closeMany hfirst h hi (hclose ▸ hlast)
    | braceClose =>
      by_contra hopen
      obtain ⟨i, hfind⟩ := Option.ne_none_iff_exists'.1
        (mt List.findIdx?_eq_none_iff.1 hopen)
      obtain ⟨hi, -⟩ := List.findIdx?_eq_some_iff_getElem.1 hfind
      change s.closeBrace.innermost.getLast? = _ at hlast
      rw [closeBrace, hfind] at hlast
      dsimp only at hlast
      split at hlast
      · -- the directive that closes with its block was open too
        rename_i hhead
        rw [← closeMany_succ] at hlast
        refine not_last_closeMany hfirst h ?_ hlast
        obtain ⟨-, -, hdepth⟩ := closeMany_spec (i + 1) h.openParents
        rcases hstack : (s.closeMany (i + 1)).stack with _ | ⟨top, below⟩
        · rw [hstack] at hhead
          cases hhead
        · rw [depth, hstack, List.length_cons, depth] at hdepth
          omega
      · exact not_last_closeMany hfirst h hi hlast
    | comment => exact absurd hlast (not_last_add hfirst h rfl rfl true)
    | openTag => exact absurd hlast (not_last_add hfirst h rfl rfl _)
    | voidTag => exact absurd hlast (not_last_add hfirst h rfl rfl _)
    | braceOpen => exact absurd hlast (not_last_add hfirst h (hnode _ rfl) rfl _)
    | directive => exact absurd hlast (not_last_add hfirst h (hnode _ rfl) rfl _)
    | continuation => exact absurd hlast (not_last_add hfirst h (hnode _ rfl) rfl _)
  · rintro ⟨hlast, hignores⟩
    rw [hignores.apply_eq]
    exact hlast

/-- After a gap, an inline expression is last only if the gap gives no node. -/
theorem last_addGap_iff (h : s.OpenFrames) (gap : Text) (between : Bool) :
    (s.addGap gap between).innermost.getLast? = some first ↔
      s.innermost.getLast? = some first ∧ Template.gapNodes gap between = [] := by
  rw [addGap_eq_attachAll, Template.gapNodes]
  have htext : ∀ content, (s.attach (.text content)).innermost.getLast? ≠ some first := by
    intro content heq
    rw [h.openParents.innermost_attach, List.getLast?_concat] at heq
    rw [← Option.some.inj heq] at hfirst
    cases hfirst
  split
  · exact iff_of_false (htext gap) (fun hboth => List.cons_ne_nil _ _ hboth.2)
  split
  · exact iff_of_false (htext [' ']) (fun hboth => List.cons_ne_nil _ _ hboth.2)
  · simp [attachAll]

end Last

/-- The gap before a token makes no pair of inline expressions. -/
theorem neighbours_addGap_iff (h : s.OpenFrames) (hsecond : second.isCode .expression = true)
    (gap : Text) (between : Bool) :
    Neighbours (s.addGap gap between).finish k first second ↔
      Neighbours s.finish k first second := by
  have htext : ∀ content, Neighbours (s.attach (.text content)).finish k first second ↔
      Neighbours s.finish k first second := by
    intro content
    have hne : Node.text content ≠ second := by
      rintro rfl
      cases hsecond
    rw [neighbours_finish_attach h hsecond]
    simp [hne, Node.children, Node.not_neighbours_nil]
  rw [addGap_eq_attachAll, Template.gapNodes]
  split
  · exact htext gap
  split
  · exact htext [' ']
  · rfl

/-- One segment makes a new pair of inline expressions only if it is one itself, without a node for
its gap, and one is last before it. -/
theorem neighbours_segment_iff (h : s.OpenFrames) (hfirst : first.isCode .expression = true)
    (hsecond : second.isCode .expression = true) (extra : List Text) (gap : Text) (between : Bool)
    {token : Token} (beforeBlock : Bool)
    (hkeyword : token.Keyed) :
    Neighbours ((s.addGap gap between).apply (Event.ofToken extra token beforeBlock)).finish k
        first second ↔
      Neighbours s.finish k first second ∨
        (token.kind = .expression ∧ second = .code token.text [] true ∧
          Template.gapNodes gap between = [] ∧ s.innermost.getLast? = some first ∧
          k + first.preorder.length = s.listed.length) := by
  have hgap := @neighbours_addGap_iff s first second k h hsecond gap between
  rw [finish_apply]
  cases hnode : (Event.ofToken extra token beforeBlock).node? with
  | none =>
    -- a closing token attaches nothing
    have hkind : token.kind ≠ .expression := by
      intro hkind
      simp [Event.ofToken, hkind, Event.node?] at hnode
    simp only [Option.toList_none, hkind, false_and, or_false]
    exact hgap
  | some node =>
    obtain ⟨hchildren, hexpression⟩ := Event.node?_ofToken hkeyword hnode
    show Neighbours ((s.addGap gap between).attach node).finish k first second ↔ _
    rw [neighbours_finish_attach (h.addGap gap between) hsecond, hgap, hchildren,
      last_addGap_iff hfirst h]
    simp only [Node.not_neighbours_nil, false_and, exists_false, or_false]
    refine or_congr_right ?_
    constructor
    · rintro ⟨⟨hlast, hnil⟩, rfl, hk⟩
      have hkind : token.kind = .expression := hexpression.1 hsecond
      simp only [Event.ofToken, hkind, Event.node?, Option.some.injEq] at hnode
      rw [addGap_eq_attachAll, hnil] at hk
      exact ⟨hkind, hnode.symm, hnil, hlast, hk⟩
    · rintro ⟨hkind, rfl, hnil, hlast, hk⟩
      simp only [Event.ofToken, hkind, Event.node?, Option.some.injEq] at hnode
      refine ⟨⟨hlast, hnil⟩, hnode.symm, ?_⟩
      rw [addGap_eq_attachAll, hnil]
      exact hk

end Scaffold

end RazorTidy
