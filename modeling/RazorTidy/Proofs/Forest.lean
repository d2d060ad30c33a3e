import RazorTidy.Template

/-!
# Properties of all nodes of a forest

A property of nodes holds everywhere in a forest if it holds of each node at any depth. For the
forest of a template this follows from what the tokens start and from what a further child does to
an open node (`Template.everywhere_parse`); how the tags and braces are nested does not matter.
-/

set_option autoImplicit false

namespace RazorTidy

namespace Node

/-- Induction over nodes: the children of a node are smaller than it. -/
@[elab_as_elim]
theorem induct {motive : Node → Prop}
    (markup : ∀ name attributes children selfClosing,
      (∀ child ∈ children, motive child) → motive (.markup name attributes children selfClosing))
    (code : ∀ keyword children selfClosing,
      (∀ child ∈ children, motive child) → motive (.code keyword children selfClosing))
    (text : ∀ content, motive (.text content))
    (comment : ∀ content, motive (.comment content)) :
    ∀ node, motive node
  | .markup name attributes children selfClosing =>
    markup name attributes children selfClosing fun child _ =>
      induct markup code text comment child
  | .code keyword children selfClosing =>
    code keyword children selfClosing fun child _ => induct markup code text comment child
  | .text content => text content
  | .comment content => comment content
termination_by node => sizeOf node
decreasing_by
  all_goals
    have hlt := List.sizeOf_lt_of_mem ‹child ∈ children›
    simp only [Node.markup.sizeOf_spec, Node.code.sizeOf_spec]
    omega

variable (P : Node → Prop)

mutual
/-- A property of a node and of all its descendants. -/
def Everywhere : Node → Prop
  | .markup name attributes children selfClosing =>
    P (.markup name attributes children selfClosing) ∧ EverywhereIn children
  | .code keyword children selfClosing =>
    P (.code keyword children selfClosing) ∧ EverywhereIn children
  | .text content => P (.text content)
  | .comment content => P (.comment content)
/-- A property of all nodes of a forest. -/
def EverywhereIn : List Node → Prop
  | [] => True
  | node :: rest => Everywhere node ∧ EverywhereIn rest
end

variable {P}

theorem everywhereIn_iff (nodes : List Node) :
    EverywhereIn P nodes ↔ ∀ node ∈ nodes, Everywhere P node := by
  induction nodes with
  | nil => simp [EverywhereIn]
  | cons node rest ih => simp [EverywhereIn, ih]

theorem everywhere_iff (node : Node) :
    Everywhere P node ↔ P node ∧ EverywhereIn P node.children := by
  cases node <;> simp [Everywhere, children, EverywhereIn]

theorem children_push? {node child node' : Node} (h : node.push? child = some node') :
    node'.children = node.children ++ [child] := by
  cases node <;> simp [push?] at h <;> rw [← h] <;> rfl

end Node

/-- A property `finished` of nodes and a property `opened` of nodes that are still open, such that
open nodes keep theirs with further children and have the other one once they close. -/
structure Growth (finished opened : Node → Prop) : Prop where
  text (content : Text) : finished (.text content)
  comment (content : Text) : finished (.comment content)
  close {node : Node} : opened node → finished node
  push {node child node' : Node} : opened node → node.push? child = some node' → opened node'

/-- Whether an event starts a node only with the property that its state asks for. -/
def Event.Starts (finished opened : Node → Prop) : Event → Prop
  | .start node => node.children = [] ∧ if node.isSelfClosing then finished node else opened node
  | _ => True

namespace Scaffold

variable {finished opened : Node → Prop}

/-- Everything built so far has the property that its state asks for. -/
def Holds (finished opened : Node → Prop) (s : Scaffold) : Prop :=
  Node.EverywhereIn finished s.root ∧
    ∀ node ∈ s.stack, opened node ∧ Node.EverywhereIn finished node.children

theorem holds_empty : Holds finished opened empty := by
  refine ⟨trivial, ?_⟩
  intro node h
  cases h

theorem Holds.attach (g : Growth finished opened) {s : Scaffold} (h : s.Holds finished opened)
    {node : Node} (hnode : Node.Everywhere finished node) :
    (s.attach node).Holds finished opened := by
  rcases s with ⟨root, stack⟩
  obtain ⟨hroot, hstack⟩ := h
  have hroot' : Node.EverywhereIn finished (root ++ [node]) := by
    rw [Node.everywhereIn_iff] at hroot ⊢
    intro n hn
    rcases List.mem_append.1 hn with hn | hn
    · exact hroot n hn
    · rw [List.mem_singleton.1 hn]
      exact hnode
  cases stack with
  | nil => exact ⟨hroot', hstack⟩
  | cons top below =>
    -- the innermost node takes the new one, or it goes to the root
    cases hpush : top.push? node with
    | some top' =>
      simp only [Scaffold.attach, hpush]
      refine ⟨hroot, ?_⟩
      intro n hn
      rcases List.mem_cons.1 hn with rfl | hn
      · obtain ⟨hopened, hchildren⟩ := hstack top List.mem_cons_self
        refine ⟨g.push hopened hpush, ?_⟩
        rw [Node.children_push? hpush]
        rw [Node.everywhereIn_iff] at hchildren ⊢
        intro c hc
        rcases List.mem_append.1 hc with hc | hc
        · exact hchildren c hc
        · rw [List.mem_singleton.1 hc]
          exact hnode
      · exact hstack n (List.mem_cons_of_mem _ hn)
    | none =>
      simp only [Scaffold.attach, hpush]
      exact ⟨hroot', hstack⟩

theorem Holds.closeTop (g : Growth finished opened) {s : Scaffold} (h : s.Holds finished opened) :
    s.closeTop.Holds finished opened := by
  rcases s with ⟨root, stack⟩
  cases stack with
  | nil => exact h
  | cons top below =>
    obtain ⟨hroot, hstack⟩ := h
    obtain ⟨hopened, hchildren⟩ := hstack top List.mem_cons_self
    have hbelow : Holds finished opened ⟨root, below⟩ :=
      ⟨hroot, fun n hn => hstack n (List.mem_cons_of_mem _ hn)⟩
    exact hbelow.attach g ((Node.everywhere_iff top).2 ⟨g.close hopened, hchildren⟩)

theorem Holds.closeMany (g : Growth finished opened) (n : Nat) {s : Scaffold}
    (h : s.Holds finished opened) : (s.closeMany n).Holds finished opened := by
  induction n generalizing s with
  | zero => exact h
  | succ n ih => exact ih (h.closeTop g)

theorem Holds.finish (g : Growth finished opened) {s : Scaffold} (h : s.Holds finished opened) :
    Node.EverywhereIn finished s.finish :=
  (h.closeMany g s.depth).1

theorem Holds.addGap (g : Growth finished opened) {s : Scaffold} (h : s.Holds finished opened)
    (gap : Text) (between : Bool) : (s.addGap gap between).Holds finished opened := by
  have htext : ∀ content, Node.Everywhere finished (.text content) := fun content =>
    (Node.everywhere_iff _).2 ⟨g.text content, trivial⟩
  rw [Scaffold.addGap]
  split
  · exact h
  split
  · exact h.attach g (htext gap)
  split
  · exact h.attach g (htext [' '])
  · exact h

/-- One event keeps the properties. -/
theorem Holds.apply (g : Growth finished opened) {s : Scaffold} (h : s.Holds finished opened)
    {event : Event} (hevent : event.Starts finished opened) :
    (s.apply event).Holds finished opened := by
  cases event with
  | start node =>
    obtain ⟨hchildren, hstate⟩ := hevent
    have hnone : Node.EverywhereIn finished node.children := by
      rw [hchildren]
      trivial
    rw [Scaffold.apply, add]
    split
    · rename_i hself
      rw [if_pos hself] at hstate
      exact h.attach g ((Node.everywhere_iff node).2 ⟨hstate, hnone⟩)
    · rename_i hself
      rw [if_neg hself] at hstate
      refine ⟨h.1, ?_⟩
      intro n hn
      rcases List.mem_cons.1 hn with rfl | hn
      · exact ⟨hstate, hnone⟩
      · exact h.2 n hn
  | comment content =>
    exact h.attach g ((Node.everywhere_iff _).2 ⟨g.comment content, trivial⟩)
  | closeTag name =>
    rw [Scaffold.apply, closeTag]
    split
    · exact h.closeMany g _
    · exact h
  | closeBrace =>
    rw [Scaffold.apply, closeBrace]
    split
    · dsimp only
      split
      · exact (h.closeMany g _).closeTop g
      · exact h.closeMany g _
    · exact h

end Scaffold

namespace Template

variable {finished opened : Node → Prop}

/-- A run over segments keeps the properties that each of their tokens respects. -/
theorem holds_build (g : Growth finished opened) (extra : List Text) (previous : Option TokenKind)
    (segments : List Segment)
    (hstarts : ∀ segment ∈ segments, ∀ beforeBlock,
      (Event.ofToken extra segment.token beforeBlock).Starts finished opened)
    {s : Scaffold} (h : s.Holds finished opened) :
    (build extra previous segments s).Holds finished opened := by
  induction segments generalizing previous s with
  | nil => exact h
  | cons segment rest ih =>
    rcases segment with ⟨gap, token⟩
    apply ih
    · exact fun segment hmem => hstarts segment (List.mem_cons_of_mem _ hmem)
    · exact (h.addGap g gap _).apply g (hstarts _ List.mem_cons_self (startsBlock rest))

/-- A property that the tokens of a template respect holds everywhere in its forest. -/
theorem everywhere_parse (g : Growth finished opened) (extra : List Text) (source : Text)
    (hstarts : ∀ token ∈ (Segmentation.segment (CodeSection.split source).1).tokens,
      ∀ beforeBlock, (Event.ofToken extra token beforeBlock).Starts finished opened) :
    Node.EverywhereIn finished (parse extra source) := by
  have htext : ∀ content, Node.Everywhere finished (.text content) := fun content =>
    (Node.everywhere_iff _).2 ⟨g.text content, trivial⟩
  have hbuild := (holds_build g extra none _
    (fun segment hmem => hstarts segment.token (List.mem_map_of_mem hmem))
    Scaffold.holds_empty).addGap g
      (Segmentation.segment (CodeSection.split source).1).tail false
  rw [parse, Node.everywhereIn_iff]
  intro node hnode
  rcases List.mem_append.1 hnode with hbody | hsection
  · rw [parseBody] at hbody
    -- a body without nodes gives one text, unless it is empty
    split at hbody
    · split at hbody
      · cases hbody
      · rw [List.mem_singleton.1 hbody]
        exact htext _
    · exact (Node.everywhereIn_iff _).1 (hbuild.finish g) node hbody
  · obtain ⟨content, -, rfl⟩ := List.mem_map.1 hsection
    exact htext content

end Template

end RazorTidy
