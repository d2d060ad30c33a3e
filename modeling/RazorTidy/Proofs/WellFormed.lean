import RazorTidy.Proofs.Forest
import RazorTidy.Proofs.Keyword
import RazorTidy.Proofs.Reading

/-!
# Well-formed forests

Every template is read as a well-formed forest (`Template.wellFormed_parse`), however its tags and
braces are nested: what closes itself is empty, a directive that stays open has one child, which is
its brace block, and a blank text is one space between two inline expressions.

A directive stays open because of the brace that comes next. So between the two tokens it is the
innermost open node, and from then on it stands right below its block until both close. `Stacked`
says this of the open nodes and `Scaffold.Sound` of a scaffold; closing an element or a block by
name keeps both together (`Scaffold.Sound.closeMany`). `Template.Ready` adds what the next token may
rely on.
-/

set_option autoImplicit false

namespace RazorTidy

namespace Node

/-- Among siblings, every blank text is one space directly between two inline expressions. -/
def Spaced (nodes : List Node) : Prop :=
  ∀ front content back, nodes = front ++ .text content :: back → Text.allBlank content = true →
    content = [' '] ∧ front.getLast?.any (isCode .expression) = true ∧
      back.head?.any (isCode .expression) = true

/-- What a node of a template looks like: names are without blanks, what closes itself is empty, an
inline expression closes itself, a brace block does not, and a directive that does not has its brace
block as its only child. -/
def WellFormed : Node → Prop
  | .markup name _ children selfClosing =>
    (∀ c ∈ name, Text.isBlank c = false) ∧ (selfClosing = true → children = []) ∧ Spaced children
  | .code keyword children selfClosing =>
    match CodeKind.ofKeyword keyword with
    | .expression => selfClosing = true ∧ children = []
    | .block => selfClosing = false ∧ Spaced children
    | .directive =>
      if selfClosing then children = []
      else ∃ block, children = [block] ∧ block.isCode .block = true
  | .text _ => True
  | .comment _ => True

/-- Siblings that are well formed with all that is below them. -/
structure Siblings (nodes : List Node) : Prop where
  spaced : Spaced nodes
  each : EverywhereIn WellFormed nodes

/-- Whether a node is a text of blanks only. -/
def isBlankText : Node → Bool
  | .text content => Text.allBlank content
  | _ => false

/-! ## Siblings one after the other -/

theorem siblings_nil : Siblings [] := by
  constructor
  · intro front content back heq
    simp at heq
  · trivial

/-- A node that is not a blank text may follow any siblings. -/
theorem Spaced.concat {nodes : List Node} (h : Spaced nodes) {node : Node}
    (hnode : node.isBlankText = false) : Spaced (nodes ++ [node]) := by
  intro front content back heq hblank
  rcases List.eq_nil_or_concat back with rfl | ⟨back', last, rfl⟩
  · -- the blank text would be the new node
    obtain ⟨-, hlast⟩ := List.append_inj' heq rfl
    rw [List.cons.injEq] at hlast
    rw [hlast.1, isBlankText, hblank] at hnode
    cases hnode
  · rw [List.concat_eq_append, ← List.cons_append, ← List.append_assoc] at heq
    obtain ⟨hnodes, -⟩ := List.append_inj' heq rfl
    obtain ⟨hspace, hfront, hback⟩ := h front content back' hnodes hblank
    refine ⟨hspace, hfront, ?_⟩
    -- an expression comes right after the text, so the new node does not
    cases back' with
    | nil => cases hback
    | cons next others => exact hback

/-- A space may stand between two inline expressions. -/
theorem Spaced.concat_space {nodes : List Node} (h : Spaced nodes)
    (hlast : nodes.getLast?.any (isCode .expression) = true) {node : Node}
    (hnode : node.isCode .expression = true) : Spaced (nodes ++ [.text [' '], node]) := by
  intro front content back heq hblank
  rcases List.eq_nil_or_concat back with rfl | ⟨back', last, rfl⟩
  · rw [show nodes ++ [.text [' '], node] = (nodes ++ [.text [' ']]) ++ [node] by simp] at heq
    obtain ⟨-, hlast'⟩ := List.append_inj' heq rfl
    rw [List.cons.injEq] at hlast'
    rw [hlast'.1] at hnode
    cases hnode
  rw [List.concat_eq_append] at heq ⊢
  rcases List.eq_nil_or_concat back' with rfl | ⟨back'', last', rfl⟩
  · -- the blank text is the new space
    rw [List.nil_append] at heq ⊢
    obtain ⟨rfl, hpair⟩ := List.append_inj' heq rfl
    simp only [List.cons.injEq, text.injEq, and_true] at hpair
    obtain ⟨rfl, rfl⟩ := hpair
    exact ⟨rfl, hlast, hnode⟩
  · rw [List.concat_eq_append, List.append_assoc, List.singleton_append, ← List.cons_append,
      ← List.append_assoc] at heq
    obtain ⟨hnodes, -⟩ := List.append_inj' heq rfl
    obtain ⟨hspace, hfront, hback⟩ := h front content back'' hnodes hblank
    refine ⟨hspace, hfront, ?_⟩
    cases back'' with
    | nil => cases hback
    | cons next others => exact hback

theorem Siblings.concat {nodes : List Node} (h : Siblings nodes) {node : Node}
    (hnode : Everywhere WellFormed node) (hblank : node.isBlankText = false) :
    Siblings (nodes ++ [node]) := by
  constructor
  · exact h.spaced.concat hblank
  · rw [everywhereIn_iff]
    intro n hn
    rcases List.mem_append.1 hn with hn | hn
    · exact (everywhereIn_iff nodes).1 h.each n hn
    · rw [List.mem_singleton.1 hn]
      exact hnode

theorem Siblings.concat_space {nodes : List Node} (h : Siblings nodes)
    (hlast : nodes.getLast?.any (isCode .expression) = true) {node : Node}
    (hnode : Everywhere WellFormed node) (hexpression : node.isCode .expression = true) :
    Siblings (nodes ++ [.text [' '], node]) := by
  constructor
  · exact h.spaced.concat_space hlast hexpression
  · rw [everywhereIn_iff]
    intro n hn
    rcases List.mem_append.1 hn with hn | hn
    · exact (everywhereIn_iff nodes).1 h.each n hn
    · simp only [List.mem_cons, List.not_mem_nil, or_false] at hn
      rcases hn with rfl | rfl
      · trivial
      · exact hnode

/-! ## Nodes that close -/

theorem everywhere_element {name : Text} (hname : ∀ c ∈ name, Text.isBlank c = false)
    (attributes : AttributeMap) {children : List Node} (h : Siblings children) :
    Everywhere WellFormed (.markup name attributes children false) := by
  refine ⟨⟨hname, ?_, h.spaced⟩, h.each⟩
  intro hself
  cases hself

theorem everywhere_block {keyword : Text} (hkeyword : CodeKind.ofKeyword keyword = .block)
    {children : List Node} (h : Siblings children) :
    Everywhere WellFormed (.code keyword children false) := by
  refine ⟨?_, h.each⟩
  simp only [WellFormed, hkeyword, true_and]
  exact h.spaced

theorem everywhere_directive {header : Text} (hheader : CodeKind.ofKeyword header = .directive)
    {block : Node} (hblock : block.isCode .block = true) (h : Everywhere WellFormed block) :
    Everywhere WellFormed (.code header [block] false) := by
  refine ⟨?_, h, trivial⟩
  simp only [WellFormed, hheader, Bool.false_eq_true, if_false]
  exact ⟨block, rfl, hblock⟩

end Node

open Node (Siblings)

/-! ## Open nodes -/

/-- The open nodes, innermost first, between two tokens that do not belong together: elements and
brace blocks, and a directive only right below the block it owns. -/
inductive Stacked : List Node → Prop
  | nil : Stacked []
  /-- An element. -/
  | element {name : Text} {attributes : AttributeMap} {children below : List Node} :
    (∀ c ∈ name, Text.isBlank c = false) → Siblings children → Stacked below →
      Stacked (.markup name attributes children false :: below)
  /-- A brace block without a directive. -/
  | block {keyword : Text} {children below : List Node} :
    CodeKind.ofKeyword keyword = .block → Siblings children → Stacked below →
      Stacked (.code keyword children false :: below)
  /-- A brace block and the directive that owns it. -/
  | owned {keyword header : Text} {children below : List Node} :
    CodeKind.ofKeyword keyword = .block → CodeKind.ofKeyword header = .directive →
      Siblings children → Stacked below →
        Stacked (.code keyword children false :: .code header [] false :: below)

namespace Scaffold

/-- The nodes that a finished node would be attached to: the children of the innermost open node, or
the root. -/
def innermost (s : Scaffold) : List Node :=
  match s.stack with
  | [] => s.root
  | top :: _ => top.children

/-- What is built so far is well formed, and what is open is in order. -/
structure Sound (s : Scaffold) : Prop where
  root : Siblings s.root
  stack : Stacked s.stack

theorem sound_empty : Sound empty := ⟨Node.siblings_nil, .nil⟩

theorem Sound.siblings_innermost {s : Scaffold} (h : s.Sound) : Siblings s.innermost := by
  rcases s with ⟨root, stack⟩
  obtain ⟨hroot, hstack⟩ := h
  cases hstack with
  | nil => exact hroot
  | element _ hchildren _ => exact hchildren
  | block _ hchildren _ => exact hchildren
  | owned _ _ hchildren _ => exact hchildren

/-- No directive is innermost. -/
theorem Sound.inDirective_eq {s : Scaffold} (h : s.Sound) : s.inDirective = false := by
  rcases s with ⟨root, stack⟩
  obtain ⟨-, hstack⟩ := h
  cases hstack with
  | nil => rfl
  | element _ _ _ => rfl
  | block hkeyword _ _ => simp [inDirective, Node.isCode, hkeyword]
  | owned hkeyword _ _ _ => simp [inDirective, Node.isCode, hkeyword]

/-- Finished nodes go to the end of the innermost siblings. -/
theorem Sound.attachAll {s : Scaffold} (h : s.Sound) {nodes : List Node}
    (hnodes : Siblings (s.innermost ++ nodes)) :
    (s.attachAll nodes).Sound ∧ (s.attachAll nodes).innermost = s.innermost ++ nodes := by
  rcases s with ⟨root, stack⟩
  obtain ⟨hroot, hstack⟩ := h
  cases hstack with
  | nil =>
    rw [attachAll_root]
    exact ⟨⟨hnodes, .nil⟩, rfl⟩
  | element hname _ hbelow =>
    rw [attachAll_markup]
    exact ⟨⟨hroot, .element hname hnodes hbelow⟩, rfl⟩
  | block hkeyword _ hbelow =>
    rw [attachAll_code]
    exact ⟨⟨hroot, .block hkeyword hnodes hbelow⟩, rfl⟩
  | owned hkeyword hheader _ hbelow =>
    rw [attachAll_code]
    exact ⟨⟨hroot, .owned hkeyword hheader hnodes hbelow⟩, rfl⟩

theorem Sound.attach {s : Scaffold} (h : s.Sound) {node : Node}
    (hnode : Node.Everywhere Node.WellFormed node) (hblank : node.isBlankText = false) :
    (s.attach node).Sound ∧ (s.attach node).innermost = s.innermost ++ [node] := by
  have hsiblings : Siblings (s.innermost ++ [node]) := h.siblings_innermost.concat hnode hblank
  exact h.attachAll hsiblings

/-! ## Closing -/

/-- Closing the innermost open node leaves a sound scaffold, unless it is the block of a directive;
then the directive has to close too. -/
theorem Sound.closeTop_cases {root below : List Node} {top : Node}
    (h : Sound ⟨root, top :: below⟩) :
    Sound (closeTop ⟨root, top :: below⟩) ∨
      ∃ header below', below = .code header [] false :: below' ∧
        CodeKind.ofKeyword header = .directive ∧ top.isCode .block = true ∧
          Sound (closeTop (closeTop ⟨root, top :: below⟩)) := by
  obtain ⟨hroot, hstack⟩ := h
  cases hstack with
  | element hname hchildren hbelow =>
    refine Or.inl ?_
    have hunder : Sound ⟨root, below⟩ := ⟨hroot, hbelow⟩
    exact (hunder.attach (Node.everywhere_element hname _ hchildren) rfl).1
  | block hkeyword hchildren hbelow =>
    refine Or.inl ?_
    have hunder : Sound ⟨root, below⟩ := ⟨hroot, hbelow⟩
    exact (hunder.attach (Node.everywhere_block hkeyword hchildren) rfl).1
  | @owned keyword header children below' hkeyword hheader hchildren hbelow =>
    have hblock : (Node.code keyword children false).isCode .block = true := by
      simp [Node.isCode, hkeyword]
    refine Or.inr ⟨header, below', rfl, hheader, hblock, ?_⟩
    -- the block becomes the only child of the directive, and the directive closes
    have hunder : Sound ⟨root, below'⟩ := ⟨hroot, hbelow⟩
    exact (hunder.attach (Node.everywhere_directive hheader hblock
      (Node.everywhere_block hkeyword hchildren)) rfl).1

theorem map_shell_attach (node : Node) (s : Scaffold) :
    (s.attach node).stack.map Node.shell = s.stack.map Node.shell := by
  rcases s with ⟨root, _ | ⟨top, below⟩⟩
  · rfl
  · cases top <;> rfl

/-- Closing the innermost open node changes only the children of the node around it. -/
theorem map_shell_closeTop (root below : List Node) (top : Node) :
    (closeTop ⟨root, top :: below⟩).stack.map Node.shell = below.map Node.shell :=
  map_shell_attach top ⟨root, below⟩

theorem closeMany_succ (n : Nat) (s : Scaffold) :
    s.closeMany (n + 1) = (s.closeMany n).closeTop := by
  induction n generalizing s with
  | zero => rfl
  | succ n ih => exact ih s.closeTop

section Search

variable {p : Node → Bool}

/-- The children of the open nodes do not matter for a search among them. -/
theorem findIdx?_of_map_shell (hshell : ∀ node : Node, p node.shell = p node)
    {stack stack' : List Node} (h : stack.map Node.shell = stack'.map Node.shell) :
    stack.findIdx? p = stack'.findIdx? p := by
  have hp : p ∘ Node.shell = p := funext hshell
  have hmap := congrArg (List.findIdx? p) h
  rwa [List.findIdx?_map, List.findIdx?_map, hp] at hmap

/-- Closing everything inside the innermost open node of a sort that no directive is of leaves a
sound scaffold with this node innermost. -/
theorem Sound.closeMany (hshell : ∀ node : Node, p node.shell = p node)
    (hdirective : ∀ node : Node, node.isCode .directive = true → p node = false) (i : Nat) :
    ∀ s : Scaffold, s.Sound → s.stack.findIdx? p = some i →
      (s.closeMany i).Sound ∧ (s.closeMany i).stack.head?.any p = true := by
  -- a directive goes with its block, so the induction takes one open node or two at a time
  induction i using Nat.strongRecOn with
  | _ i ih =>
    rintro ⟨root, stack⟩ h hfind
    cases stack with
    | nil => cases hfind
    | cons top below =>
      rw [List.findIdx?_cons] at hfind
      split at hfind
      · rename_i htop
        cases hfind
        exact ⟨h, htop⟩
      obtain ⟨j, hj, rfl⟩ := Option.map_eq_some_iff.1 hfind
      rcases h.closeTop_cases with hclosed | ⟨header, below', rfl, hheader, -, hclosed⟩
      · apply ih j (Nat.lt_succ_self j) _ hclosed
        rw [findIdx?_of_map_shell hshell (map_shell_closeTop root below top)]
        exact hj
      · have hnot : p (.code header [] false) = false :=
          hdirective _ (by simp [Node.isCode, hheader])
        rw [List.findIdx?_cons, hnot] at hj
        obtain ⟨k, hk, rfl⟩ := Option.map_eq_some_iff.1 hj
        apply ih k (by omega) _ hclosed
        rw [← hk]
        apply findIdx?_of_map_shell hshell
        cases top <;> exact map_shell_closeTop root below' _

end Search

/-- The end of an element keeps a scaffold sound. -/
theorem Sound.closeTag {s : Scaffold} (h : s.Sound) (name : Text) : (s.closeTag name).Sound := by
  rw [Scaffold.closeTag]
  split
  · rename_i i hfind
    obtain ⟨hsound, hhead⟩ := Sound.closeMany (p := (·.isElement name))
      (fun node => by cases node <;> rfl)
      (fun node hnode => by cases node <;> first | rfl | cases hnode) i s h hfind
    rw [closeMany_succ]
    generalize s.closeMany i = s' at hsound hhead
    rcases s' with ⟨root, _ | ⟨top, below⟩⟩
    · cases hhead
    rcases hsound.closeTop_cases with hclosed | ⟨-, -, -, -, hblock, -⟩
    · exact hclosed
    · -- the node that closes is an element and not a block
      cases top with
      | markup _ _ _ _ => cases hblock
      | _ => cases hhead
  · exact h

/-- The end of a brace block keeps a scaffold sound: its directive closes with it. -/
theorem Sound.closeBrace {s : Scaffold} (h : s.Sound) : s.closeBrace.Sound := by
  rw [Scaffold.closeBrace]
  split
  · rename_i i hfind
    obtain ⟨hsound, hhead⟩ := Sound.closeMany (p := (·.isCode .block))
      (fun node => by cases node <;> rfl)
      (fun node hnode => by
        cases node with
        | code keyword children selfClosing =>
          rw [Node.isCode, beq_iff_eq] at hnode
          rw [Node.isCode, hnode]
          rfl
        | _ => cases hnode) i s h hfind
    rw [closeMany_succ]
    generalize s.closeMany i = s' at hsound hhead
    rcases s' with ⟨root, _ | ⟨top, below⟩⟩
    · cases hhead
    dsimp only
    rcases hsound.closeTop_cases with hclosed | ⟨header, below', rfl, hheader, -, hclosed⟩
    · -- what stays innermost in a sound scaffold is no directive
      have hinner := hclosed.inDirective_eq
      rw [inDirective] at hinner
      rw [hinner]
      exact hclosed
    · rw [if_pos]
      · exact hclosed
      · simp [Scaffold.closeTop, Scaffold.attach, Node.push?, Node.isCode, hheader]
  · exact h

theorem depth_closeTop (root below : List Node) (top : Node) :
    (closeTop ⟨root, top :: below⟩).depth = below.length := by
  have hlength := congrArg List.length (map_shell_closeTop root below top)
  rwa [List.length_map, List.length_map] at hlength

/-- Closing everything gives a well-formed forest. -/
theorem Sound.finish {s : Scaffold} (h : s.Sound) : Siblings s.finish := by
  have hall : ∀ n, ∀ s : Scaffold, s.Sound → s.depth = n → Siblings (s.closeMany n).root := by
    intro n
    induction n using Nat.strongRecOn with
    | _ n ih =>
      rintro ⟨root, stack⟩ h rfl
      cases stack with
      | nil => exact h.root
      | cons top below =>
        rcases h.closeTop_cases with hclosed | ⟨header, below', rfl, -, -, hclosed⟩
        · exact ih below.length (Nat.lt_succ_self _) _ hclosed (depth_closeTop root below top)
        · apply ih below'.length (by simp only [depth, List.length_cons]; omega) _ hclosed
          cases top <;> exact depth_closeTop root below' _
  exact hall s.depth s h rfl

/-! ## Gaps and tokens -/

/-- A gap that does not separate two inline expressions keeps a scaffold sound. -/
theorem Sound.addGap {s : Scaffold} (h : s.Sound) (gap : Text) : (s.addGap gap false).Sound := by
  rw [Scaffold.addGap]
  split
  · exact h
  split
  · rename_i hgap
    have hnode : Node.Everywhere Node.WellFormed (.text gap) := trivial
    exact (h.attach hnode (by simpa [Node.isBlankText] using hgap)).1
  · exact h

end Scaffold

/-- No element name holds a blank. -/
theorem isBlank_of_mem_tagName {tag : Text} {c : Char} (h : c ∈ tagName tag) :
    Text.isBlank c = false := by
  have hc := List.mem_takeWhile_imp h
  simp only [Bool.and_eq_true, Bool.not_eq_true'] at hc
  exact hc.1.1

namespace Template

/-- What holds before a list of segments, where `previous` is the kind of the token before them. -/
inductive Ready (previous : Option TokenKind) (segments : List Segment) : Scaffold → Prop
  /-- The scaffold is sound, and after an inline expression this is the last node. -/
  | sound {s : Scaffold} : s.Sound →
    (previous = some .expression → s.innermost.getLast?.any (·.isCode .expression) = true) →
      Ready previous segments s
  /-- A directive is open, and the brace of its block comes next. -/
  | owing {header : Text} {root below : List Node} : CodeKind.ofKeyword header = .directive →
    Scaffold.Sound ⟨root, below⟩ → previous ≠ some .expression → startsBlock segments = true →
      Ready previous segments ⟨root, .code header [] false :: below⟩

section Step

variable {extra : List Text} {previous : Option TokenKind} {rest : List Segment} {s : Scaffold}

/-- An inline expression goes after the gap before it, which may be one space. -/
theorem ready_expression {gap text : Text} (h : s.Sound) {between : Bool}
    (hlast : between = true → s.innermost.getLast?.any (·.isCode .expression) = true)
    (hkeyword : CodeKind.ofKeyword text = .expression) :
    Ready (some .expression) rest ((s.addGap gap between).attach (.code text [] true)) := by
  have hexpression : (Node.code text [] true).isCode .expression = true := by
    simp [Node.isCode, hkeyword]
  have hnode : Node.Everywhere Node.WellFormed (.code text [] true) := by
    refine ⟨?_, trivial⟩
    simp [Node.WellFormed, hkeyword]
  have hsiblings : Siblings (s.innermost ++ (gapNodes gap between ++ [.code text [] true])) := by
    rw [gapNodes]
    split
    · rename_i hgap
      have htext : Node.Everywhere Node.WellFormed (.text gap) := trivial
      have hfront := h.siblings_innermost.concat htext (by simpa [Node.isBlankText] using hgap)
      rw [← List.append_assoc]
      exact hfront.concat hnode rfl
    split
    · rename_i hspace
      rw [Bool.and_eq_true] at hspace
      exact h.siblings_innermost.concat_space (hlast hspace.2) hnode hexpression
    · exact h.siblings_innermost.concat hnode rfl
  obtain ⟨hsound, hinnermost⟩ := h.attachAll hsiblings
  rw [Scaffold.attachAll_append, ← Scaffold.addGap_eq_attachAll] at hsound hinnermost
  refine .sound hsound ?_
  intro _
  rw [show (s.addGap gap between).attach (.code text [] true) =
    (s.addGap gap between).attachAll [.code text [] true] from rfl, hinnermost]
  simp [hexpression]

/-- An element that starts is attached at once or stays open. -/
theorem ready_element {kind : TokenKind} (hkind : kind ≠ .expression) (h : s.Sound) (tag : Text)
    (closed : Bool) :
    Ready (some kind) rest (s.apply (.start (Event.element extra tag closed))) := by
  refine .sound ?_ (fun heq => absurd (Option.some.inj heq) hkind)
  rw [Scaffold.apply, Scaffold.add, Event.element]
  have hname : ∀ c ∈ tagName tag, Text.isBlank c = false := fun _ => isBlank_of_mem_tagName
  generalize AttributeMap.ofRegion (Event.attributeRegion tag) = attributes
  generalize (closed || isDeclarationName (tagName tag) || isVoidWith extra (tagName tag)) = self
  cases self with
  | true =>
    have hnode : Node.Everywhere Node.WellFormed (.markup (tagName tag) attributes [] true) :=
      ⟨⟨hname, fun _ => rfl, Node.siblings_nil.spaced⟩, trivial⟩
    exact (h.attach hnode rfl).1
  | false => exact ⟨h.root, .element hname Node.siblings_nil h.stack⟩

/-- A directive that starts waits for its block if this comes next, and closes itself if not. -/
theorem ready_directive {kind : TokenKind} (hkind : kind ≠ .expression) (h : s.Sound) {text : Text}
    (hkeyword : CodeKind.ofKeyword text = .directive) :
    Ready (some kind) rest (s.apply (.start (.code text [] !startsBlock rest))) := by
  have hprevious : some kind ≠ some .expression := fun heq => hkind (Option.some.inj heq)
  cases hblock : startsBlock rest with
  | true => exact .owing hkeyword h hprevious hblock
  | false =>
    have hnode : Node.Everywhere Node.WellFormed (.code text [] true) := by
      refine ⟨?_, trivial⟩
      simp [Node.WellFormed, hkeyword]
    exact .sound (h.attach hnode rfl).1 (fun heq => absurd heq hprevious)

/-- One segment keeps the scaffold ready for the next. -/
theorem Ready.step {gap : Text} {token : Token} (h : Ready previous (⟨gap, token⟩ :: rest) s)
    (hkeyword : ∀ codeKind, token.kind.codeKind? = some codeKind →
      CodeKind.ofKeyword token.text = codeKind) :
    Ready (some token.kind) rest
      ((s.addGap gap (previous == some .expression && token.kind == .expression)).apply
        (Event.ofToken extra token (startsBlock rest))) := by
  rcases token with ⟨kind, text⟩
  cases h with
  | owing hheader hsound hprevious hblock =>
    -- the next token is the brace of the block that the directive waits for
    rw [startsBlock, Bool.and_eq_true, beq_iff_eq] at hblock
    obtain ⟨rfl, hgap⟩ := hblock
    have hbetween : (previous == some .expression && TokenKind.braceOpen == .expression) = false :=
      Bool.and_false _
    rw [hbetween, Scaffold.addGap_eq_attachAll, gapNodes, hgap]
    simp only [Bool.not_true, Bool.false_eq_true, if_false, Bool.and_false]
    refine .sound ?_ (fun heq => by cases heq)
    exact ⟨hsound.root, .owned (hkeyword .block rfl) hheader Node.siblings_nil hsound.stack⟩
  | sound hsound hlast =>
    cases hkind : kind == TokenKind.expression with
    | true =>
      rw [beq_iff_eq] at hkind
      subst hkind
      refine ready_expression hsound ?_ (hkeyword .expression rfl)
      intro hbetween
      rw [Bool.and_eq_true, beq_iff_eq] at hbetween
      exact hlast hbetween.1
    | false =>
      -- only inline expressions look at the gap in a special way
      rw [Bool.and_false]
      have hgap := hsound.addGap gap
      rw [beq_eq_false_iff_ne] at hkind
      have hprevious : some kind ≠ some .expression := fun heq => hkind (Option.some.inj heq)
      cases kind with
      | comment =>
        have hnode : Node.Everywhere Node.WellFormed (.comment text) := trivial
        exact .sound (hgap.attach hnode rfl).1 (fun heq => absurd heq hprevious)
      | openTag => exact ready_element hkind hgap text false
      | voidTag => exact ready_element hkind hgap text true
      | closeTag => exact .sound (hgap.closeTag _) (fun heq => absurd heq hprevious)
      | braceOpen =>
        refine .sound ?_ (fun heq => absurd heq hprevious)
        exact ⟨hgap.root, .block (hkeyword .block rfl) Node.siblings_nil hgap.stack⟩
      | braceClose => exact .sound hgap.closeBrace (fun heq => absurd heq hprevious)
      | directive => exact ready_directive hkind hgap (hkeyword .directive rfl)
      | continuation => exact ready_directive hkind hgap (hkeyword .directive rfl)
      | expression => exact absurd rfl hkind

end Step

/-- A run over segments whose tokens have the keywords of their kinds ends in a sound scaffold. -/
theorem Ready.build (extra : List Text) {previous : Option TokenKind} {segments : List Segment}
    {s : Scaffold} (h : Ready previous segments s)
    (hkeyword : ∀ segment ∈ segments, ∀ codeKind, segment.token.kind.codeKind? = some codeKind →
      CodeKind.ofKeyword segment.token.text = codeKind) :
    (Template.build extra previous segments s).Sound := by
  induction segments generalizing previous s with
  | nil =>
    cases h with
    | sound hsound _ => exact hsound
    | owing _ _ _ hblock => cases hblock
  | cons segment rest ih =>
    rcases segment with ⟨gap, token⟩
    apply ih
    · exact h.step (hkeyword _ List.mem_cons_self)
    · exact fun segment hmem => hkeyword segment (List.mem_cons_of_mem _ hmem)

/-- The forest of a template without a code section is well formed; a blank text stands in it alone
or between two inline expressions. -/
theorem wellFormed_parseBody (extra : List Text) (body : Text) :
    Node.EverywhereIn Node.WellFormed (parseBody extra body) ∧
      (Node.Spaced (parseBody extra body) ∨ parseBody extra body = [.text [' ']]) := by
  have hstart : Ready none (Segmentation.segment body).segments Scaffold.empty :=
    .sound Scaffold.sound_empty (fun heq => by cases heq)
  have hsound := (hstart.build extra fun segment hmem codeKind =>
    Segmentation.ofKeyword_of_mem_tokens (List.mem_map_of_mem hmem)).addGap
      (Segmentation.segment body).tail
  rw [parseBody]
  split
  · -- nothing was built, so the body is one text if there is any
    split
    · exact ⟨trivial, Or.inl Node.siblings_nil.spaced⟩
    split
    · exact ⟨⟨trivial, trivial⟩, Or.inr rfl⟩
    · rename_i hblank
      rw [Bool.not_eq_true] at hblank
      exact ⟨⟨trivial, trivial⟩, Or.inl (Node.siblings_nil.spaced.concat hblank)⟩
  · exact ⟨hsound.finish.each, Or.inl hsound.finish.spaced⟩

/-- Every template is read as a well-formed forest. Apart from its code section, which comes last, a
blank text in it is one space, and stands directly between two inline expressions or alone. -/
theorem wellFormed_parse (extra : List Text) (source : Text) :
    Node.EverywhereIn Node.WellFormed (parse extra source) ∧
      ∃ body, parse extra source = body ++ (CodeSection.split source).2.toList.map Node.text ∧
        (Node.Spaced body ∨ body = [.text [' ']]) := by
  obtain ⟨heach, hspaced⟩ := wellFormed_parseBody extra (CodeSection.split source).1
  refine ⟨?_, parseBody extra (CodeSection.split source).1, rfl, hspaced⟩
  rw [parse, Node.everywhereIn_iff]
  intro node hnode
  rcases List.mem_append.1 hnode with hbody | hsection
  · exact (Node.everywhereIn_iff _).1 heach node hbody
  · obtain ⟨content, -, rfl⟩ := List.mem_map.1 hsection
    trivial

end Template

end RazorTidy
