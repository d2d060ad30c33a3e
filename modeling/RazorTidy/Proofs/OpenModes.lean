import RazorTidy.Proofs.Plain
import RazorTidy.Proofs.WellFormed

/-!
# Modes and open nodes

The cut of a template into tokens keeps the modes that are open, and the reading of the tokens keeps
the nodes that are open. The two are never compared in the course of reading, but they agree after
every token (`Template.modes_eq_frames`): without the directives, which have no mode of their own,
the open nodes are the modes one by one. So text is read as code exactly where the innermost open
element or brace block is a block.

Both sides forget what is closed: `Mode.leave` drops modes up to the one that ends, and a scaffold
closes as many nodes as stand inside the one that ends. `Scaffold.Follows.closeMany` compares the
two searches, `Scaffold.Follows.step` follows one token and `Template.follows_buildBefore` a list of
them.
-/

set_option autoImplicit false

namespace RazorTidy

/-! ## Frames -/

/-- The mode inside an open node: that of an element or of a brace block. -/
def Node.mode? : Node → Option Mode
  | .markup name _ _ _ => some (.markup (Text.lower name))
  | .code keyword _ _ => if CodeKind.ofKeyword keyword = .block then some .code else none
  | .text _ => none
  | .comment _ => none

/-- Nodes without the directives among them. -/
def Node.frames (nodes : List Node) : List Node := nodes.filter (!·.isCode .directive)

namespace Node

theorem frames_cons_of_directive {node : Node} (h : node.isCode .directive = true)
    (nodes : List Node) : frames (node :: nodes) = frames nodes := by
  simp [frames, h]

theorem frames_cons {node : Node} (h : node.isCode .directive = false) (nodes : List Node) :
    frames (node :: nodes) = node :: frames nodes := by
  simp [frames, h]

theorem mode?_shell (node : Node) : node.shell.mode? = node.mode? := by
  cases node <;> rfl

theorem isCode_shell (kind : CodeKind) (node : Node) :
    node.shell.isCode kind = node.isCode kind := by
  cases node <;> rfl

/-- The children of the nodes do not matter for their modes. -/
theorem map_mode?_of_map_shell {nodes nodes' : List Node}
    (h : nodes.map shell = nodes'.map shell) :
    (frames nodes).map mode? = (frames nodes').map mode? := by
  have hview : ∀ ns : List Node, (frames ns).map mode? = (frames (ns.map shell)).map mode? := by
    intro ns
    rw [frames, frames, List.filter_map, List.map_map]
    congr 1
    · funext node
      exact (mode?_shell node).symm
    · congr 1
      funext node
      rw [Function.comp, isCode_shell]
  rw [hview nodes, h, ← hview nodes']

theorem isElement_iff_mode? (name : Text) (node : Node) :
    node.isElement name = true ↔ node.mode? = some (.markup (Text.lower name)) := by
  cases node with
  | markup name' attributes children selfClosing =>
    simp [isElement, mode?, Text.sameName_iff]
  | code keyword children selfClosing =>
    simp only [isElement, mode?, Bool.false_eq_true, false_iff]
    split <;> simp
  | text content => simp [isElement, mode?]
  | comment content => simp [isElement, mode?]

theorem isBlock_iff_mode? (node : Node) :
    node.isCode .block = true ↔ node.mode? = some .code := by
  cases node with
  | code keyword children selfClosing => simp [isCode, mode?]
  | _ => simp [isCode, mode?]

/-- What has a mode is no directive. -/
theorem isDirective_of_mode? {node : Node} {mode : Mode} (h : node.mode? = some mode) :
    node.isCode .directive = false := by
  cases node with
  | markup name attributes children selfClosing => rfl
  | code keyword children selfClosing =>
    rw [mode?] at h
    split at h
    · rename_i hblock
      simp [isCode, hblock]
    · cases h
  | text content => rfl
  | comment content => rfl

end Node

/-! ## Leaving modes -/

namespace Mode

theorem leave_cons_self (mode : Mode) (modes : List Mode) : leave mode (mode :: modes) = modes := by
  simp [leave]

/-- Leaving a mode from inside another one leaves that one too. -/
theorem leave_cons_of_mem {mode mode' : Mode} {modes : List Mode} (hne : mode' ≠ mode)
    (hmem : mode ∈ modes) : leave mode (mode' :: modes) = leave mode modes := by
  have hdrop : (mode' :: modes).dropWhile (· != mode) = modes.dropWhile (· != mode) := by
    rw [List.dropWhile_cons_of_pos]
    simpa using hne
  rw [leave, leave, hdrop]
  split
  · rename_i hnil
    -- the search stops at the mode itself
    have hall := List.dropWhile_eq_nil_iff.1 hnil mode hmem
    simp at hall
  · rfl

theorem leave_of_not_mem {mode : Mode} {modes : List Mode} (h : mode ∉ modes) :
    leave mode modes = modes := by
  have hnil : modes.dropWhile (· != mode) = [] := by
    rw [List.dropWhile_eq_nil_iff]
    intro other hother
    rw [bne_iff_ne]
    rintro rfl
    exact h hother
  rw [leave, hnil]

end Mode

/-! ## Scaffolds that follow modes -/

namespace Scaffold

/-- The open nodes without the directives have the given modes, one by one. -/
def Follows (s : Scaffold) (modes : List Mode) : Prop :=
  (Node.frames s.stack).map Node.mode? = modes.map some

variable {s s' : Scaffold} {modes : List Mode}

theorem Follows.of_map_shell (h : s.Follows modes)
    (hshell : s'.stack.map Node.shell = s.stack.map Node.shell) : s'.Follows modes :=
  (Node.map_mode?_of_map_shell hshell).trans h

theorem Follows.attach (h : s.Follows modes) (node : Node) : (s.attach node).Follows modes :=
  h.of_map_shell (map_shell_attach node s)

theorem Follows.addGap (h : s.Follows modes) (gap : Text) (between : Bool) :
    (s.addGap gap between).Follows modes := by
  rw [Scaffold.addGap]
  split
  · exact h
  split
  · exact h.attach _
  split
  · exact h.attach _
  · exact h

/-- An element or a block that opens adds its mode. -/
theorem Follows.push (h : s.Follows modes) {node : Node} {mode : Mode}
    (hmode : node.mode? = some mode) :
    Follows { s with stack := node :: s.stack } (mode :: modes) := by
  rw [Follows, Node.frames_cons (Node.isDirective_of_mode? hmode), List.map_cons, List.map_cons,
    hmode]
  exact congrArg _ h

/-- A directive that opens adds nothing. -/
theorem Follows.push_directive (h : s.Follows modes) {node : Node}
    (hnode : node.isCode .directive = true) :
    Follows { s with stack := node :: s.stack } modes := by
  rw [Follows, Node.frames_cons_of_directive hnode]
  exact h

theorem map_shell_closeMany (n : Nat) (s : Scaffold) :
    (s.closeMany n).stack.map Node.shell = (s.stack.drop n).map Node.shell := by
  induction n generalizing s with
  | zero => rfl
  | succ n ih =>
    rcases s with ⟨root, stack⟩
    cases stack with
    | nil =>
      rw [closeMany, ih]
      simp [closeTop]
    | cons top below =>
      rw [closeMany, ih, List.map_drop, map_shell_closeTop, List.drop_succ_cons, List.map_drop]

/-- The search for the innermost open node of a mode and the search for that mode end at the same
place. -/
theorem follows_leave {p : Node → Bool} {mode : Mode}
    (hp : ∀ node : Node, p node = true ↔ node.mode? = some mode) (stack : List Node)
    (modes : List Mode) (h : (Node.frames stack).map Node.mode? = modes.map some) :
    match stack.findIdx? p with
    | some i =>
      mode ∈ modes ∧
        (Node.frames (stack.drop (i + 1))).map Node.mode? = (Mode.leave mode modes).map some
    | none => mode ∉ modes := by
  -- the induction is on the open nodes; a directive among them takes no mode
  induction stack generalizing modes with
  | nil =>
    rw [Node.frames, List.filter_nil, List.map_nil, eq_comm, List.map_eq_nil_iff] at h
    subst h
    exact List.not_mem_nil
  | cons node below ih =>
    cases hdirective : node.isCode .directive with
    | true =>
      have hnot : ¬ p node = true := by
        rw [hp]
        intro hmode
        rw [Node.isDirective_of_mode? hmode] at hdirective
        cases hdirective
      rw [Node.frames_cons_of_directive hdirective] at h
      have hbelow := ih modes h
      rw [List.findIdx?_cons, if_neg hnot]
      cases hfind : below.findIdx? p with
      | none =>
        rw [hfind] at hbelow
        exact hbelow
      | some i =>
        rw [hfind] at hbelow
        exact hbelow
    | false =>
      rw [Node.frames_cons hdirective, List.map_cons] at h
      obtain ⟨mode', modes', rfl, hmode', hmodes'⟩ := List.map_eq_cons_iff.1 h.symm
      have hbelow := ih modes' hmodes'.symm
      by_cases hnode : p node = true
      · have heq : mode' = mode := by
          have hmode := (hp node).1 hnode
          rw [← hmode'] at hmode
          exact Option.some.inj hmode
        subst heq
        rw [List.findIdx?_cons, if_pos hnode]
        refine ⟨List.mem_cons_self, ?_⟩
        rw [Mode.leave_cons_self]
        exact hmodes'.symm
      · have hne : mode' ≠ mode := by
          rintro rfl
          exact hnode ((hp node).2 hmode'.symm)
        rw [List.findIdx?_cons, if_neg hnode]
        cases hfind : below.findIdx? p with
        | none =>
          rw [hfind] at hbelow
          show mode ∉ mode' :: modes'
          rw [List.mem_cons, not_or]
          exact ⟨fun heq => hne heq.symm, hbelow⟩
        | some i =>
          rw [hfind] at hbelow
          obtain ⟨hmem, hdrop⟩ := hbelow
          refine ⟨List.mem_cons_of_mem _ hmem, ?_⟩
          rw [Mode.leave_cons_of_mem hne hmem]
          exact hdrop

/-- Closing everything up to the innermost open node of a mode leaves that mode. -/
theorem Follows.closeMany {p : Node → Bool} {mode : Mode}
    (hp : ∀ node : Node, p node = true ↔ node.mode? = some mode) (h : s.Follows modes) :
    match s.stack.findIdx? p with
    | some i => (s.closeMany (i + 1)).Follows (Mode.leave mode modes)
    | none => Mode.leave mode modes = modes := by
  have hleave := follows_leave hp s.stack modes h
  cases hfind : s.stack.findIdx? p with
  | none =>
    rw [hfind] at hleave
    exact Mode.leave_of_not_mem hleave
  | some i =>
    rw [hfind] at hleave
    exact (Node.map_mode?_of_map_shell (map_shell_closeMany (i + 1) s)).trans hleave.2

theorem Follows.closeTag (h : s.Follows modes) (name : Text) :
    (s.closeTag name).Follows (Mode.leave (.markup (Text.lower name)) modes) := by
  have hclose := h.closeMany (Node.isElement_iff_mode? name)
  rw [Scaffold.closeTag]
  cases hfind : s.stack.findIdx? (·.isElement name) with
  | none =>
    rw [hfind] at hclose
    rw [hclose]
    exact h
  | some i =>
    rw [hfind] at hclose
    exact hclose

/-- Closing the directive around a block changes no mode. -/
theorem Follows.closeTop_directive (h : s.Follows modes)
    (hinner : s.stack.head?.any (·.isCode .directive) = true) : s.closeTop.Follows modes := by
  rcases s with ⟨root, stack⟩
  cases stack with
  | nil => cases hinner
  | cons top below =>
    have htop : top.isCode .directive = true := hinner
    rw [Follows, Node.frames_cons_of_directive htop] at h
    exact (Node.map_mode?_of_map_shell (map_shell_closeTop root below top)).trans h

theorem Follows.closeBrace (h : s.Follows modes) :
    s.closeBrace.Follows (Mode.leave .code modes) := by
  have hclose := h.closeMany Node.isBlock_iff_mode?
  rw [Scaffold.closeBrace]
  cases hfind : s.stack.findIdx? (·.isCode .block) with
  | none =>
    rw [hfind] at hclose
    rw [hclose]
    exact h
  | some i =>
    rw [hfind] at hclose
    dsimp only
    split
    · rename_i hinner
      exact hclose.closeTop_directive hinner
    · exact hclose

/-- Text is read as code where the innermost open element or block is a brace block. -/
theorem Follows.inCode_eq (h : s.Follows modes) :
    Mode.inCode modes = (Node.frames s.stack).head?.any (·.isCode .block) := by
  rw [Follows] at h
  cases modes with
  | nil =>
    rw [List.map_nil, List.map_eq_nil_iff] at h
    rw [h]
    rfl
  | cons mode modes' =>
    obtain ⟨node, nodes, hframes, hmode, -⟩ := List.map_eq_cons_iff.1 h
    rw [hframes, List.head?_cons, Option.any_some, Bool.eq_iff_iff, Node.isBlock_iff_mode?, hmode]
    cases mode <;> simp [Mode.inCode]

end Scaffold

/-! ## Tokens -/

/-- An opening tag goes on with a letter after its angle bracket. -/
theorem tag?_openTag {s : Text} {n : Nat} (h : tag? s = some (.openTag, n)) :
    ∃ c r, s = '<' :: c :: r ∧ Text.isAsciiLetter c = true ∧ 2 ≤ n := by
  unfold tag? at h
  split at h
  · split at h
    · obtain ⟨m, -, hm⟩ := Option.map_eq_some_iff.1 h
      cases hm
    · cases h
  · split at h
    · obtain ⟨m, -, hm⟩ := Option.map_eq_some_iff.1 h
      cases hm
    · cases h
  · rename_i c r _ _
    split at h
    · rename_i hletter
      obtain ⟨m, -, hm⟩ := Option.map_eq_some_iff.1 h
      rw [Prod.mk.injEq] at hm
      exact ⟨c, r, rfl, hletter, by omega⟩
    · cases h
  · cases h

/-- The kind of a code token is that of a brace or of a keyword. -/
theorem Place.code?_kind {place : Place} {s : Text} {kind : TokenKind} {n : Nat}
    (h : place.code? s = some (kind, n)) :
    kind = .braceClose ∨ kind.codeKind?.isSome = true := by
  unfold code? at h
  split at h
  · cases h
  · cases h
    exact Or.inr rfl
  · cases h
    exact Or.inl rfl
  · rw [transition?] at h
    split at h
    · cases h
    split at h
    · cases h
      exact Or.inr rfl
    split at h
    · dsimp only at h
      split at h <;> cases h <;> exact Or.inr rfl
    · cases h
  · rw [continuation?] at h
    dsimp only at h
    split at h
    · cases h
      exact Or.inr rfl
    · cases h

/-- The name in an opening tag starts with a letter, so it names no declaration. -/
theorem isDeclarationName_of_openTag {place : Place} {s : Text} {token : Token}
    (h : token ∈ (Segmentation.segmentFrom place s).tokens) (hkind : token.kind = .openTag) :
    isDeclarationName (tagName token.text) = false := by
  obtain ⟨place', d, u, n, htoken, htext⟩ := Segmentation.exists_token?_of_mem_tokens h
  rw [hkind] at htoken
  rcases Place.token?_cases htoken with ⟨hcomment, -⟩ | htag | hcode
  · cases hcomment
  · obtain ⟨c, r, heq, hletter, hn⟩ := tag?_openTag htag
    obtain ⟨rfl, rfl⟩ := List.cons.inj heq
    obtain ⟨m, rfl⟩ := Nat.exists_eq_add_of_le hn
    obtain ⟨hblank, hmark⟩ := ne_of_nameChar (Or.inl hletter)
    simp only [List.mem_cons, List.not_mem_nil, or_false, not_or] at hmark
    have hbang : c ≠ '!' := by
      rintro rfl
      revert hletter
      decide
    rw [htext, show 2 + m - 1 = m + 1 by omega, List.take_succ_cons]
    simp [isDeclarationName, tagName, Text.stripFirst, hmark, hblank, hbang]
  · rcases Place.code?_kind hcode with hk | hk <;> cases hk

namespace Scaffold

/-- One token changes the open nodes as it changes the modes. -/
theorem Follows.step {s : Scaffold} {modes : List Mode} (h : s.Follows modes) {token : Token}
    (hkeyword : ∀ codeKind, token.kind.codeKind? = some codeKind →
      CodeKind.ofKeyword token.text = codeKind)
    (hname : token.kind = .openTag → isDeclarationName (tagName token.text) = false ∧
      isRawTextName (tagName token.text) = false) (gap : Text) (between beforeBlock : Bool) :
    ((s.addGap gap between).apply (Event.ofToken [] token beforeBlock)).Follows
      (Mode.after modes token) := by
  have hgap := h.addGap gap between
  generalize s.addGap gap between = s' at hgap
  rcases token with ⟨kind, text⟩
  cases kind with
  | comment => exact hgap.attach _
  | openTag =>
    obtain ⟨hdeclaration, hraw⟩ := hname rfl
    have hvoid : (false || isDeclarationName (tagName text) || isVoidWith [] (tagName text)) =
        isVoidName (tagName text) := by
      simp [hdeclaration, isVoidWith, isNamedIn]
    have hmodes : Mode.after modes ⟨.openTag, text⟩ =
        if isVoidName (tagName text) then modes
        else .markup (Text.lower (tagName text)) :: modes := by
      simp [Mode.after, hraw]
    rw [hmodes, Event.ofToken, Event.element, hvoid, apply, add, Node.isSelfClosing]
    dsimp only
    split
    · exact hgap.attach _
    · exact hgap.push rfl
  | voidTag => exact hgap.attach _
  | closeTag => exact hgap.closeTag _
  | braceOpen =>
    have hblock : CodeKind.ofKeyword text = .block := hkeyword .block rfl
    exact hgap.push (by simp [Node.mode?, hblock])
  | braceClose => exact hgap.closeBrace
  | directive =>
    have hdirective : CodeKind.ofKeyword text = .directive := hkeyword .directive rfl
    cases beforeBlock with
    | true => exact hgap.push_directive (by simp [Node.isCode, hdirective])
    | false => exact hgap.attach _
  | expression => exact hgap.attach _
  | continuation =>
    have hdirective : CodeKind.ofKeyword text = .directive := hkeyword .directive rfl
    cases beforeBlock with
    | true => exact hgap.push_directive (by simp [Node.isCode, hdirective])
    | false => exact hgap.attach _

end Scaffold

/-! ## Runs -/

namespace Template

/-- The scaffold after a list of segments that is followed by the segments `back`. -/
def buildBefore (extra : List Text) (back : List Segment) (previous : Option TokenKind) :
    List Segment → Scaffold → Scaffold
  | [], s => s
  | ⟨gap, token⟩ :: rest, s =>
    let between := previous == some .expression && token.kind == .expression
    let event := Event.ofToken extra token (startsBlock (rest ++ back))
    buildBefore extra back (some token.kind) rest ((s.addGap gap between).apply event)

/-- Reading goes through the scaffold after each of its segments. -/
theorem build_append (extra : List Text) (back front : List Segment)
    (previous : Option TokenKind) (s : Scaffold) :
    build extra previous (front ++ back) s =
      build extra ((front.getLast?.map (·.token.kind)).or previous) back
        (buildBefore extra back previous front s) := by
  induction front generalizing previous s with
  | nil => rfl
  | cons segment rest ih =>
    rcases segment with ⟨gap, token⟩
    rw [List.cons_append, build, ih, buildBefore, List.getLast?_cons]
    cases rest.getLast? <;> rfl

/-- A run over segments changes the open nodes as their tokens change the modes. -/
theorem follows_buildBefore (back : List Segment) {front : List Segment}
    (previous : Option TokenKind) {s : Scaffold} {modes : List Mode} (h : s.Follows modes)
    (hkeyword : ∀ segment ∈ front, ∀ codeKind, segment.token.kind.codeKind? = some codeKind →
      CodeKind.ofKeyword segment.token.text = codeKind)
    (hname : ∀ segment ∈ front, segment.token.kind = .openTag →
      isDeclarationName (tagName segment.token.text) = false ∧
        isRawTextName (tagName segment.token.text) = false) :
    (buildBefore [] back previous front s).Follows
      ((front.map Segment.token).foldl Mode.after modes) := by
  induction front generalizing previous s modes with
  | nil => exact h
  | cons segment rest ih =>
    rcases segment with ⟨gap, token⟩
    apply ih
    · exact h.step (hkeyword _ List.mem_cons_self) (hname _ List.mem_cons_self) gap _ _
    · exact fun segment hmem => hkeyword segment (List.mem_cons_of_mem _ hmem)
    · exact fun segment hmem => hname segment (List.mem_cons_of_mem _ hmem)

end Template

namespace Segmentation

/-- Without raw text, the cut goes on after each of its tokens from a place whose modes are those
after the tokens so far. -/
theorem exists_place_of_segmentFrom (place : Place) (s : Text) (back : List Segment)
    (tail : Text) : ∀ front : List Segment, segmentFrom place s = ⟨front ++ back, tail⟩ →
      (∀ segment ∈ front, segment.token.kind = .openTag →
        isRawTextName (tagName segment.token.text) = false) →
      ∃ place' rest, place'.modes = (front.map Segment.token).foldl Mode.after place.modes ∧
        segmentFrom place' rest = ⟨back, tail⟩ := by
  fun_induction segmentFrom place s with
  | case1 place =>
    intro front hcut hraw
    cases front with
    | nil => exact ⟨place, [], rfl, by rw [segmentFrom, hcut, List.nil_append]⟩
    | cons first front => cases hcut
  | case2 place c r kind n htoken token rest raw next ih =>
    intro front hcut hraw
    cases front with
    | nil =>
      refine ⟨place, c :: r, rfl, ?_⟩
      rw [← List.nil_append back, ← hcut, segmentFrom, htoken]
    | cons first front =>
      rw [consToken, List.cons_append, mk.injEq] at hcut
      obtain ⟨hfirst, hsegments⟩ := List.cons.inj hcut.1
      have hzero : raw = 0 := by
        have hnot := hraw first List.mem_cons_self
        rw [← hfirst] at hnot
        exact if_neg fun hboth => by simp [hnot hboth.1] at hboth
      have hnext : next.modes = Mode.after place.modes token := rfl
      -- the rest of the cut is that of the text after the token
      have hrest : segmentFrom next (rest.drop raw) = ⟨front ++ back, tail⟩ := by
        rw [hzero, List.take_zero, consText_nil] at hsegments hcut
        rw [hzero, ← hsegments, ← hcut.2]
      obtain ⟨place', rest', hmodes, hplace'⟩ := ih front hrest
        fun segment hmem => hraw segment (List.mem_cons_of_mem _ hmem)
      refine ⟨place', rest', ?_, hplace'⟩
      rw [hmodes, hnext, ← hfirst]
      rfl
  | case3 place c r hnone piece ih =>
    intro front hcut hraw
    cases front with
    | nil =>
      refine ⟨place, c :: r, rfl, ?_⟩
      rw [← List.nil_append back, ← hcut, segmentFrom, hnone]
    | cons first front =>
      cases hrest : segmentFrom (place.passText piece)
        (r.drop (place.textLength (c :: r) - 1)) with
      | mk segments rest =>
      rw [hrest] at hcut ih
      cases segments with
      | nil => cases hcut
      | cons next segments =>
        rw [consText, List.cons_append, mk.injEq] at hcut
        obtain ⟨hfirst, hsegments⟩ := List.cons.inj hcut.1
        -- the piece is part of the gap before the first token, which stays the same
        have htoken : first.token = next.token := by rw [← hfirst]
        obtain ⟨place', rest', hmodes, hplace'⟩ := ih (next :: front)
          (by rw [hsegments, hcut.2]; rfl) (by
            intro segment hmem
            rcases List.mem_cons.1 hmem with rfl | hmem
            · rw [← htoken]
              exact hraw first List.mem_cons_self
            · exact hraw segment (List.mem_cons_of_mem _ hmem))
        refine ⟨place', rest', ?_, hplace'⟩
        rw [hmodes, List.map_cons, List.map_cons, htoken]
        rfl

end Segmentation

/-! ## Templates -/

/-- After every list of tokens from the start of a template without raw text, the open nodes other
than directives have the modes that the tokens leave, one by one, and code is read exactly where the
innermost of these nodes is a brace block. The modes are those from which the cut goes on, and the
open nodes are those from which the reading goes on. -/
theorem Template.modes_eq_frames (source : Text)
    (hraw : ∀ token ∈ (Segmentation.segment (CodeSection.split source).1).tokens,
      token.kind = .openTag → isRawTextName (tagName token.text) = false)
    (front back : List Segment)
    (hcut : (Segmentation.segment (CodeSection.split source).1).segments = front ++ back) :
    let cut := Segmentation.segment (CodeSection.split source).1
    let modes := Mode.afterAll (front.map Segment.token)
    let scaffold := buildBefore [] back none front Scaffold.empty
    (Node.frames scaffold.stack).map Node.mode? = modes.map some ∧
      Mode.inCode modes = (Node.frames scaffold.stack).head?.any (·.isCode .block) ∧
      (∃ place rest, place.modes = modes ∧
        Segmentation.segmentFrom place rest = ⟨back, cut.tail⟩) ∧
      build [] none cut.segments Scaffold.empty =
        build [] (front.getLast?.map (·.token.kind)) back scaffold := by
  intro cut modes scaffold
  have hmem : ∀ segment ∈ front, segment.token ∈ cut.tokens := by
    intro segment hsegment
    apply List.mem_map_of_mem
    rw [hcut]
    exact List.mem_append_left back hsegment
  have hfollows : scaffold.Follows modes := by
    apply follows_buildBefore back none
    · rfl
    · exact fun segment hsegment _ =>
        Segmentation.ofKeyword_of_mem_tokens (hmem segment hsegment)
    · intro segment hsegment hkind
      exact ⟨isDeclarationName_of_openTag (hmem segment hsegment) hkind,
        hraw _ (hmem segment hsegment) hkind⟩
  refine ⟨hfollows, hfollows.inCode_eq, ?_, ?_⟩
  · exact Segmentation.exists_place_of_segmentFrom Place.start _ back cut.tail front
      (by rw [← hcut]; rfl) fun segment hsegment => hraw _ (hmem segment hsegment)
  · rw [hcut, build_append, Option.or_none]

/-- A page whose element `li` closes while a directive and an element in it are open. -/
def crossedPage : Text := "<Ul><li>@if (x) \x7b <b></LI> \x7d".toList

theorem modes_eq_frames_crossedPage :
    let cut := Segmentation.segment crossedPage
    let scaffold := Template.buildBefore [] (cut.segments.drop 4) none (cut.segments.take 4)
      Scaffold.empty
    scaffold.depth = 4 ∧
      (Node.frames scaffold.stack).map Node.mode? =
        [some .code, some (.markup "li".toList), some (.markup "ul".toList)] ∧
      (Node.frames scaffold.stack).head?.any (·.isCode .block) = true := by
  intro cut scaffold
  have hsplit : CodeSection.split crossedPage = (crossedPage, none) := by decide
  have hraw : cut.tokens.all (fun token =>
      token.kind != .openTag || !isRawTextName (tagName token.text)) = true := by
    with_unfolding_all rfl
  have hmodes : Mode.afterAll ((cut.segments.take 4).map Segment.token) =
      [.code, .markup "li".toList, .markup "ul".toList] := by
    with_unfolding_all rfl
  obtain ⟨hframes, hcode, -, -⟩ := Template.modes_eq_frames crossedPage
    (by
      rw [hsplit]
      intro token hmem hkind
      simpa [hkind] using List.all_eq_true.1 hraw token hmem)
    (cut.segments.take 4) (cut.segments.drop 4)
    (by rw [hsplit, List.take_append_drop])
  rw [hmodes] at hframes hcode
  exact ⟨by with_unfolding_all rfl, hframes, hcode.symm⟩

end RazorTidy
