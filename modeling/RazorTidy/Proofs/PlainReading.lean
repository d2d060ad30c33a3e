import RazorTidy.Proofs.PlainPlaces

/-!
# Reading plain forests

A reader in front of a written form of a plain forest goes through it and attaches a forest to its
tree (`Written.reads`). One lemma for each kind of piece says what the reader does there: blanks and
plain text make its gap longer, tags, headers and braces open and close nodes. From these comes one
lemma for each kind of node, with the nodes after it and its children read by assumption; the
induction on the written form puts them together. Reader and text after the form are arbitrary.

The forest it attaches is the one the form was written for, up to the blanks around its texts and
but for one thing: where a header owns a block that starts with an `@`, the `@` is read as the end
of the header (`Node.settle`).
-/

set_option autoImplicit false

namespace RazorTidy

/-! ## Gaps -/

namespace Node

/-- The text that a gap gives does not show blanks after the gap. -/
theorem trimAll_gapNodes_append {blanks : Text} (h : Text.allBlank blanks = true) (gap : Text) :
    trimAll (Template.gapNodes (gap ++ blanks) false) = trimAll (Template.gapNodes gap false) := by
  have hall : Text.allBlank (gap ++ blanks) = Text.allBlank gap := by
    rw [allBlank_append, h, Bool.and_true]
  have htrim := Text.trim_append_blanks h gap
  simp only [Template.gapNodes, hall, Bool.and_false, Bool.false_eq_true, if_false]
  split
  · simp only [trimAll, trimTexts, htrim]
  · rfl

/-- A gap of plain text after blanks gives the text. -/
theorem trimAll_gapNodes_plainText {blanks content : Text} (h : Text.allBlank blanks = true)
    (hcontent : plainText content = true) :
    trimAll (Template.gapNodes (blanks ++ content) false) = [.text content] := by
  have hblank : Text.allBlank (blanks ++ content) = false := by
    rw [allBlank_append, allBlank_of_plainText hcontent, Bool.and_false]
  obtain ⟨-, htrim, -, -⟩ := (plainText_iff content).1 hcontent
  have htrim' : Text.trim (blanks ++ content) = content := by
    rw [Text.trim_blanks_append h, htrim]
  simp [Template.gapNodes, hblank, trimAll, trimTexts, htrim']

theorem trimAll_gapNodes_blank {gap : Text} (h : Text.allBlank gap = true) :
    trimAll (Template.gapNodes gap false) = [] := by
  simp [Template.gapNodes, h, trimAll]

end Node

/-! ## Reading text -/

namespace Reader

variable {extra : List Text} {reader : Reader}

/-- Blanks are passed over. -/
theorem run_blanks {blanks : Text} (h : Text.allBlank blanks = true) (reader : Reader)
    (rest : Text) :
    reader.run extra (blanks ++ rest) = (reader.passText blanks).run extra rest :=
  run_passesOver (Place.passesOver_blanks h reader.place rest)

/-! ## Reading tokens -/

/-- A reader right after a token that ends with `last`: it stands in `modes` with nothing in its
gap, and its tree is `scaffold`. -/
structure After (modes : List Mode) (scaffold : Scaffold) (last : Char) (reader : Reader) :
    Prop where
  modes_eq : reader.place.modes = modes
  gap_eq : reader.gap = []
  last_eq : reader.place.previous = some last
  scaffold_eq : reader.scaffold = scaffold

/-- The tree of a reader with its gap. -/
def full (reader : Reader) : Scaffold := reader.scaffold.addGap reader.gap false

/-- What the reader does at a token that is no expression. -/
theorem run_token_after {kind : TokenKind} {s rest : Text} {last : Char} {modes : List Mode}
    {event : Event} (extra : List Text) (reader : Reader)
    (htoken : reader.place.token? (s ++ rest) = some (kind, s.length))
    (hraw : rawTextLength ⟨kind, s⟩ rest = 0) (hkind : (kind == .expression) = false)
    (hlast : s.getLast? = some last)
    (hmodes : Mode.after reader.place.modes ⟨kind, s⟩ = modes)
    (hevent : Event.ofToken extra ⟨kind, s⟩ (Template.startsBlock (Segmentation.segmentFrom
      (reader.place.passToken ⟨kind, s⟩) rest).segments) = event) :
    ∃ reader', reader.run extra (s ++ rest) = reader'.run extra rest ∧
      After modes (reader.full.apply event) last reader' := by
  have hne : s ≠ [] := by
    rintro rfl
    cases hlast
  refine ⟨_, run_token hne htoken hraw, ?_⟩
  rw [← hmodes, ← hevent]
  constructor
  · rfl
  · rfl
  · simp [passToken, Place.passToken, hlast]
  · simp [passToken, full, hkind]

/-- No word goes on after the end of a tag or a brace. -/
theorem After.follows_eq {modes : List Mode} {scaffold : Scaffold} {last : Char} {reader : Reader}
    (h : After modes scaffold last reader) (hlast : last ∈ ['<', '>', '{', '}']) :
    reader.place.follows Text.isWordChar = false := by
  rw [Place.follows, h.last_eq, Option.any_some]
  apply Text.isWordChar_eq_false_of_mark
  exact List.mem_cons_of_mem _ (List.mem_cons_of_mem _ (List.mem_cons_of_mem _ hlast))

section Tags

variable {name region : Text} {attributes : AttributeMap}

theorem getLast?_tagText (name region ending : Text) (hending : ending.getLast? = some '>') :
    (tagText name region ending).getLast? = some '>' := by
  rw [tagText, ← List.cons_append, ← List.append_assoc, List.getLast?_append, hending]
  rfl

/-- An element that closes itself is attached. -/
theorem run_closed (hname : plainName name = true)
    (hregion : RegionWritten attributes.entries region) (reader : Reader)
    (hword : reader.place.follows Text.isWordChar = false) (rest : Text) :
    ∃ reader', reader.run extra (tagText name region ['/', '>'] ++ rest) =
        reader'.run extra rest ∧
      After reader.place.modes (reader.full.attach (.markup name attributes [] true)) '>'
        reader' := by
  have hevent : ∀ beforeBlock, Event.ofToken extra ⟨.voidTag, tagText name region ['/', '>']⟩
      beforeBlock = .start (.markup name attributes [] true) := by
    intro beforeBlock
    show Event.start (Event.element extra _ true) = _
    rw [element_tagText hname hregion (Or.inr rfl), Bool.true_or]
  exact run_token_after extra reader (token?_closed hname hregion hword rest) rfl rfl
    (getLast?_tagText name region ['/', '>'] rfl) rfl (hevent _)

/-- An opening tag opens its element. -/
theorem run_open (hname : plainName name = true)
    (hregion : RegionWritten attributes.entries region) (hvoid : isVoidWith extra name = false)
    (reader : Reader) (hword : reader.place.follows Text.isWordChar = false) (rest : Text) :
    ∃ reader', reader.run extra (tagText name region ['>'] ++ rest) = reader'.run extra rest ∧
      After (.markup (Text.lower name) :: reader.place.modes)
        ⟨reader.full.root, .markup name attributes [] false :: reader.full.stack⟩ '>' reader' := by
  have hname' := tagName_tagText hname hregion (Or.inl rfl)
  have hrawName := isRawTextName_of_plainName hname
  have hraw : rawTextLength ⟨.openTag, tagText name region ['>']⟩ rest = 0 := by
    rw [rawTextLength]
    simp only [hname', hrawName]
    rfl
  have hmodes : Mode.after reader.place.modes ⟨.openTag, tagText name region ['>']⟩ =
      .markup (Text.lower name) :: reader.place.modes := by
    have hvoidName : isVoidName name = false := (Bool.or_eq_false_iff.1 hvoid).1
    simp [Mode.after, hname', hrawName, hvoidName]
  have hevent : ∀ beforeBlock, Event.ofToken extra ⟨.openTag, tagText name region ['>']⟩
      beforeBlock = .start (.markup name attributes [] false) := by
    intro beforeBlock
    show Event.start (Event.element extra _ false) = _
    rw [element_tagText hname hregion (Or.inl rfl), hvoid, Bool.false_or]
  exact run_token_after extra reader (token?_open hname hregion hword rest) hraw rfl
    (getLast?_tagText name region ['>'] rfl) hmodes (hevent _)

/-- A closing tag closes the element of its name. -/
theorem run_close (hname : plainName name = true) {modes : List Mode} (reader : Reader)
    (hmodes : reader.place.modes = .markup (Text.lower name) :: modes) (rest : Text) :
    ∃ reader', reader.run extra (closingTag name ++ rest) = reader'.run extra rest ∧
      After modes (reader.full.closeTag name) '>' reader' := by
  have hcode : Mode.inCode reader.place.modes = false := by rw [hmodes]; rfl
  have hname' := tagName_closingTag hname
  have hleave : Mode.after reader.place.modes ⟨.closeTag, closingTag name⟩ = modes := by
    rw [hmodes]
    simp [Mode.after, hname', Mode.leave]
  have hlast : (closingTag name).getLast? = some '>' := by
    rw [closingTag, List.getLast?_concat]
  have hevent : ∀ beforeBlock, Event.ofToken extra ⟨.closeTag, closingTag name⟩ beforeBlock =
      .closeTag name := by
    intro beforeBlock
    show Event.closeTag (tagName (closingTag name)) = _
    rw [hname']
  exact run_token_after extra reader (token?_close hname hcode rest) rfl rfl hlast hleave (hevent _)

end Tags

/-! ## Reading code -/

/-- A header without a block is attached. -/
theorem run_header (extra : List Text) {header u : Text} (hheader : plainHeader header = true)
    (hu : stopsHeader u = true) (reader : Reader)
    (hword : reader.place.follows Text.isWordChar = false)
    (hblock : Template.startsBlock (Segmentation.segmentFrom
      (reader.place.passToken ⟨.directive, header⟩) u).segments = false) :
    ∃ reader' last, reader.run extra (header ++ u) = reader'.run extra u ∧
      After reader.place.modes (reader.full.attach (.code header [] true)) last reader' := by
  have hlast := List.getLast?_eq_some_getLast (plainHeader_ne_nil hheader)
  have hevent : Event.ofToken extra ⟨.directive, header⟩ (Template.startsBlock
      (Segmentation.segmentFrom (reader.place.passToken ⟨.directive, header⟩) u).segments) =
        .start (.code header [] true) := by
    rw [hblock]
    rfl
  obtain ⟨reader', hrun, hafter⟩ := run_token_after extra reader (token?_header hheader hu hword)
    rfl rfl hlast rfl hevent
  exact ⟨reader', _, hrun, hafter⟩

/-- A header with its opening brace opens a directive and its block. -/
theorem run_directive (extra : List Text) {header gap : Text} (hheader : plainHeader header = true)
    (hgap : gap = [] ∨ gap = [' ']) (reader : Reader)
    (hword : reader.place.follows Text.isWordChar = false) (rest : Text) :
    ∃ reader', reader.run extra (header ++ (gap ++ '{' :: rest)) = reader'.run extra rest ∧
      After (.code :: reader.place.modes)
        ⟨reader.full.root, .code ['{'] [] false :: .code header [] false :: reader.full.stack⟩ '{'
          reader' := by
  have hblank : Text.allBlank gap = true := by rcases hgap with rfl | rfl <;> rfl
  have hstop : stopsHeader (gap ++ '{' :: rest) = true := by rcases hgap with rfl | rfl <;> rfl
  have hlast := List.getLast?_eq_some_getLast (plainHeader_ne_nil hheader)
  -- the header becomes an open node because a brace comes next
  have hevent : Event.ofToken extra ⟨.directive, header⟩ (Template.startsBlock
      (Segmentation.segmentFrom (reader.place.passToken ⟨.directive, header⟩)
        (gap ++ '{' :: rest)).segments) = .start (.code header [] false) := by
    have hbrace : Template.startsBlock (Segmentation.segmentFrom
        (reader.place.passToken ⟨.directive, header⟩) (gap ++ (['{'] ++ rest))).segments = true :=
      startsBlock_of_token hblank (List.cons_ne_nil '{' []) (token?_braceOpen _ rest)
    rw [List.singleton_append] at hbrace
    rw [hbrace]
    rfl
  obtain ⟨reader₁, hrun₁, hafter₁⟩ := run_token_after extra reader
    (token?_header hheader hstop hword) rfl rfl hlast rfl hevent
  -- what stands between header and brace is a blank gap
  have hfull₂ : (reader₁.passText gap).full = reader₁.scaffold := by
    rw [full, passText, hafter₁.gap_eq]
    rcases hgap with rfl | rfl <;> rfl
  obtain ⟨reader₃, hrun₃, hafter₃⟩ := run_token_after extra (reader₁.passText gap)
    (token?_braceOpen _ rest) rfl rfl List.getLast?_singleton rfl rfl
  refine ⟨reader₃, hrun₁.trans ((run_blanks hblank reader₁ _).trans hrun₃), ?_⟩
  have hmodes : (reader₁.passText gap).place.modes = reader.place.modes := hafter₁.modes_eq
  rw [hfull₂, hafter₁.scaffold_eq, hmodes] at hafter₃
  exact hafter₃

/-- An `@` with a brace opens a block. -/
theorem run_block (extra : List Text) (reader : Reader)
    (hword : reader.place.follows Text.isWordChar = false) (rest : Text) :
    ∃ reader', reader.run extra ('@' :: '{' :: rest) = reader'.run extra rest ∧
      After (.code :: reader.place.modes)
        ⟨reader.full.root, .code ['@', '{'] [] false :: reader.full.stack⟩ '{' reader' :=
  run_token_after extra reader (s := ['@', '{']) (token?_blockOpen hword rest) rfl rfl rfl rfl rfl

/-- A closing brace closes the innermost block. -/
theorem run_brace {modes : List Mode} (reader : Reader)
    (hmodes : reader.place.modes = .code :: modes) (rest : Text) :
    ∃ reader', reader.run extra ('}' :: rest) = reader'.run extra rest ∧
      After modes reader.full.closeBrace '}' reader' := by
  have hleave : Mode.after reader.place.modes ⟨.braceClose, ['}']⟩ = modes := by
    rw [hmodes]
    simp [Mode.after, Mode.leave]
  exact run_token_after extra reader (token?_braceClose _ rest) rfl rfl List.getLast?_singleton
    hleave rfl

/-! ## Reading forests -/

/-- The tree of `reader'` is that of `reader` with a forest attached that is `forest` up to the
blanks around its texts; the gap of `reader` comes before the forest. -/
def Attached (reader reader' : Reader) (forest : List Node) : Prop :=
  ∃ nodes, reader'.full = Scaffold.attachAll nodes reader.scaffold ∧
    Node.trimAll nodes = Node.trimAll (Template.gapNodes reader.gap false) ++ forest

theorem inDirective_full (reader : Reader) :
    reader.full.inDirective = reader.scaffold.inDirective := by
  rw [full, Scaffold.addGap_eq_attachAll, Scaffold.inDirective_attachAll]

section Steps

variable {reader₁ reader' : Reader} {blanks : Text} {modes : List Mode} {last : Char}

/-- After a node is attached, the reader is still not right inside a directive. -/
theorem After.inDirective_eq {node : Node}
    (hafter : After modes ((reader.passText blanks).full.attach node) last reader₁)
    (hdirective : reader.scaffold.inDirective = false) :
    reader₁.scaffold.inDirective = false := by
  rw [hafter.scaffold_eq, Scaffold.inDirective_attach, inDirective_full]
  exact hdirective

/-- After a gap with blanks and a node, the reader goes on with the nodes after it. -/
theorem Attached.cons {node : Node} {rest : List Node} (hblanks : Text.allBlank blanks = true)
    (hafter : After modes ((reader.passText blanks).full.attach node) last reader₁)
    (hrest : Attached reader₁ reader' rest) :
    Attached reader reader' (node.trimTexts :: rest) := by
  obtain ⟨nodes, hfull, htrim⟩ := hrest
  have hscaffold : reader₁.scaffold =
      Scaffold.attachAll (Template.gapNodes (reader.gap ++ blanks) false ++ [node])
        reader.scaffold := by
    rw [hafter.scaffold_eq, Scaffold.attachAll_append, full, Scaffold.addGap_eq_attachAll]
    rfl
  refine ⟨Template.gapNodes (reader.gap ++ blanks) false ++ [node] ++ nodes, ?_, ?_⟩
  · rw [hfull, hscaffold, ← Scaffold.attachAll_append]
  · rw [hafter.gap_eq, Node.trimAll_gapNodes_blank allBlank_nil, List.nil_append] at htrim
    rw [Node.trimAll_append, Node.trimAll_append, Node.trimAll_gapNodes_append hblanks, htrim]
    simp [Node.trimAll]

/-- Right after a token, what is attached is the forest itself. -/
theorem Attached.exists_nodes {scaffold : Scaffold} {forest : List Node}
    (hafter : After modes scaffold last reader) (h : Attached reader reader' forest) :
    ∃ nodes, reader'.full = Scaffold.attachAll nodes scaffold ∧ Node.trimAll nodes = forest := by
  obtain ⟨nodes, hfull, htrim⟩ := h
  rw [hafter.gap_eq, Node.trimAll_gapNodes_blank allBlank_nil, List.nil_append] at htrim
  rw [hafter.scaffold_eq] at hfull
  exact ⟨nodes, hfull, htrim⟩

end Steps

end Reader

/-! ## Reading node by node -/

section Nodes

variable {extra : List Text} {inBlock : Bool} {forest nodes children : List Node} {t : Text}

/-- What a reader must be in front of a written form: no word goes on there unless the line ends,
its gap does not go on with text, and it is not right inside a directive. -/
structure Reader.Ready (inBlock : Bool) (forest : List Node) (t : Text) (reader : Reader) :
    Prop where
  modes : Mode.inCode reader.place.modes = inBlock
  word : reader.place.follows Text.isWordChar = true → endsLine t = true
  gap : Text.allBlank reader.gap = true ∨ startsWithText forest = false
  directive : reader.scaffold.inDirective = false

/-- Right after a tag or a brace a reader is ready. -/
theorem Reader.After.ready {modes : List Mode} {scaffold : Scaffold} {last : Char} {reader : Reader}
    (hafter : After modes scaffold last reader) (hlast : last ∈ ['<', '>', '{', '}'])
    (hmodes : Mode.inCode modes = inBlock) (hdirective : scaffold.inDirective = false) :
    reader.Ready inBlock forest t where
  modes := by rw [hafter.modes_eq, hmodes]
  word h := by
    rw [hafter.follows_eq hlast] at h
    cases h
  gap := Or.inl (by rw [hafter.gap_eq]; rfl)
  directive := by rw [hafter.scaffold_eq, hdirective]

/-- So it is where the tag or brace closed a node. -/
theorem Reader.After.ready_attach {modes : List Mode} {blanks : Text} {node : Node} {last : Char}
    {reader reader₁ : Reader}
    (hafter : After modes ((reader.passText blanks).full.attach node) last reader₁)
    (hlast : last ∈ ['<', '>', '{', '}']) (hmodes : Mode.inCode modes = inBlock)
    (hdirective : reader.scaffold.inDirective = false) : reader₁.Ready inBlock forest t := by
  apply hafter.ready hlast hmodes
  rw [← hafter.scaffold_eq]
  exact hafter.inDirective_eq hdirective

/-- Every reader that is ready goes through the text `t`, attaches the settled forest and is in the
same modes after it, whatever end comes next. -/
def Reads (extra : List Text) (inBlock : Bool) (forest : List Node) (t : Text) : Prop :=
  ∀ (reader : Reader) (rest : Text), reader.Ready inBlock forest t → Ends inBlock rest →
    ∃ reader', reader.run extra (t ++ rest) = reader'.run extra rest ∧
      reader'.place.modes = reader.place.modes ∧
        reader.Attached reader' (Node.settleAll forest)

theorem reads_nil {blanks : Text} (hblanks : Text.allBlank blanks = true) :
    Reads extra inBlock [] blanks := by
  intro reader rest _ _
  refine ⟨reader.passText blanks, Reader.run_blanks hblanks reader rest, rfl,
    Template.gapNodes (reader.gap ++ blanks) false, ?_, ?_⟩
  · exact Scaffold.addGap_eq_attachAll _ _ _
  · rw [Node.trimAll_gapNodes_append hblanks, Node.settleAll, List.append_nil]

variable {blanks : Text} (hblanks : Text.allBlank blanks = true)

include hblanks

/-- Blanks and text go into the gap, which the next token attaches. -/
theorem reads_text {content : Text} (hcontent : plainText content = true)
    (hnodes : startsWithText nodes = false) (hend : endsLine t = true)
    (ih : Reads extra false nodes t) :
    Reads extra false (.text content :: nodes) (blanks ++ (content ++ t)) := by
  intro reader rest hready hrest
  have hgap : Text.allBlank reader.gap = true := by
    rcases hready.gap with hgap | hstart
    · exact hgap
    · cases hstart
  have hpass := Place.passesOver_plainText hcontent (reader.passText blanks).place hready.modes
    (head?_of_endsLine hend hrest)
  have hrun : reader.run extra (blanks ++ (content ++ t) ++ rest) =
      ((reader.passText blanks).passText content).run extra (t ++ rest) := by
    rw [List.append_assoc, List.append_assoc, Reader.run_blanks hblanks,
      Reader.run_passesOver hpass]
  obtain ⟨reader', hrun', hmodes', nodes', hfull, htrim⟩ :=
    ih ((reader.passText blanks).passText content) rest
      ⟨hready.modes, fun _ => hend, Or.inr hnodes, hready.directive⟩ hrest
  have hblank : Text.allBlank (reader.gap ++ blanks) = true := by
    rw [allBlank_append, hgap, hblanks]
    rfl
  refine ⟨reader', hrun.trans hrun', hmodes', nodes', hfull, ?_⟩
  rw [htrim, Node.trimAll_gapNodes_blank hgap, List.nil_append]
  show Node.trimAll (Template.gapNodes (reader.gap ++ blanks ++ content) false) ++ _ = _
  rw [Node.trimAll_gapNodes_plainText hblank hcontent]
  rfl

theorem reads_closed {name region : Text} {attributes : AttributeMap}
    (hname : plainName name = true) (hregion : RegionWritten attributes.entries region)
    (ih : Reads extra inBlock nodes t) :
    Reads extra inBlock (.markup name attributes [] true :: nodes)
      (blanks ++ ('<' :: (name ++ (region ++ ('/' :: '>' :: t))))) := by
  intro reader rest hready hrest
  have hword := Place.follows_passText hblanks (by decide) hready.word
  obtain ⟨reader₁, hrun₁, hafter₁⟩ := Reader.run_closed hname hregion (reader.passText blanks)
    hword (t ++ rest)
  obtain ⟨reader', hrun', hmodes', hattached⟩ := ih reader₁ rest
    (hafter₁.ready_attach (by simp) hready.modes hready.directive) hrest
  refine ⟨reader', ?_, hmodes'.trans hafter₁.modes_eq, hattached.cons hblanks hafter₁⟩
  rw [← hrun', ← hrun₁, ← Reader.run_blanks hblanks]
  simp [tagText]

/-- The children of an element are read between its tags. -/
theorem reads_element {name region body : Text} {attributes : AttributeMap}
    (hname : plainName name = true) (hregion : RegionWritten attributes.entries region)
    (hvoid : isVoidWith extra name = false) (ihc : Reads extra false children body)
    (ih : Reads extra inBlock nodes t) :
    Reads extra inBlock (.markup name attributes children false :: nodes)
      (blanks ++ ('<' :: (name ++ (region ++ ('>' :: (body ++ (closingTag name ++ t))))))) := by
  intro reader rest hready hrest
  have hword := Place.follows_passText hblanks (by decide) hready.word
  obtain ⟨reader₁, hrun₁, hafter₁⟩ := Reader.run_open hname hregion hvoid
    (reader.passText blanks) hword (body ++ (closingTag name ++ (t ++ rest)))
  obtain ⟨reader₂, hrun₂, hmodes₂, hinner⟩ := ihc reader₁ (closingTag name ++ (t ++ rest))
    (hafter₁.ready (by simp) rfl rfl) (.element _ hname)
  obtain ⟨inner, hfull₂, htrim₂⟩ := Reader.Attached.exists_nodes hafter₁ hinner
  -- the element is still the innermost open node when its closing tag comes
  obtain ⟨reader₃, hrun₃, hafter₃⟩ := Reader.run_close hname reader₂
    (hmodes₂.trans hafter₁.modes_eq) (t ++ rest)
  rw [hfull₂, Scaffold.attachAll_markup, List.nil_append, Scaffold.closeTag_markup] at hafter₃
  obtain ⟨reader', hrun', hmodes', hattached⟩ := ih reader₃ rest
    (hafter₃.ready_attach (by simp) hready.modes hready.directive) hrest
  have hnode : (Node.markup name attributes inner false).trimTexts =
      (Node.markup name attributes children false).settle := by
    rw [Node.trimTexts, Node.settle, htrim₂]
  refine ⟨reader', ?_, hmodes'.trans hafter₃.modes_eq, ?_⟩
  · rw [← hrun', ← hrun₃, ← hrun₂, ← hrun₁, ← Reader.run_blanks hblanks]
    simp [tagText]
  · rw [Node.settleAll, ← hnode]
    exact hattached.cons hblanks hafter₃

/-- A header sees no block ahead and closes itself. -/
theorem reads_header {header : Text} (hheader : plainHeader header = true)
    (hnodes : startsWithBlock nodes = false) (hend : endsLine t = true)
    (hwritten : Written extra inBlock nodes t) (ih : Reads extra inBlock nodes t) :
    Reads extra inBlock (.code header [] true :: nodes) (blanks ++ (header ++ t)) := by
  intro reader rest hready hrest
  have hword := Place.follows_passText_header hblanks hheader hready.word
  have hblock : Template.startsBlock (Segmentation.segmentFrom ((reader.passText
      blanks).place.passToken ⟨.directive, header⟩) (t ++ rest)).segments = false :=
    hwritten.startsBlock_eq hnodes hready.modes (fun _ => hend) hrest
  obtain ⟨reader₁, last, hrun₁, hafter₁⟩ := Reader.run_header extra hheader
    (stopsHeader_of_endsLine hend hrest) (reader.passText blanks) hword hblock
  -- the header may end with a word, but the line ends after it
  have hready₁ : reader₁.Ready inBlock nodes t :=
    ⟨by rw [hafter₁.modes_eq]; exact hready.modes, fun _ => hend,
      Or.inl (by rw [hafter₁.gap_eq]; rfl), hafter₁.inDirective_eq hready.directive⟩
  obtain ⟨reader', hrun', hmodes', hattached⟩ := ih reader₁ rest hready₁ hrest
  refine ⟨reader', ?_, hmodes'.trans hafter₁.modes_eq, hattached.cons hblanks hafter₁⟩
  rw [← hrun', ← hrun₁, ← Reader.run_blanks hblanks]
  simp

/-- The children of a block are read in code, up to its brace. -/
theorem reads_block {body : Text} (ihc : Reads extra true children body)
    (ih : Reads extra inBlock nodes t) :
    Reads extra inBlock (.code ['@', '{'] children false :: nodes)
      (blanks ++ ('@' :: '{' :: (body ++ ('}' :: t)))) := by
  intro reader rest hready hrest
  have hword := Place.follows_passText hblanks (by decide) hready.word
  obtain ⟨reader₁, hrun₁, hafter₁⟩ := Reader.run_block extra (reader.passText blanks)
    hword (body ++ '}' :: (t ++ rest))
  obtain ⟨reader₂, hrun₂, hmodes₂, hinner⟩ := ihc reader₁ ('}' :: (t ++ rest))
    (hafter₁.ready (by simp) rfl rfl) (.block _)
  obtain ⟨inner, hfull₂, htrim₂⟩ := Reader.Attached.exists_nodes hafter₁ hinner
  obtain ⟨reader₃, hrun₃, hafter₃⟩ := Reader.run_brace reader₂
    (hmodes₂.trans hafter₁.modes_eq) (t ++ rest)
  -- a directive around the block would be closed with it, but there is none
  have hdirective : Scaffold.inDirective ⟨(reader.passText blanks).full.root,
      (reader.passText blanks).full.stack⟩ = false :=
    (Reader.inDirective_full _).trans hready.directive
  rw [hfull₂, Scaffold.attachAll_code, List.nil_append,
    Scaffold.closeBrace_lone _ _ _ _ (by decide) hdirective] at hafter₃
  obtain ⟨reader', hrun', hmodes', hattached⟩ := ih reader₃ rest
    (hafter₃.ready_attach (by simp) hready.modes hready.directive) hrest
  have hnode : (Node.code ['@', '{'] inner false).trimTexts =
      (Node.code ['@', '{'] children false).settle := by
    rw [Node.trimTexts, settle_block (Or.inr rfl), htrim₂]
  refine ⟨reader', ?_, hmodes'.trans hafter₃.modes_eq, ?_⟩
  · rw [← hrun', ← hrun₃, ← hrun₂, ← hrun₁, ← Reader.run_blanks hblanks]
    simp
  · rw [Node.settleAll, ← hnode]
    exact hattached.cons hblanks hafter₃

/-- A header goes up to the brace of its block, and takes an `@` that stands before the brace. -/
theorem reads_directive {header opener body : Text} (hheader : plainHeader header = true)
    (hopener : plainOpener header opener = true) (ihc : Reads extra true children body)
    (ih : Reads extra inBlock nodes t) :
    Reads extra inBlock (.code header [.code opener children false] false :: nodes)
      (blanks ++ (header ++ (' ' :: (opener ++ (body ++ ('}' :: t)))))) := by
  intro reader rest hready hrest
  have hword := Place.follows_passText_header hblanks hheader hready.word
  obtain ⟨header', gap, hheader', hgap, hshape, hsettle⟩ := exists_settleCode hheader hopener
  obtain ⟨reader₁, hrun₁, hafter₁⟩ := Reader.run_directive extra hheader' hgap
    (reader.passText blanks) hword (body ++ '}' :: (t ++ rest))
  obtain ⟨reader₂, hrun₂, hmodes₂, hinner⟩ := ihc reader₁ ('}' :: (t ++ rest))
    (hafter₁.ready (by simp) rfl rfl) (.block _)
  obtain ⟨inner, hfull₂, htrim₂⟩ := Reader.Attached.exists_nodes hafter₁ hinner
  -- the brace closes the block and the directive around it
  obtain ⟨reader₃, hrun₃, hafter₃⟩ := Reader.run_brace reader₂
    (hmodes₂.trans hafter₁.modes_eq) (t ++ rest)
  rw [hfull₂, Scaffold.attachAll_code, List.nil_append,
    Scaffold.closeBrace_block _ _ _ _ _ _ (by decide) (plainHeader_keyword hheader').2.2,
    List.nil_append] at hafter₃
  obtain ⟨reader', hrun', hmodes', hattached⟩ := ih reader₃ rest
    (hafter₃.ready_attach (by simp) hready.modes hready.directive) hrest
  have hnode : (Node.code header' [.code ['{'] inner false] false).trimTexts =
      (Node.code header [.code opener children false] false).settle := by
    rw [settle_directive (plainOpener_braces hopener), hsettle, ← htrim₂]
    rfl
  refine ⟨reader', ?_, hmodes'.trans hafter₃.modes_eq, ?_⟩
  · rw [← hrun', ← hrun₃, ← hrun₂, ← hrun₁, ← hshape, ← Reader.run_blanks hblanks]
    simp
  · rw [Node.settleAll, ← hnode]
    exact hattached.cons hblanks hafter₃

omit hblanks

/-- Written forms are read as their settled forests. -/
theorem Written.reads (h : Written extra inBlock forest t) : Reads extra inBlock forest t := by
  induction h with
  | nil hblanks => exact reads_nil hblanks
  | text hblanks hcontent hnodes hend _ ih => exact reads_text hblanks hcontent hnodes hend ih
  | closed hblanks hname hregion _ ih => exact reads_closed hblanks hname hregion ih
  | element hblanks hname hregion hvoid _ _ ihc ih =>
    exact reads_element hblanks hname hregion hvoid ihc ih
  | header hblanks hheader hnodes hend hwritten ih =>
    exact reads_header hblanks hheader hnodes hend hwritten ih
  | block hblanks _ _ ihc ih => exact reads_block hblanks ihc ih
  | directive hblanks hheader hopener _ _ ihc ih =>
    exact reads_directive hblanks hheader hopener ihc ih

end Nodes

end RazorTidy
