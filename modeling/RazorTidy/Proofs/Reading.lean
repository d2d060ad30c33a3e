import RazorTidy.Proofs.Listing

/-!
# Reading step by step

Reading a template cuts all of it into segments and then builds the tree from them. This module puts
the two together as a machine that goes through the text once: a `Reader` holds the place, the kind
of the last token, the text since that token and the tree so far. Passing over text makes the gap
longer (`Reader.run_passesOver`), and a token adds the gap and its own event to the tree
(`Reader.run_token`). `Reader.parseBody_eq` says that the machine reads templates.

So a fact about a piece of a template can be stated for every reader in front of the piece and every
text after it.
-/

set_option autoImplicit false

namespace RazorTidy

/-! ## Attaching forests -/

namespace Scaffold

/-- The scaffold with finished nodes added one after the other. -/
def attachAll (nodes : List Node) (s : Scaffold) : Scaffold :=
  nodes.foldl (fun s node => s.attach node) s

theorem attachAll_append (as bs : List Node) (s : Scaffold) :
    attachAll (as ++ bs) s = attachAll bs (attachAll as s) :=
  List.foldl_append

/-- Without open nodes the nodes are added to the root. -/
theorem attachAll_root (nodes root : List Node) :
    attachAll nodes ⟨root, []⟩ = ⟨root ++ nodes, []⟩ := by
  induction nodes generalizing root with
  | nil => rw [List.append_nil]; rfl
  | cons node rest ih =>
    show attachAll rest ⟨root ++ [node], []⟩ = _
    rw [ih, List.append_assoc, List.singleton_append]

/-- Nodes are added to the children of an open element. -/
theorem attachAll_markup (nodes root below : List Node) (name : Text) (attributes : AttributeMap)
    (children : List Node) (selfClosing : Bool) :
    attachAll nodes ⟨root, .markup name attributes children selfClosing :: below⟩ =
      ⟨root, .markup name attributes (children ++ nodes) selfClosing :: below⟩ := by
  induction nodes generalizing children with
  | nil => rw [List.append_nil]; rfl
  | cons node rest ih =>
    show attachAll rest
      ⟨root, .markup name attributes (children ++ [node]) selfClosing :: below⟩ = _
    rw [ih, List.append_assoc, List.singleton_append]

/-- Nodes are added to the children of open code. -/
theorem attachAll_code (nodes root below : List Node) (keyword : Text) (children : List Node)
    (selfClosing : Bool) :
    attachAll nodes ⟨root, .code keyword children selfClosing :: below⟩ =
      ⟨root, .code keyword (children ++ nodes) selfClosing :: below⟩ := by
  induction nodes generalizing children with
  | nil => rw [List.append_nil]; rfl
  | cons node rest ih =>
    show attachAll rest ⟨root, .code keyword (children ++ [node]) selfClosing :: below⟩ = _
    rw [ih, List.append_assoc, List.singleton_append]

theorem addGap_eq_attachAll (gap : Text) (between : Bool) (s : Scaffold) :
    s.addGap gap between = attachAll (Template.gapNodes gap between) s := by
  cases gap with
  | nil => rfl
  | cons c r =>
    simp only [addGap, Template.gapNodes, List.isEmpty_cons, Bool.false_eq_true, if_false,
      Bool.not_false, Bool.true_and]
    split
    · rfl
    · split <;> rfl

/-- The end of an element, in any ASCII case, closes it where it is the innermost open node. -/
theorem closeTag_sameName {name closing : Text} (h : Text.sameName name closing = true)
    (root below : List Node) (attributes : AttributeMap) (children : List Node)
    (selfClosing : Bool) :
    closeTag closing ⟨root, .markup name attributes children selfClosing :: below⟩ =
      attach (.markup name attributes children selfClosing) ⟨root, below⟩ := by
  have hfind : (Node.markup name attributes children selfClosing :: below).findIdx?
      (·.isElement closing) = some 0 := by
    rw [List.findIdx?_cons, if_pos]
    exact h
  rw [closeTag, hfind]
  rfl

theorem closeTag_markup (root below : List Node) (name : Text) (attributes : AttributeMap)
    (children : List Node) (selfClosing : Bool) :
    closeTag name ⟨root, .markup name attributes children selfClosing :: below⟩ =
      attach (.markup name attributes children selfClosing) ⟨root, below⟩ :=
  closeTag_sameName (Text.sameName_refl name) root below attributes children selfClosing

/-- The end of a brace block closes it where it is the innermost open node, and then the directive
around it. -/
theorem closeBrace_block (root below : List Node) (keyword keyword' : Text)
    (children children' : List Node) (hblock : CodeKind.ofKeyword keyword = .block)
    (hdirective : CodeKind.ofKeyword keyword' = .directive) :
    closeBrace ⟨root, .code keyword children false :: .code keyword' children' false :: below⟩ =
      attach (.code keyword' (children' ++ [.code keyword children false]) false)
        ⟨root, below⟩ := by
  have hfind : (Node.code keyword children false :: .code keyword' children' false ::
      below).findIdx? (·.isCode .block) = some 0 := by
    rw [List.findIdx?_cons, if_pos]
    simp [Node.isCode, hblock]
  have hclosed : closeMany (0 + 1)
      ⟨root, .code keyword children false :: .code keyword' children' false :: below⟩ =
        ⟨root, .code keyword' (children' ++ [.code keyword children false]) false :: below⟩ := rfl
  rw [closeBrace, hfind]
  simp only [hclosed]
  rw [if_pos (by simp [Node.isCode, hdirective])]
  rfl

/-- Whether the innermost open node is a directive. -/
def inDirective (s : Scaffold) : Bool := s.stack.head?.any (·.isCode .directive)

theorem inDirective_attach (node : Node) (s : Scaffold) :
    (s.attach node).inDirective = s.inDirective := by
  rcases s with ⟨root, _ | ⟨top, below⟩⟩
  · rfl
  · cases top <;> rfl

theorem inDirective_attachAll (nodes : List Node) (s : Scaffold) :
    (attachAll nodes s).inDirective = s.inDirective := by
  induction nodes generalizing s with
  | nil => rfl
  | cons node rest ih =>
    show (attachAll rest (s.attach node)).inDirective = _
    rw [ih, inDirective_attach]

/-- The end of a brace block without a directive around it closes the block. -/
theorem closeBrace_lone (root below : List Node) (keyword : Text) (children : List Node)
    (hblock : CodeKind.ofKeyword keyword = .block)
    (hbelow : inDirective ⟨root, below⟩ = false) :
    closeBrace ⟨root, .code keyword children false :: below⟩ =
      attach (.code keyword children false) ⟨root, below⟩ := by
  have hfind : (Node.code keyword children false :: below).findIdx? (·.isCode .block) =
      some 0 := by
    rw [List.findIdx?_cons, if_pos]
    simp [Node.isCode, hblock]
  have hclosed : closeMany (0 + 1) ⟨root, .code keyword children false :: below⟩ =
      attach (.code keyword children false) ⟨root, below⟩ := rfl
  have houter : (attach (.code keyword children false) ⟨root, below⟩).inDirective = false := by
    rw [inDirective_attach, hbelow]
  rw [inDirective] at houter
  rw [closeBrace, hfind]
  simp only [hclosed, houter, Bool.false_eq_true, if_false]

end Scaffold

/-! ## Readers -/

/-- What the reading of a template has come to. -/
structure Reader where
  /-- The place in front of the text that is left. -/
  place : Place
  /-- The kind of the last token. -/
  previous : Option TokenKind
  /-- The text since the last token. -/
  gap : Text
  /-- The tree so far, without the gap. -/
  scaffold : Scaffold

namespace Reader

/-- The reader in front of a template. -/
def start : Reader := ⟨.start, none, [], .empty⟩

/-- The tree after the text that is left. -/
def run (extra : List Text) (reader : Reader) (t : Text) : Scaffold :=
  let cut := (Segmentation.segmentFrom reader.place t).consText reader.gap
  (Template.build extra reader.previous cut.segments reader.scaffold).addGap cut.tail false

/-- The reader after a piece of text without tokens. -/
def passText (piece : Text) (reader : Reader) : Reader :=
  { reader with
    place := reader.place.passText piece
    gap := reader.gap ++ piece }

/-- The reader after a token, where `beforeBlock` says that an opening brace comes next. -/
def passToken (extra : List Text) (token : Token) (beforeBlock : Bool) (reader : Reader) :
    Reader where
  place := reader.place.passToken token
  previous := some token.kind
  gap := []
  scaffold :=
    (reader.scaffold.addGap reader.gap
      (reader.previous == some .expression && token.kind == .expression)).apply
        (Event.ofToken extra token beforeBlock)

end Reader

namespace Segmentation

theorem consText_consText (s t : Text) (cut : Segmentation) :
    consText s (consText t cut) = consText (s ++ t) cut := by
  rcases cut with ⟨_ | ⟨first, rest⟩, tail⟩
  · simp [consText]
  · simp [consText]

theorem consText_nil (cut : Segmentation) : consText [] cut = cut := by
  rcases cut with ⟨_ | ⟨first, rest⟩, tail⟩ <;> rfl

/-- Where there is no token, the text to pass over goes into the gap. -/
theorem segmentFrom_text {place : Place} {piece rest : Text} (hne : piece ≠ [])
    (htoken : place.token? (piece ++ rest) = none)
    (hlength : place.textLength (piece ++ rest) = piece.length) :
    segmentFrom place (piece ++ rest) =
      consText piece (segmentFrom (place.passText piece) rest) := by
  cases piece with
  | nil => exact absurd rfl hne
  | cons c r =>
    rw [List.cons_append] at *
    rw [segmentFrom, htoken]
    simp only [hlength, List.length_cons, Nat.add_sub_cancel]
    rw [List.take_left, List.drop_left]

/-- A token without raw text after it is cut off. -/
theorem segmentFrom_token {place : Place} {kind : TokenKind} {s rest : Text} (hne : s ≠ [])
    (htoken : place.token? (s ++ rest) = some (kind, s.length))
    (hraw : rawTextLength ⟨kind, s⟩ rest = 0) :
    segmentFrom place (s ++ rest) =
      consToken ⟨kind, s⟩ (segmentFrom (place.passToken ⟨kind, s⟩) rest) := by
  cases s with
  | nil => exact absurd rfl hne
  | cons c r =>
    rw [List.cons_append] at *
    rw [segmentFrom, htoken]
    simp only [List.length_cons, Nat.add_sub_cancel]
    rw [List.take_left, List.drop_left, hraw]
    -- passing over no text leaves the place as it is
    have hplace : ((place.passToken ⟨kind, c :: r⟩).passText (rest.take 0)) =
        place.passToken ⟨kind, c :: r⟩ := by
      simp [Place.passText, Text.allBlank]
    rw [hplace, List.take_zero, List.drop_zero, consText_nil]

end Segmentation

/-! ## Passing over text -/

/-- Whether a text at a place, with the text `rest` after it, goes into the gap as a whole. -/
def Place.PassesOver (place : Place) (s rest : Text) : Prop :=
  Segmentation.segmentFrom place (s ++ rest) =
    Segmentation.consText s (Segmentation.segmentFrom (place.passText s) rest)

namespace Place

variable {place : Place}

theorem passText_nil (place : Place) : place.passText [] = place := by
  rcases place with ⟨modes, previous, afterBrace⟩
  simp [passText, Text.allBlank]

theorem passText_append (s t : Text) (place : Place) :
    (place.passText s).passText t = place.passText (s ++ t) := by
  rcases place with ⟨modes, previous, afterBrace⟩
  simp [passText, Text.allBlank, List.getLast?_append, Option.or_assoc, Bool.and_assoc]

theorem passesOver_nil (place : Place) (rest : Text) : place.PassesOver [] rest := by
  rw [PassesOver, passText_nil, Segmentation.consText_nil, List.nil_append]

/-- A character without a token goes into the gap, and what is passed over after it. -/
theorem PassesOver.cons {c : Char} {r rest : Text} (htoken : place.token? (c :: (r ++ rest)) = none)
    (hlength : place.textLength (c :: (r ++ rest)) = 1)
    (hr : (place.passText [c]).PassesOver r rest) : place.PassesOver (c :: r) rest := by
  have hstep : Segmentation.segmentFrom place ([c] ++ (r ++ rest)) =
      Segmentation.consText [c] (Segmentation.segmentFrom (place.passText [c]) (r ++ rest)) :=
    Segmentation.segmentFrom_text (List.cons_ne_nil c []) htoken hlength
  rw [PassesOver] at hr ⊢
  rw [List.cons_append]
  show Segmentation.segmentFrom place ([c] ++ (r ++ rest)) = _
  rw [hstep, hr, Segmentation.consText_consText, passText_append]
  rfl

theorem PassesOver.append {s t rest : Text} (hs : place.PassesOver s (t ++ rest))
    (ht : (place.passText s).PassesOver t rest) : place.PassesOver (s ++ t) rest := by
  rw [PassesOver] at hs ht ⊢
  rw [List.append_assoc, hs, ht, Segmentation.consText_consText, passText_append]

end Place

/-! ## Running readers -/

namespace Reader

variable {extra : List Text} {reader : Reader}

theorem run_nil (extra : List Text) (reader : Reader) :
    reader.run extra [] = reader.scaffold.addGap reader.gap false := by
  rw [run, Segmentation.segmentFrom]
  show Scaffold.addGap (reader.gap ++ []) false reader.scaffold = _
  rw [List.append_nil]

/-- Text that is passed over is added to the gap. -/
theorem run_passesOver {s rest : Text} (h : reader.place.PassesOver s rest) :
    reader.run extra (s ++ rest) = (reader.passText s).run extra rest := by
  rw [run, show Segmentation.segmentFrom reader.place (s ++ rest) = _ from h,
    Segmentation.consText_consText]
  rfl

/-- A token adds the gap and its event to the tree. -/
theorem run_token {kind : TokenKind} {s rest : Text} (hne : s ≠ [])
    (htoken : reader.place.token? (s ++ rest) = some (kind, s.length))
    (hraw : rawTextLength ⟨kind, s⟩ rest = 0) :
    reader.run extra (s ++ rest) =
      (reader.passToken extra ⟨kind, s⟩ (Template.startsBlock
        (Segmentation.segmentFrom (reader.place.passToken ⟨kind, s⟩) rest).segments)).run extra
          rest := by
  rw [run, Segmentation.segmentFrom_token hne htoken hraw, run]
  have hgap : (Segmentation.consToken ⟨kind, s⟩ (Segmentation.segmentFrom
      (reader.place.passToken ⟨kind, s⟩) rest)).consText reader.gap =
        ⟨⟨reader.gap ++ [], ⟨kind, s⟩⟩ :: (Segmentation.segmentFrom
          (reader.place.passToken ⟨kind, s⟩) rest).segments, (Segmentation.segmentFrom
            (reader.place.passToken ⟨kind, s⟩) rest).tail⟩ := rfl
  rw [hgap, List.append_nil]
  simp only [Template.build]
  rw [show (passToken extra ⟨kind, s⟩ _ reader).gap = [] from rfl, Segmentation.consText_nil]
  rfl

/-- Templates without a code section are read by the machine. -/
theorem parseBody_eq {body : Text} {nodes : List Node}
    (hrun : (start.run extra body).finish = nodes) (hne : nodes ≠ []) :
    Template.parseBody extra body = nodes := by
  have hcut : (Segmentation.segment body).consText [] = Segmentation.segment body :=
    Segmentation.consText_nil _
  have hscaffold : start.run extra body =
      (Template.build extra none (Segmentation.segment body).segments Scaffold.empty).addGap
        (Segmentation.segment body).tail false := by
    conv => rhs; rw [← hcut]
    rfl
  rw [hscaffold] at hrun
  cases nodes with
  | nil => exact absurd rfl hne
  | cons node rest =>
    rw [Template.parseBody]
    simp only [hrun]

end Reader

end RazorTidy
