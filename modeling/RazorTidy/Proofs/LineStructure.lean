import RazorTidy.Proofs.Isolation
import RazorTidy.Proofs.LineBlocks
import RazorTidy.Proofs.Printable
import RazorTidy.Proofs.WellFormed

/-!
# The line structure of formatted templates

A formatted template is empty or ends with one line break. No line of it ends with a space, it does
not start with a line break, and apart from its code section no two blank lines follow each other
(`Style.lineStructure_format`).

The layout of each node that stands alone is solid (`Node.solid_doc`): it may follow any line
breaks, its own ones never come to more than two in a row, and it ends with something visible. This
rests on what reading a template gives: nodes that are printable, and no blank text at the end of a
run of inline nodes.
-/

set_option autoImplicit false

namespace RazorTidy

/-! ## Inline nodes -/

/-- A text at the end of its run ends a run of line breaks unless it is blank. -/
theorem breaksAfter_textDoc (container : Container) (atStart atEnd : Bool) (content : Text)
    {k : Nat} (hk : k ≤ 2) :
    ∃ k', k' ≤ 2 ∧ (textDoc container atStart atEnd content).breaksAfter k = some k' ∧
      (atEnd = true → Text.allBlank content = false → k' = 0) := by
  rw [textDoc]
  dsimp only
  split
  · rename_i hcore
    have hblank : Text.allBlank content = true :=
      (Text.trim_eq_nil_iff content).1 (List.isEmpty_iff.1 hcore)
    have hlast : atEnd = true → Text.allBlank content = false → k = 0 := by
      intro _ h
      rw [hblank] at h
      cases h
    split
    · exact ⟨k, hk, Doc.breaksAfter_nil k, hlast⟩
    · exact ⟨k, hk, Doc.breaksAfter_space k, hlast⟩
  · rename_i hcore
    have hvisible : Text.allBlank (Text.trim content) = false := by
      rw [← Bool.not_eq_true, ← Text.trim_eq_nil_iff, Text.trim_trim, ← List.isEmpty_iff]
      exact hcore
    have hleading : ∀ b : Bool,
        (if b then Doc.ofText [' '] else Doc.nil).breaksAfter k = some k := by
      intro b
      cases b with
      | false => exact Doc.breaksAfter_nil k
      | true => exact Doc.breaksAfter_space k
    rw [Doc.breaksAfter_seq, Doc.breaksAfterAll, hleading, Option.bind_some,
      (solid_blockDoc hvisible).breaksAfterAll hk, Doc.breaksAfterAll_singleton]
    split
    · exact ⟨0, by decide, Doc.breaksAfter_nil 0, fun _ _ => rfl⟩
    · rename_i hend
      have hlast : atEnd = false := by
        cases atEnd with
        | false => rfl
        | true => exact absurd rfl hend
      split
      · exact ⟨1, by decide, Doc.breaksAfter_hardLine (by decide), fun h => by simp [hlast] at h⟩
      · exact ⟨0, by decide, Doc.breaksAfter_space 0, fun _ _ => rfl⟩

namespace Inline

/-- A run of inline nodes whose expressions and whose last piece are visible. -/
structure Tangible (run : List Inline) : Prop where
  expressions : ∀ keyword, .expression keyword ∈ run → Text.allBlank keyword = false
  last : ∃ piece, run.getLast? = some piece ∧ Text.allBlank piece.source = false

theorem Tangible.cons {piece : Inline} {run : List Inline}
    (hpiece : ∀ keyword, piece = .expression keyword → Text.allBlank keyword = false)
    (h : Tangible run) : Tangible (piece :: run) where
  expressions := by
    intro keyword hmem
    rcases List.mem_cons.1 hmem with heq | hmem
    · exact hpiece keyword heq.symm
    · exact h.expressions keyword hmem
  last := by
    obtain ⟨final, hfinal, hvisible⟩ := h.last
    refine ⟨final, ?_, hvisible⟩
    rw [List.getLast?_cons, hfinal]
    rfl

theorem tangible_singleton {piece : Inline} (h : Text.allBlank piece.source = false) :
    Tangible [piece] where
  expressions := by
    intro keyword hmem
    rw [← List.mem_singleton.1 hmem] at h
    exact h
  last := ⟨piece, rfl, h⟩

/-- The layout of a run is solid. -/
theorem Tangible.solid_runDoc {run : List Inline} (h : Tangible run) (container : Container) :
    (runDoc container run).Solid := by
  -- the induction is on the run; pieces before the last keep at most two line breaks
  have hdocs : ∀ (run : List Inline) (atStart : Bool) (k : Nat), Tangible run → k ≤ 2 →
      Doc.breaksAfterAll k (docs container atStart run) = some 0 := by
    intro run
    induction run with
    | nil =>
      rintro atStart k ⟨-, piece, hlast, -⟩ hk
      cases hlast
    | cons piece rest ih =>
      intro atStart k htangible hk
      obtain ⟨final, hfinal, hvisible⟩ := htangible.last
      have hexpression : ∀ keyword, piece = .expression keyword →
          (blockDoc keyword).Solid := fun keyword heq =>
        solid_blockDoc (htangible.expressions keyword (heq ▸ List.mem_cons_self))
      rw [docs, Doc.breaksAfterAll]
      cases rest with
      | nil =>
        cases hfinal
        cases piece with
        | expression keyword =>
          rw [doc, hexpression keyword rfl k hk]
          rfl
        | text content =>
          obtain ⟨k', -, hk', hzero⟩ :=
            breaksAfter_textDoc container atStart true content hk
          rw [doc, List.isEmpty_nil, hk', hzero rfl hvisible]
          rfl
      | cons next others =>
        have hrest : Tangible (next :: others) := by
          constructor
          · exact fun keyword hmem => htangible.expressions keyword (List.mem_cons_of_mem _ hmem)
          · exact ⟨final, by rwa [List.getLast?_cons_cons] at hfinal, hvisible⟩
        cases piece with
        | expression keyword =>
          rw [doc, hexpression keyword rfl k hk, Option.bind_some]
          exact ih false 0 hrest (by decide)
        | text content =>
          obtain ⟨k', hle, hk', -⟩ := breaksAfter_textDoc container atStart false content hk
          rw [doc, List.isEmpty_cons, hk', Option.bind_some]
          exact ih false k' hrest hle
  intro k hk
  rw [runDoc, Doc.breaksAfter_seq]
  exact hdocs run true k h hk

end Inline

/-! ## Items -/

namespace Item

/-- An item with a solid layout. -/
def Tangible : Item → Prop
  | .run pieces => Inline.Tangible pieces
  | .single _ doc => doc.Solid

theorem Tangible.solid_doc {item : Item} (h : item.Tangible) (container : Container) :
    (item.doc container).Solid := by
  cases item with
  | run pieces => exact Inline.Tangible.solid_runDoc h container
  | single node d => exact h

/-- Layouts on lines of their own are solid together. -/
theorem breaksAfterAll_separated (container : Container) {entries : List (Item × Doc)}
    (hne : entries ≠ []) (h : ∀ entry ∈ entries, entry.2.Solid) {k : Nat} (hk : k ≤ 2) :
    Doc.breaksAfterAll k (separated container entries) = some 0 := by
  have hseparator : ∀ item item', ∃ n, n ≤ 2 ∧
      (separator container item item').breaksAfter 0 = some n := by
    intro item item'
    unfold separator
    split
    · split
      · exact ⟨0, by decide, Doc.breaksAfter_space 0⟩
      · exact ⟨1, by decide, Doc.breaksAfter_hardLine (by decide)⟩
    · split
      · exact ⟨0, by decide, Doc.breaksAfter_nil 0⟩
      · exact ⟨1, by decide, Doc.breaksAfter_hardLine (by decide)⟩
    · exact ⟨1, by decide, Doc.breaksAfter_hardLine (by decide)⟩
  fun_induction separated container entries generalizing k with
  | case1 => exact absurd rfl hne
  | case2 item d =>
    rw [Doc.breaksAfterAll_singleton]
    exact h (item, d) List.mem_cons_self k hk
  | case3 item d item' d' rest ih =>
    obtain ⟨n, hn, hbreaks⟩ := hseparator item item'
    rw [(h (item, d) List.mem_cons_self).breaksAfterAll hk, Doc.breaksAfterAll, hbreaks,
      Option.bind_some]
    exact ih (List.cons_ne_nil _ _) (fun entry hentry => h entry (List.mem_cons_of_mem _ hentry))
      hn

theorem solid_of_mem_laidOut {items : List Item} (h : ∀ item ∈ items, item.Tangible)
    (container : Container) : ∀ entry ∈ laidOut container items, entry.2.Solid := by
  intro entry hentry
  obtain ⟨item, hitem, rfl⟩ := List.mem_map.1 (List.mem_filter.1 hentry).1
  exact (h item hitem).solid_doc container

/-- The layout of the items of the root or of a brace block is nothing or solid. -/
theorem solid_sequenceDoc {items : List Item} (h : ∀ item ∈ items, item.Tangible)
    (container : Container) :
    sequenceDoc container items = .nil ∨ (sequenceDoc container items).Solid := by
  rw [sequenceDoc]
  by_cases hne : laidOut container items = []
  · rw [hne]
    exact Or.inl rfl
  · apply Or.inr
    intro k hk
    rw [Doc.breaksAfter_seq]
    exact breaksAfterAll_separated container hne (solid_of_mem_laidOut h container) hk

/-- The layout of the items of an element may follow its opening tag. -/
theorem breaksAfter_elementBody {items : List Item} (h : ∀ item ∈ items, item.Tangible) :
    (elementBody items).1.breaksAfter 0 = some 0 := by
  have hsolid := solid_of_mem_laidOut h .element
  have hline : ∀ item, (elementLine item).breaksAfter 0 = some 1 := by
    intro item
    unfold elementLine
    split
    · exact Doc.breaksAfter_hardLine (by decide)
    · exact Doc.breaksAfter_softLine (by decide)
  have hlines : ∀ entries : List (Item × Doc), (∀ entry ∈ entries, entry.2.Solid) →
      Doc.breaksAfterAll 0 (entries.flatMap fun entry => [elementLine entry.1, entry.2]) = some 0 := by
    intro entries
    induction entries with
    | nil => exact fun _ => rfl
    | cons entry rest ih =>
      intro hall
      rw [List.flatMap_cons, Doc.breaksAfterAll_append, Doc.breaksAfterAll, hline,
        Option.bind_some, (hall entry List.mem_cons_self).breaksAfterAll (by decide),
        Doc.breaksAfterAll, Option.bind_some]
      exact ih fun e he => hall e (List.mem_cons_of_mem _ he)
  have hflow : ∀ entries : List (Item × Doc), (∀ entry ∈ entries, entry.2.Solid) →
      Doc.breaksAfterAll 0 (entries.map Prod.snd) = some 0 := by
    intro entries
    induction entries with
    | nil => exact fun _ => rfl
    | cons entry rest ih =>
      intro hall
      rw [List.map_cons, (hall entry List.mem_cons_self).breaksAfterAll (by decide)]
      exact ih fun e he => hall e (List.mem_cons_of_mem _ he)
  rw [elementBody]
  dsimp only
  split
  · rw [Doc.breaksAfter_seq]
    exact hlines _ hsolid
  · rw [Doc.breaksAfter_seq]
    exact hflow _ hsolid

/-- A node that flows in a line starts a run. -/
theorem group_cons_inline {node : Node} (h : node.inline?.isSome = true) (d : Doc)
    (rest : List (Node × Doc)) :
    ∃ pieces items, group ((node, d) :: rest) = .run pieces :: items := by
  obtain ⟨piece, hpiece⟩ := Option.isSome_iff_exists.1 h
  simp only [group, hpiece]
  split
  · exact ⟨_, _, rfl⟩
  · exact ⟨_, _, rfl⟩

/-- What holds of the items of siblings: of a node that does not flow in a line, of a run that a
piece is put in front of, and of a piece that ends a run, behind which no node flows in a line. -/
theorem forall_mem_group {P : Item → Prop} {children : List (Node × Doc)}
    (hsingle : ∀ child ∈ children, child.1.inline? = none → P (.single child.1 child.2))
    (hcons : ∀ child ∈ children, ∀ piece pieces, child.1.inline? = some piece →
      P (.run pieces) → P (.run (piece :: pieces)))
    (hlast : ∀ front child back piece, children = front ++ child :: back →
      child.1.inline? = some piece → back.head?.any (·.1.inline?.isSome) = false →
      P (.run [piece])) :
    ∀ item ∈ group children, P item := by
  induction children with
  | nil =>
    intro item hitem
    cases hitem
  | cons child rest ih =>
    have hrest := ih (fun c hc => hsingle c (List.mem_cons_of_mem _ hc))
      (fun c hc => hcons c (List.mem_cons_of_mem _ hc))
      (fun front c back piece heq => hlast (child :: front) c back piece (by rw [heq]; rfl))
    rcases child with ⟨node, d⟩
    rw [group]
    split
    · rename_i hnone
      rw [List.forall_mem_cons]
      exact ⟨hsingle (node, d) List.mem_cons_self hnone, hrest⟩
    · rename_i piece hpiece
      split
      · rename_i pieces items hrun
        rw [hrun, List.forall_mem_cons] at hrest
        rw [List.forall_mem_cons]
        exact ⟨hcons (node, d) List.mem_cons_self piece pieces hpiece hrest.1, hrest.2⟩
      · rename_i hnotRun
        rw [List.forall_mem_cons]
        refine ⟨hlast [] (node, d) rest piece rfl hpiece ?_, hrest⟩
        cases rest with
        | nil => rfl
        | cons next others =>
          by_contra hinline
          rw [Bool.not_eq_false] at hinline
          obtain ⟨pieces, items, hrun⟩ := group_cons_inline hinline next.2 others
          exact hnotRun pieces items hrun

end Item

/-- Siblings among which an inline expression follows each blank text. -/
def Node.BlanksInside (nodes : List Node) : Prop :=
  ∀ front content back, nodes = front ++ .text content :: back → Text.allBlank content = true →
    back.head?.any (isCode .expression) = true

/-- Children with layouts that are solid, apart from nodes that flow in a line. -/
structure Laid (children : List (Node × Doc)) : Prop where
  blanks : Node.BlanksInside (children.map Prod.fst)
  printable : ∀ child ∈ children, child.1.Printable
  solid : ∀ child ∈ children, child.1.inline? = none → child.2.Solid

theorem Node.isSome_inline?_of_isCode {node : Node} (h : node.isCode .expression = true) :
    node.inline?.isSome = true := by
  cases node with
  | code keyword children selfClosing =>
    rw [inline?, if_pos (by simpa [isCode] using h)]
    rfl
  | _ => cases h

theorem Node.inline?_eq_some {node : Node} {piece : Inline} (h : node.inline? = some piece) :
    (∃ content, node = .text content ∧ piece = .text content) ∨
      ∃ keyword children selfClosing, node = .code keyword children selfClosing ∧
        CodeKind.ofKeyword keyword = .expression ∧ piece = .expression keyword := by
  cases node with
  | markup name attributes children selfClosing => cases h
  | code keyword children selfClosing =>
    rw [inline?] at h
    split at h
    · rename_i hkind
      cases h
      exact Or.inr ⟨keyword, children, selfClosing, rfl, hkind, rfl⟩
    · cases h
  | text content =>
    cases h
    exact Or.inl ⟨content, rfl, rfl⟩
  | comment content => cases h

theorem Laid.startsVisible {children : List (Node × Doc)} (h : Laid children)
    {child : Node × Doc} (hmem : child ∈ children) {keyword : Text}
    (hpiece : child.1.inline? = some (.expression keyword)) : Text.StartsVisible keyword := by
  have hprintable := h.printable child hmem
  rcases Node.inline?_eq_some hpiece with ⟨_, _, hcase⟩ | ⟨_, _, _, hnode, _, hcase⟩
  · cases hcase
  · cases hcase
    rw [hnode] at hprintable
    exact hprintable

/-- The items of siblings are tangible. -/
theorem Laid.tangible_group {children : List (Node × Doc)} (h : Laid children) :
    ∀ item ∈ Item.group children, item.Tangible := by
  apply Item.forall_mem_group
  · intro child hmem hnone
    exact h.solid child hmem hnone
  · intro child hmem piece pieces hpiece hpieces
    refine Inline.Tangible.cons ?_ hpieces
    rintro keyword rfl
    exact (h.startsVisible hmem hpiece).allBlank
  · intro front child back piece heq hpiece hnext
    apply Inline.tangible_singleton
    rcases Node.inline?_eq_some hpiece with ⟨content, hnode, rfl⟩ | ⟨keyword, _, _, _, _, rfl⟩
    · -- after a blank text comes an expression, which would be in the same run
      by_contra hblank
      rw [Bool.not_eq_false] at hblank
      have hcode := h.blanks (front.map Prod.fst) content (back.map Prod.fst)
        (by rw [heq, List.map_append, List.map_cons, hnode]) hblank
      cases back with
      | nil => cases hcode
      | cons next others =>
        have hsome : next.1.inline?.isSome = true := Node.isSome_inline?_of_isCode hcode
        exact Bool.false_ne_true (hnext.symm.trans hsome)
    · exact (h.startsVisible (by rw [heq]; simp) hpiece).allBlank

/-! ## Elements and code -/

/-- A written attribute is printable: an equals sign is visible, and without one it is the name. -/
theorem printable_serializeAttribute {name : Text} (h : Text.Printable name) (value : Text) :
    Text.Printable (serializeAttribute name value) := by
  have hequals : ∀ q : Char, '=' ∈ name ++ ['=', q] ++ value ++ [q] := by simp
  rw [serializeAttribute]
  split
  · exact h
  · split
    · exact Text.printable_of_visible (List.all_eq_false.2 ⟨'=', hequals '\'', by decide⟩)
    · exact Text.printable_of_visible (List.all_eq_false.2 ⟨'=', hequals '"', by decide⟩)

theorem solid_attributeDoc {name : Text} (h : Text.Printable name) (value : Text) :
    (attributeDoc name value).Solid := by
  have hprintable := printable_serializeAttribute h value
  rw [← attributeText_eq] at hprintable
  rw [attributeDoc]
  split
  · rename_i hbreak
    exact solid_blockDoc (hprintable.breaks (List.contains_iff_mem.1 hbreak))
  · rename_i hbreak
    exact Doc.solid_ofText (fun hmem => hbreak (List.contains_iff_mem.2 hmem)) hprintable.spaces

/-- An opening tag is laid out as its name, its attributes indented, and its end. -/
theorem headDoc_eq (indentWidth : Nat) (name : Text) (attributes : AttributeMap)
    (selfClosing : Bool) :
    headDoc indentWidth name attributes selfClosing =
      Doc.grouped (Doc.seq
        [Doc.ofText ('<' :: name),
         Doc.indentBy indentWidth (Doc.seq (attributes.entries.map fun entry =>
           Doc.seq [Doc.softLine, attributeDoc entry.1 entry.2])),
         Doc.ofText (tagEnd name selfClosing)]) := rfl

theorem solid_headDoc (indentWidth : Nat) {name : Text}
    (hname : ∀ c ∈ name, Text.isBlank c = false) {attributes : AttributeMap}
    (h : ∀ entry ∈ attributes.entries, Text.Printable entry.1) (selfClosing : Bool) :
    (headDoc indentWidth name attributes selfClosing).Solid := by
  have hopen : (Doc.ofText ('<' :: name)).Solid := by
    apply Doc.solid_ofText
    · intro hmem
      rcases List.mem_cons.1 hmem with heq | hmem
      · cases heq
      · exact absurd (hname '\n' hmem) (by decide)
    · rfl
  have hend : (Doc.ofText (tagEnd name selfClosing)).Solid := by
    rw [tagEnd]
    split
    · exact Doc.solid_ofText (by decide) (by decide)
    · exact Doc.solid_ofText (by decide) (by decide)
  have hentries : ∀ entries : List (Text × Text), (∀ entry ∈ entries, Text.Printable entry.1) →
      Doc.breaksAfterAll 0
        (entries.map fun entry => Doc.seq [Doc.softLine, attributeDoc entry.1 entry.2]) =
        some 0 := by
    intro entries
    induction entries with
    | nil => exact fun _ => rfl
    | cons entry rest ih =>
      intro hall
      have hentry := solid_attributeDoc (hall entry List.mem_cons_self) entry.2
      rw [List.map_cons, Doc.breaksAfterAll, Doc.breaksAfter_seq, Doc.breaksAfterAll,
        Doc.breaksAfter_softLine (by decide), Option.bind_some,
        hentry.breaksAfterAll (by decide), Doc.breaksAfterAll, Option.bind_some]
      exact ih fun e he => hall e (List.mem_cons_of_mem _ he)
  rw [headDoc_eq]
  apply Doc.Solid.grouped
  intro k hk
  rw [Doc.breaksAfter_seq, hopen.breaksAfterAll hk, Doc.breaksAfterAll, Doc.breaksAfter_indentBy,
    Doc.breaksAfter_seq, hentries _ h, Option.bind_some, Doc.breaksAfterAll_singleton]
  exact hend 0 (by decide)

theorem solid_closingTag {name : Text} (hname : ∀ c ∈ name, Text.isBlank c = false) :
    (Doc.ofText (closingTag name)).Solid := by
  apply Doc.solid_ofText
  · intro hmem
    simp only [closingTag, List.cons_append, List.mem_cons, List.mem_append, List.not_mem_nil,
      or_false, Char.reduceEq, false_or] at hmem
    exact absurd (hname '\n' hmem) (by decide)
  · rfl

/-- What is put between two solid documents is solid with them if it allows a line break. -/
theorem solid_seq_between {d e f : Doc} (hd : d.Solid) (he : e.breaksAfter 0 = some 0)
    (hf : f.Solid) : (Doc.seq [d, e, f]).Solid := by
  intro k hk
  rw [Doc.breaksAfter_seq, hd.breaksAfterAll hk, Doc.breaksAfterAll, he, Option.bind_some,
    Doc.breaksAfterAll_singleton]
  exact hf 0 (by decide)

theorem solid_elementDoc (indentWidth : Nat) {name : Text}
    (hname : ∀ c ∈ name, Text.isBlank c = false) {attributes : AttributeMap}
    (hattributes : ∀ entry ∈ attributes.entries, Text.Printable entry.1) (selfClosing : Bool)
    {children : List (Node × Doc)} (h : Laid children) :
    (elementDoc indentWidth name attributes selfClosing children).Solid := by
  have hhead := solid_headDoc indentWidth hname hattributes selfClosing
  have hclose := solid_closingTag hname
  have hbody := Item.breaksAfter_elementBody h.tangible_group
  rw [elementDoc]
  split
  · exact hhead
  split
  · rename_i content hraw
    have hvisible : Text.allBlank content = false := by
      unfold rawBlock? at hraw
      split at hraw
      · split at hraw
        · rename_i hlines
          cases hraw
          rw [Bool.and_eq_true, List.contains_iff_mem] at hlines
          rw [← Bool.not_eq_true, ← Text.trim_eq_nil_iff]
          exact List.ne_nil_of_mem hlines.2
        · cases hraw
      · cases hraw
    intro k hk
    rw [Doc.breaksAfter_seq, hhead.breaksAfterAll hk, Doc.breaksAfterAll,
      Doc.breaksAfter_indentBy, Doc.breaksAfter_seq, Doc.breaksAfterAll,
      Doc.breaksAfter_hardLine (by decide), Option.bind_some, Doc.breaksAfterAll_singleton,
      solid_blockDoc hvisible 1 (by decide), Option.bind_some, Doc.breaksAfterAll,
      Doc.breaksAfter_hardLine (by decide), Option.bind_some, Doc.breaksAfterAll_singleton]
    exact hclose 1 (by decide)
  · split
    · rename_i body heq
      rw [heq] at hbody
      intro k hk
      rw [Doc.breaksAfter_seq, hhead.breaksAfterAll hk, Doc.breaksAfterAll_singleton,
        Doc.breaksAfter_grouped, Doc.breaksAfter_seq, Doc.breaksAfterAll,
        Doc.breaksAfter_indentBy, hbody, Option.bind_some, Doc.breaksAfterAll,
        Doc.breaksAfter_hardLine (by decide), Option.bind_some, Doc.breaksAfterAll_singleton]
      exact hclose 1 (by decide)
    · rename_i body heq
      rw [heq] at hbody
      exact solid_seq_between hhead hbody hclose

/-- The keyword of a brace block is a brace, with or without an `@`. -/
theorem trim_of_ofKeyword_block {keyword : Text} (h : CodeKind.ofKeyword keyword = .block) :
    Text.trim keyword = ['{'] ∨ Text.trim keyword = ['@', '{'] := by
  unfold CodeKind.ofKeyword at h
  split at h
  · exact Or.inl ‹_›
  · exact Or.inr ‹_›
  · split at h <;> cases h
  · cases h

theorem solid_codeDoc (indentWidth : Nat) {keyword : Text}
    (hkeyword : Text.allBlank keyword = false) {children : List (Node × Doc)} (h : Laid children) :
    (codeDoc indentWidth keyword children).Solid := by
  rw [codeDoc]
  cases hkind : CodeKind.ofKeyword keyword with
  | block =>
    have hbody := Item.solid_sequenceDoc h.tangible_group .block
    have hopening : (Doc.ofText (Text.trim keyword)).Solid := by
      rcases trim_of_ofKeyword_block hkind with heq | heq
      · rw [heq]
        exact Doc.solid_ofText (by decide) (by decide)
      · rw [heq]
        exact Doc.solid_ofText (by decide) (by decide)
    have hclosing : (Doc.ofText ['}']).Solid := Doc.solid_ofText (by decide) (by decide)
    dsimp only
    split
    · intro k hk
      rw [Doc.breaksAfter_seq, hopening.breaksAfterAll hk, Doc.breaksAfterAll,
        Doc.breaksAfter_hardLine (by decide), Option.bind_some, Doc.breaksAfterAll_singleton]
      exact hclosing 1 (by decide)
    · rename_i hnil
      have hsolid := hbody.resolve_left fun heq => hnil (by rw [heq]; rfl)
      intro k hk
      rw [Doc.breaksAfter_seq, hopening.breaksAfterAll hk, Doc.breaksAfterAll,
        Doc.breaksAfter_indentBy, Doc.breaksAfter_seq, Doc.breaksAfterAll,
        Doc.breaksAfter_hardLine (by decide), Option.bind_some, Doc.breaksAfterAll_singleton,
        hsolid 1 (by decide), Option.bind_some, Doc.breaksAfterAll,
        Doc.breaksAfter_hardLine (by decide), Option.bind_some, Doc.breaksAfterAll_singleton]
      exact hclosing 1 (by decide)
  | directive =>
    have hbody := Item.solid_sequenceDoc h.tangible_group .block
    dsimp only
    split
    · exact solid_blockDoc hkeyword
    · rename_i hnil
      have hsolid := hbody.resolve_left fun heq => hnil (by rw [heq]; rfl)
      exact solid_seq_between (solid_blockDoc hkeyword) (Doc.breaksAfter_space 0) hsolid
  | expression => exact solid_blockDoc hkeyword

/-! ## Nodes -/

namespace Node

theorem Spaced.blanksInside {nodes : List Node} (h : Spaced nodes) : BlanksInside nodes :=
  fun front content back heq hblank => (h front content back heq hblank).2.2

theorem spaced_singleton {node : Node} (h : node.text? = none) : Spaced [node] := by
  intro front content back heq
  cases front with
  | nil =>
    obtain ⟨rfl, -⟩ := List.cons.inj heq
    cases h
  | cons first others => simp at heq

/-- The children of a well-formed node have blank texts only between inline expressions. -/
theorem WellFormed.spaced_children {node : Node} (h : WellFormed node) : Spaced node.children := by
  cases node with
  | markup name attributes children selfClosing => exact h.2.2
  | code keyword children selfClosing =>
    rw [WellFormed] at h
    change Spaced children
    cases hcode : CodeKind.ofKeyword keyword with
    | expression =>
      rw [hcode] at h
      rw [h.2]
      exact siblings_nil.spaced
    | block =>
      rw [hcode] at h
      exact h.2
    | directive =>
      rw [hcode] at h
      dsimp only at h
      split at h
      · rw [h]
        exact siblings_nil.spaced
      · obtain ⟨block, rfl, hblock⟩ := h
        apply spaced_singleton
        cases block with
        | text content => cases hblock
        | _ => rfl
  | text content => exact siblings_nil.spaced
  | comment content => exact siblings_nil.spaced

theorem laid_withDocs {indentWidth : Nat} {nodes : List Node} (hblanks : BlanksInside nodes)
    (hprintable : EverywhereIn Printable nodes)
    (hsolid : ∀ node ∈ nodes, node.text? = none → (doc indentWidth node).Solid) :
    Laid (withDocs indentWidth nodes) := by
  have hmem : ∀ child ∈ withDocs indentWidth nodes,
      child.1 ∈ nodes ∧ child.2 = doc indentWidth child.1 := by
    intro child hchild
    rw [withDocs_eq_map] at hchild
    obtain ⟨node, hnode, rfl⟩ := List.mem_map.1 hchild
    exact ⟨hnode, rfl⟩
  constructor
  · rw [map_fst_withDocs]
    exact hblanks
  · intro child hchild
    have hevery := (everywhereIn_iff nodes).1 hprintable child.1 (hmem child hchild).1
    exact ((everywhere_iff child.1).1 hevery).1
  · intro child hchild hinline
    obtain ⟨hnode, hdoc⟩ := hmem child hchild
    rw [hdoc]
    apply hsolid child.1 hnode
    cases hchild : child.1 with
    | text content =>
      rw [hchild] at hinline
      cases hinline
    | _ => rfl

/-- The layout of a node other than a text is solid. -/
theorem solid_doc (indentWidth : Nat) (node : Node) :
    Everywhere WellFormed node → Everywhere Printable node → node.text? = none →
      (doc indentWidth node).Solid := by
  induction node using Node.induct with
  | markup name attributes children selfClosing ih =>
    rintro ⟨⟨hname, -, hspaced⟩, hwell⟩ ⟨hattributes, hprintable⟩ -
    rw [doc]
    apply solid_elementDoc indentWidth hname hattributes
    apply laid_withDocs hspaced.blanksInside hprintable
    exact fun child hchild => ih child hchild ((everywhereIn_iff children).1 hwell child hchild)
      ((everywhereIn_iff children).1 hprintable child hchild)
  | code keyword children selfClosing ih =>
    rintro ⟨hshape, hwell⟩ ⟨hkeyword, hprintable⟩ -
    rw [doc]
    apply solid_codeDoc indentWidth hkeyword.allBlank
    apply laid_withDocs hshape.spaced_children.blanksInside hprintable
    exact fun child hchild => ih child hchild ((everywhereIn_iff children).1 hwell child hchild)
      ((everywhereIn_iff children).1 hprintable child hchild)
  | text content =>
    intro _ _ h
    cases h
  | comment content =>
    intro _ hvisible _
    rw [doc]
    exact solid_blockDoc hvisible.allBlank

end Node

/-- The layout of the nodes of a template without a section is nothing or solid. -/
theorem solid_bodyDoc_parseBody (indentWidth : Nat) (extra : List Text) (body : Text) :
    bodyDoc indentWidth (Template.parseBody extra body) = .nil ∨
      (bodyDoc indentWidth (Template.parseBody extra body)).Solid := by
  obtain ⟨hwell, hspaced⟩ := Template.wellFormed_parseBody extra body
  have hprintable := Template.printable_parseBody extra body
  rcases hspaced with hspaced | hspace
  · apply Item.solid_sequenceDoc
    apply Laid.tangible_group
    apply Node.laid_withDocs hspaced.blanksInside hprintable
    exact fun node hnode => Node.solid_doc indentWidth node
      ((Node.everywhereIn_iff _).1 hwell node hnode)
      ((Node.everywhereIn_iff _).1 hprintable node hnode)
  · rw [hspace]
    exact Or.inl rfl

/-! ## Formatted templates -/

namespace Text

/-- A text in lines: empty or with one line break at its end, without one at its start, and without
spaces at the ends of its lines. -/
structure Lined (s : Text) : Prop where
  last : s = [] ∨ ['\n'] <:+ s ∧ ¬ ['\n', '\n'] <:+ s
  first : ¬ ['\n'] <+: s
  spaces : ¬ [' ', '\n'] <:+: s

/-- Two characters that follow each other in a text put together do so in one of the parts, or the
parts meet between them. -/
theorem infix_pair_append {a b : Char} {s t : Text} (h : [a, b] <:+: s ++ t) :
    [a, b] <:+: s ∨ [a, b] <:+: t ∨ s.getLast? = some a ∧ t.head? = some b := by
  induction s with
  | nil => exact Or.inr (Or.inl h)
  | cons c r ih =>
    rw [List.cons_append, List.infix_cons_iff] at h
    rcases h with ⟨rest, hprefix⟩ | h
    · rw [List.cons_append, List.cons_append, List.nil_append, List.cons.injEq] at hprefix
      obtain ⟨rfl, hrest⟩ := hprefix
      cases r with
      | nil =>
        rw [List.nil_append] at hrest
        rw [← hrest]
        exact Or.inr (Or.inr ⟨rfl, rfl⟩)
      | cons d r' =>
        rw [List.cons_append, List.cons.injEq] at hrest
        rw [hrest.1]
        exact Or.inl ⟨[], r', rfl⟩
    · rcases ih h with h | h | ⟨hlast, hhead⟩
      · exact Or.inl (List.infix_cons h)
      · exact Or.inr (Or.inl h)
      · refine Or.inr (Or.inr ⟨?_, hhead⟩)
        rw [List.getLast?_cons, hlast]
        rfl

theorem newline_not_mem_of_mem_splitAtChar {s part : Text} (h : part ∈ splitAtChar '\n' s) :
    '\n' ∉ part := by
  induction s generalizing part with
  | nil =>
    rw [List.mem_singleton.1 h]
    exact List.not_mem_nil
  | cons c r ih =>
    rw [splitAtChar] at h
    split at h
    · rcases List.mem_cons.1 h with rfl | h
      · exact List.not_mem_nil
      · exact ih h
    rename_i hc
    split at h
    · rename_i hnil
      exact absurd hnil (splitAtChar_ne_nil _ _)
    · rename_i first parts hparts
      rw [hparts] at ih
      rcases List.mem_cons.1 h with rfl | h
      · rw [List.mem_cons, not_or]
        exact ⟨fun heq => hc heq.symm, ih List.mem_cons_self⟩
      · exact ih (List.mem_cons_of_mem _ h)

/-- No line of a text trimmed at its lines' ends ends with a space. -/
theorem not_infix_trimLineEnds (s : Text) : ¬ [' ', '\n'] <:+: trimLineEnds s := by
  have hlines : ∀ ls : List Text, (∀ line ∈ ls, [' ', '\n'] <:+: line → False) →
      (∀ line ∈ ls, line.getLast? ≠ some ' ') → ¬ [' ', '\n'] <:+: joinWith ['\n'] ls := by
    intro ls
    induction ls with
    | nil =>
      intro _ _ h
      cases List.infix_nil.1 h
    | cons line rest ih =>
      intro hinside hend h
      have hinside' := fun l hl => hinside l (List.mem_cons_of_mem line hl)
      have hend' := fun l hl => hend l (List.mem_cons_of_mem line hl)
      by_cases hrest : rest = []
      · rw [hrest] at h
        exact hinside line List.mem_cons_self h
      · rw [joinWith_cons _ _ hrest, List.append_assoc] at h
        rcases infix_pair_append h with h | h | ⟨hlast, -⟩
        · exact hinside line List.mem_cons_self h
        · rcases infix_pair_append h with h | h | ⟨hlast, -⟩
          · have hlength := h.length_le
            simp at hlength
          · exact ih hinside' hend' h
          · cases hlast
        · exact hend line List.mem_cons_self hlast
  apply hlines
  · intro line hline h
    obtain ⟨raw, hraw, rfl⟩ := List.mem_map.1 hline
    have hmem : '\n' ∈ raw := mem_of_mem_trimEnd (h.subset (by simp))
    exact newline_not_mem_of_mem_splitAtChar hraw hmem
  · intro line hline h
    obtain ⟨raw, -, rfl⟩ := List.mem_map.1 hline
    exact absurd (isBlank_getLast?_trimEnd h) (by decide)

/-- A visible character at the end of a text stays there. -/
theorem exists_trimLineEnds_concat (s : Text) {c : Char} (hc : isBlank c = false) :
    ∃ front, trimLineEnds (s ++ [c]) = front ++ [c] := by
  induction s with
  | nil => exact ⟨[], trimLineEnds_cons hc []⟩
  | cons d r ih =>
    obtain ⟨front, hfront⟩ := ih
    rw [List.cons_append]
    rcases trimLineEnds_cons_cases d (r ++ [c]) with heq | heq
    · exact ⟨front, heq.trans hfront⟩
    · exact ⟨d :: front, by rw [heq, hfront, List.cons_append]⟩

theorem isBlank_getLast?_trimLines {s : Text} {c : Char} (h : (trimLines s).getLast? = some c) :
    isBlank c = false := by
  rw [trimLines] at h
  rcases List.eq_nil_or_concat (trimEnd s) with hnil | ⟨front, d, heq⟩
  · rw [hnil] at h
    cases h
  · rw [List.concat_eq_append] at heq
    have hd : isBlank d = false := isBlank_getLast?_trimEnd (s := s) (by simp [heq])
    obtain ⟨front', heq'⟩ := exists_trimLineEnds_concat front hd
    rw [heq, heq', List.getLast?_concat, Option.some.injEq] at h
    rw [← h]
    exact hd

/-- A text in lines may be followed by a blank line and trimmed lines. -/
theorem Lined.append_trimLines {s : Text} (hs : Lined s) {codeSection : Text}
    (h : CodeSection.Starts codeSection) :
    Lined (s ++ (if s = [] then [] else ['\n']) ++ trimLines codeSection ++ ['\n']) := by
  obtain ⟨r, hr⟩ := h.trimLines.exists_cons
  have hspaces : ¬ [' ', '\n'] <:+: trimLines codeSection := not_infix_trimLineEnds _
  have hlast : ∀ c, (s ++ (if s = [] then [] else ['\n']) ++ trimLines codeSection).getLast? =
      some c → isBlank c = false := by
    intro c hc
    rw [List.getLast?_append_of_ne_nil _ (by rw [hr]; exact List.cons_ne_nil _ _)] at hc
    exact isBlank_getLast?_trimLines hc
  rw [hr] at hlast hspaces ⊢
  -- a space is never the last character before the next part
  have hfront : ∀ c, (s ++ (if s = [] then [] else ['\n'])).getLast? = some c → c = '\n' := by
    intro c hc
    split at hc
    · rename_i hnil
      rw [hnil] at hc
      cases hc
    · rw [List.getLast?_concat] at hc
      exact (Option.some.inj hc).symm
  have hjoint : ¬ [' ', '\n'] <:+: s ++ (if s = [] then [] else ['\n']) := by
    intro hin
    rcases infix_pair_append hin with hin | hin | ⟨hspace, -⟩
    · exact hs.spaces hin
    · have hlength := hin.length_le
      split at hlength <;> simp at hlength
    · rcases hs.last with hnil | ⟨⟨front, heq⟩, -⟩
      · rw [hnil] at hspace
        cases hspace
      · rw [← heq, List.getLast?_concat] at hspace
        cases hspace
  constructor
  · refine Or.inr ⟨List.suffix_append _ _, ?_⟩
    rintro ⟨front, heq⟩
    rw [show front ++ ['\n', '\n'] = (front ++ ['\n']) ++ ['\n'] by simp] at heq
    have hinner := congrArg List.getLast? (List.append_inj' heq rfl).1
    rw [List.getLast?_concat] at hinner
    exact absurd (hlast '\n' hinner.symm) (by decide)
  · rintro ⟨rest, heq⟩
    rcases hs.last with rfl | ⟨⟨front, hend⟩, -⟩
    · cases heq
    · cases s with
      | nil => simp at hend
      | cons c s' =>
        cases heq
        exact hs.first ⟨s', rfl⟩
  · intro hin
    rcases infix_pair_append hin with hin | hin | ⟨hspace, -⟩
    · rcases infix_pair_append hin with hin | hin | ⟨hspace, -⟩
      · exact hjoint hin
      · exact hspaces hin
      · cases hfront ' ' hspace
    · have hlength := hin.length_le
      simp at hlength
    · exact absurd (hlast ' ' hspace) (by decide)

end Text

/-- A neat page that ends with one line break is a text in lines without two blank lines in a
row. -/
theorem Page.Neat.lined_text {p : Page} (h : p.Neat 1) {r : Text} (hend : p.reversed = '\n' :: r) :
    Text.Lined p.text ∧ ¬ ['\n', '\n', '\n'] <:+: p.text := by
  have hbreak : ∀ front t, p.framed = front ++ '\n' :: t →
      t.head? ≠ some ' ' ∧ Text.leadingBreaks t ≤ 1 := fun front t heq => h.each t ⟨front, heq.symm⟩
  refine ⟨⟨Or.inr ⟨?_, ?_⟩, ?_, ?_⟩, ?_⟩
  · rw [Page.text, hend, List.reverse_cons]
    exact List.suffix_append _ _
  · intro hsuffix
    rw [Page.text, ← List.reverse_prefix, List.reverse_reverse, hend] at hsuffix
    obtain ⟨rest, heq⟩ := hsuffix
    obtain ⟨-, heq⟩ := List.cons.inj heq
    have hlast := h.last
    rw [Page.framed, hend, ← heq] at hlast
    revert hlast
    simp [Text.leadingBreaks]
  · intro hprefix
    rw [Page.text, ← List.reverse_suffix, List.reverse_reverse] at hprefix
    obtain ⟨front, heq⟩ := hprefix
    have hbad := (hbreak front ['\n', '\n'] (by rw [Page.framed, ← heq]; simp)).2
    exact absurd hbad (by decide)
  · intro hin
    rw [Page.text, ← List.reverse_infix, List.reverse_reverse] at hin
    obtain ⟨front, back, heq⟩ := hin
    exact (hbreak front (' ' :: back ++ ['\n', '\n']) (by rw [Page.framed, ← heq]; simp)).1 rfl
  · intro hin
    rw [Page.text, ← List.reverse_infix, List.reverse_reverse] at hin
    obtain ⟨front, back, heq⟩ := hin
    have hbad := (hbreak front ('\n' :: '\n' :: back ++ ['\n', '\n'])
      (by rw [Page.framed, ← heq]; simp)).2
    rw [List.cons_append, List.cons_append, Text.leadingBreaks_cons_self,
      Text.leadingBreaks_cons_self] at hbad
    omega

theorem Style.parse_of_none (style : Style) {source : Text}
    (h : (CodeSection.split source).2 = none) :
    style.parse source = Template.parseBody style.voidElements source := by
  have hnone := (CodeSection.split_eq_none_iff source).1 h
  rw [Style.parse, Template.parse, CodeSection.split_of_forall hnone]
  exact List.append_nil _

theorem Style.format_of_none (style : Style) {source : Text}
    (h : (CodeSection.split source).2 = none) :
    style.format source = style.print
      (if (bodyDoc style.indentWidth (Template.parseBody style.voidElements source)).isNil then .nil
      else Doc.seq
        [bodyDoc style.indentWidth (Template.parseBody style.voidElements source),
         Doc.hardLine]) := by
  have hnone := (CodeSection.split_eq_none_iff source).1 h
  rw [Style.format, style.parse_of_none h, forestDoc_of_none]
  apply splitSection_of_forall
  exact fun content hmem => Template.opens_of_mem_parseBody hnone hmem

/-- A template without a section is formatted as lines without two blank ones in a row. -/
theorem Style.lined_format_of_none (style : Style) {source : Text}
    (h : (CodeSection.split source).2 = none) :
    Text.Lined (style.format source) ∧ ¬ ['\n', '\n', '\n'] <:+: style.format source := by
  rw [style.format_of_none h]
  rcases solid_bodyDoc_parseBody style.indentWidth style.voidElements source with hnil | hsolid
  · have hempty : style.print .nil = [] := rfl
    rw [hnil, show Doc.nil.isNil = true from rfl, if_pos rfl, hempty]
    exact ⟨⟨Or.inl rfl, by simp, by simp⟩, by simp⟩
  · rw [hsolid.isNil, if_neg Bool.false_ne_true]
    have hcount : (Doc.seq [bodyDoc style.indentWidth
        (Template.parseBody style.voidElements source), Doc.hardLine]).breaksAfter 2 = some 1 := by
      rw [Doc.breaksAfter_seq, hsolid.breaksAfterAll (by decide), Doc.breaksAfterAll_singleton,
        Doc.breaksAfter_hardLine (by decide)]
    have hneat := Doc.neat_write (Doc.lineWidth style.printWidth) 0 .broken _ [] hcount
      Page.neat_start
    apply hneat.lined_text
    rw [Doc.write_seq_hardLine]
    rfl

/-- A formatted template is empty or ends with exactly one line break; it does not start with one,
and no line of it ends with a space. Without a code section, no two blank lines follow each other
in it. -/
theorem Style.lineStructure_format (style : Style) (source : Text) :
    Text.Lined (style.format source) ∧
      ((CodeSection.split source).2 = none → ¬ ['\n', '\n', '\n'] <:+: style.format source) := by
  refine ⟨?_, fun h => (style.lined_format_of_none h).2⟩
  rcases hsplit : CodeSection.split source with ⟨body, _ | codeSection⟩
  · exact (style.lined_format_of_none (by rw [hsplit])).1
  · obtain ⟨-, hstarts, hnone⟩ := CodeSection.split_spec hsplit
    have hbody := style.lined_format_of_none ((CodeSection.split_eq_none_iff body).2 hnone)
    rw [style.format_of_split hsplit]
    exact hbody.1.append_trimLines hstarts

end RazorTidy
