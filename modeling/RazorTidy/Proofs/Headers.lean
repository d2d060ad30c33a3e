import RazorTidy.Proofs.Idempotence
import RazorTidy.Proofs.Isolation
import RazorTidy.Proofs.Respacing

/-!
# Headers after formatting

The headers of a forest are the keywords of its directives in source order, with their blanks
collapsed. Formatting a template and reading it again keeps the headers, except for one case: a
header whose block starts with an `@` takes this `@` with it (`Style.headersAll_parse_format`). So
the headers are the same before and after if and only if there is no such block. To see that every
such block makes a difference, the headers are weighed by their length: each of these blocks adds
two characters, and nothing takes one away (`PlainForest.headerWeight_settleAll`).

A code section at the end has no part in this. It is printed behind the rest, and when the result is
read again it is found there, since nothing in front of it opens a section (`split_append_starts`).
-/

set_option autoImplicit false

namespace RazorTidy

/-! ## The headers of a forest -/

namespace Node

/-- The header of a directive, with its blanks collapsed. -/
def header? : Node → Option Text
  | .code keyword _ _ =>
    if CodeKind.ofKeyword keyword = .directive then some (Text.collapse keyword) else none
  | _ => none

/-- The headers of a forest in source order. -/
def headersAll (nodes : List Node) : List Text := (preorderAll nodes).filterMap header?

theorem headersAll_append (nodes rest : List Node) :
    headersAll (nodes ++ rest) = headersAll nodes ++ headersAll rest := by
  rw [headersAll, preorderAll_append, List.filterMap_append]
  rfl

theorem headersAll_cons (node : Node) (rest : List Node) :
    headersAll (node :: rest) =
      node.header?.toList ++ headersAll node.children ++ headersAll rest := by
  have hshell : node.shell.header? = node.header? := by cases node <;> rfl
  rw [headersAll, preorderAll, preorder_eq, List.filterMap_append, List.filterMap_cons, hshell]
  cases node.header? <;> rfl

mutual
/-- Blanks around texts do not change the headers. -/
theorem headers_trimTexts : ∀ node : Node,
    node.trimTexts.header? = node.header? ∧
      headersAll node.trimTexts.children = headersAll node.children
  | .markup _ _ children _ => ⟨rfl, headersAll_trimAll children⟩
  | .code _ children _ => ⟨rfl, headersAll_trimAll children⟩
  | .text _ => ⟨rfl, rfl⟩
  | .comment _ => ⟨rfl, rfl⟩
theorem headersAll_trimAll : ∀ nodes : List Node, headersAll (trimAll nodes) = headersAll nodes
  | [] => rfl
  | node :: rest => by
    obtain ⟨hheader, hchildren⟩ := headers_trimTexts node
    rw [trimAll, headersAll_cons, headersAll_cons, hheader, hchildren, headersAll_trimAll rest]
end

theorem settleCode_trimAll (keyword : Text) (children : List Node) (selfClosing : Bool) :
    settleCode keyword (trimAll children) selfClosing =
      (settleCode keyword children selfClosing).trimTexts := by
  rcases children with _ | ⟨first, _ | ⟨second, others⟩⟩
  · rfl
  · cases first with
    | code opener inner closed =>
      rw [settleCode]
      simp only [trimAll, trimTexts, settleCode]
      split <;> rfl
    | _ => rfl
  · cases first <;> rfl

mutual
/-- Blanks around texts do not change how code is read again. -/
theorem settle_trimTexts : ∀ node : Node, node.trimTexts.settle = node.settle.trimTexts
  | .markup name attributes children selfClosing => by
    rw [trimTexts, settle, settle, trimTexts, settleAll_trimAll children]
  | .code keyword children selfClosing => by
    rw [trimTexts, settle, settle, settleAll_trimAll children, settleCode_trimAll]
  | .text content => rfl
  | .comment content => rfl
theorem settleAll_trimAll : ∀ nodes : List Node,
    settleAll (trimAll nodes) = trimAll (settleAll nodes)
  | [] => rfl
  | node :: rest => by
    rw [trimAll, settleAll, settleAll, trimAll, settle_trimTexts node, settleAll_trimAll rest]
end

theorem settleAll_append (nodes rest : List Node) :
    settleAll (nodes ++ rest) = settleAll nodes ++ settleAll rest := by
  induction nodes with
  | nil => rfl
  | cons node nodes' ih => rw [List.cons_append, settleAll, ih, settleAll, List.cons_append]

theorem joinsAll_append (nodes rest : List Node) :
    joinsAll (nodes ++ rest) = joinsAll nodes + joinsAll rest := by
  induction nodes with
  | nil => exact (Nat.zero_add _).symm
  | cons node nodes' ih => rw [List.cons_append, joinsAll, ih, joinsAll, Nat.add_assoc]

/-- The number of characters of the headers of a forest. -/
def headerWeight (nodes : List Node) : Nat := (headersAll nodes).flatten.length

theorem headerWeight_cons (node : Node) (rest : List Node) :
    headerWeight (node :: rest) =
      node.header?.toList.flatten.length + headerWeight node.children + headerWeight rest := by
  simp only [headerWeight, headersAll_cons, List.flatten_append, List.length_append]

end Node

/-! ## Headers of plain forests -/

section Plain

variable {extra : List Text} {inBlock : Bool} {forest : List Node}

theorem endsBlank_plainHeader {header : Text} (h : plainHeader header = true) :
    Text.endsBlank header = false := by
  obtain ⟨word, tail, rfl, hword, -, -, hend⟩ := plainHeader_spec h
  have hne : word ++ tail ≠ [] := by
    intro hnil
    rw [(List.append_eq_nil_iff.1 hnil).1] at hword
    exact absurd hword (by decide)
  rw [Text.endsBlank_cons hne, hend]

/-- A plain header weighs what it collapses to, with the headers of its block. -/
theorem headerWeight_directive {header opener : Text} (hheader : plainHeader header = true)
    (hopener : opener = ['{'] ∨ opener = ['@', '{']) (children rest : List Node) :
    Node.headerWeight (.code header [.code opener children false] false :: rest) =
      (Text.collapse header).length + Node.headerWeight children + Node.headerWeight rest := by
  have hkind : CodeKind.ofKeyword opener ≠ .directive := by
    rcases hopener with rfl | rfl <;> decide
  rw [Node.headerWeight_cons, Node.header?, if_pos (plainHeader_keyword hheader).2.2,
    Node.children, Node.headerWeight_cons, Node.header?, if_neg hkind, Node.children]
  simp [Node.headerWeight, Node.headersAll, Node.preorderAll]

/-- Settling a forest adds a space and an `@` to each header that owns such a block. -/
theorem PlainForest.headerWeight_settleAll (h : PlainForest extra inBlock forest) :
    Node.headerWeight (Node.settleAll forest) =
      Node.headerWeight forest + 2 * Node.joinsAll forest := by
  induction h with
  | nil => rfl
  | text _ _ _ ih =>
    simp only [Node.settleAll, Node.settle, Node.headerWeight_cons, Node.joinsAll, Node.joins, ih]
    omega
  | closed _ _ _ ih =>
    simp only [Node.settleAll, Node.settle, Node.headerWeight_cons, Node.header?, Node.children,
      Node.joinsAll, Node.joins, ih]
    omega
  | element _ _ _ _ _ ihc ih =>
    simp only [Node.settleAll, Node.settle, Node.headerWeight_cons, Node.header?, Node.children,
      Node.joinsAll, Node.joins, ihc, ih]
    omega
  | header _ _ _ ih =>
    simp only [Node.settleAll, Node.settle, Node.settleCode, Node.headerWeight_cons, Node.joinsAll,
      Node.joins, Node.joinsBlock, Bool.false_eq_true, if_false, ih]
    omega
  | block _ _ ihc ih =>
    rw [Node.settleAll, settle_block (Or.inr rfl)]
    simp only [Node.headerWeight_cons, Node.header?, Node.children, Node.joinsAll,
      joins_block (Or.inr rfl), ihc, ih]
    omega
  | directive hheader hopener _ _ ihc ih =>
    have hcases := plainOpener_braces hopener
    rw [Node.settleAll, settle_directive hcases, headerWeight_directive hheader hcases,
      Node.joinsAll, joins_directive hheader hcases]
    rcases plainOpener_cases hopener with rfl | ⟨rfl, hat⟩
    -- in front of a brace the header stays; an `@` goes to the header with the space before it
    · rw [Node.settleCode, if_neg fun hjoins => absurd hjoins.2 (by decide),
        headerWeight_directive hheader (Or.inl rfl), if_neg (by decide), ihc, ih]
      omega
    · rw [Node.settleCode, if_pos ⟨(plainHeader_keyword hheader).2.2, rfl⟩,
        headerWeight_directive (plainHeader_joined hheader hat) (Or.inl rfl), if_pos rfl, ihc, ih,
        Text.collapse_append (endsBlank_plainHeader hheader), List.length_append,
        show (Text.collapse [' ', '@']).length = 2 by decide]
      omega

end Plain

/-! ## Templates with a code section -/

/-- A section behind a text without its opener is found there. -/
theorem split_append_starts {front codeSection : Text} (hfront : countAfterAt 'c' front = 0)
    (h : CodeSection.Starts codeSection) :
    CodeSection.split (front ++ codeSection) = (front, some codeSection) := by
  induction front with
  | nil =>
    obtain ⟨r, rfl⟩ := h.exists_cons
    rw [List.nil_append, CodeSection.split, if_pos ((CodeSection.opens_iff _).2 h)]
  | cons d r ih =>
    have hopens : ¬ CodeSection.opens (d :: (r ++ codeSection)) = true := by
      intro hopens
      obtain ⟨u, hu⟩ := ((CodeSection.opens_iff _).1 hopens).exists_cons
      cases r with
      | nil =>
        -- the section itself starts with an `@`, and an opener has a letter there
        obtain ⟨v, rfl⟩ := h.exists_cons
        cases hu
      | cons e r' =>
        cases hu
        simp [countAfterAt] at hfront
    have hr : countAfterAt 'c' r = 0 := by
      rw [countAfterAt] at hfront
      omega
    rw [List.cons_append, CodeSection.split, if_neg hopens, ih hr]

/-- The code section is one further text behind the forest of the rest. -/
theorem Style.parse_eq_append (style : Style) (source : Text) :
    style.parse source =
      style.parse (CodeSection.split source).1 ++
        (CodeSection.split source).2.toList.map Node.text := by
  rcases hsplit : CodeSection.split source with ⟨body, _ | codeSection⟩
  · rw [CodeSection.split_of_none hsplit]
    exact (List.append_nil _).symm
  · exact style.parse_of_split hsplit

theorem headersAll_map_text (texts : List Text) : Node.headersAll (texts.map Node.text) = [] := by
  induction texts with
  | nil => rfl
  | cons content rest ih =>
    rw [List.map_cons, Node.headersAll_cons, ih]
    rfl

theorem settleAll_map_text (texts : List Text) :
    Node.settleAll (texts.map Node.text) = texts.map Node.text := by
  induction texts with
  | nil => rfl
  | cons content rest ih => rw [List.map_cons, Node.settleAll, ih, Node.settle]

theorem joinsAll_map_text (texts : List Text) : Node.joinsAll (texts.map Node.text) = 0 := by
  induction texts with
  | nil => rfl
  | cons content rest ih => rw [List.map_cons, Node.joinsAll, ih, Node.joins]

/-- A plain forest that is printed and has a section put behind it is still read as it is settled,
and the section is found where it is. -/
theorem PlainForest.parse_before_section (style : Style) {forest : List Node}
    (h : PlainForest style.voidElements false forest) {printed : Text}
    (hprinted : style.print (forestDoc style.indentWidth forest) = printed) :
    let front := printed ++ (if printed = [] then [] else ['\n'])
    countAfterAt 'c' front = 0 ∧ Node.trimAll (style.parse front) = Node.settleAll forest := by
  intro front
  by_cases hne : forest = []
  · have hnil : printed = [] := by
      rw [← hprinted, hne]
      rfl
    have hfront : front = [] := by
      simp only [front, hnil]
      rfl
    rw [hfront, hne]
    exact ⟨rfl, by rw [Style.parse, parse_nil]; rfl⟩
  · have hwritten : Written style.voidElements false forest front := by
      have hrender := h.written_render style.indentWidth style.printWidth
      rw [show (forestDoc style.indentWidth forest).render style.printWidth = printed from
        hprinted] at hrender
      apply hrender.append_blanks
      · split <;> rfl
      · split <;> rfl
    have hcount := hwritten.countAfterAt_eq (Or.inl rfl) [] (by simp)
    rw [List.append_nil] at hcount
    exact ⟨hcount, hwritten.trimAll_parse hne⟩

/-- The headers of a formatted template are those of the settled forest. -/
theorem Style.headersAll_parse_format (style : Style) {source : Text}
    (h : PlainForest style.voidElements false
      (Node.trimAll (style.parse (CodeSection.split source).1))) :
    Node.headersAll (style.parse (style.format source)) =
      Node.headersAll
        (Node.settleAll (Node.trimAll (style.parse (CodeSection.split source).1))) := by
  rcases hsplit : CodeSection.split source with ⟨body, _ | codeSection⟩
  · rw [hsplit, CodeSection.split_of_none hsplit] at h
    rw [CodeSection.split_of_none hsplit, ← h.trimAll_parse_forestDoc, Node.headersAll_trimAll,
      Style.format, h.forestDoc_trimAll]
  · rw [hsplit] at h
    have hprinted : style.print (forestDoc style.indentWidth (Node.trimAll (style.parse body))) =
        style.format body := by
      rw [Style.format, h.forestDoc_trimAll]
    obtain ⟨hcount, hread⟩ := h.parse_before_section style hprinted
    have hstarts := (CodeSection.split_spec hsplit).2.1.trimLines.append ['\n']
    have hagain := style.parse_of_split (split_append_starts hcount hstarts)
    rw [style.format_of_split hsplit, List.append_assoc, hagain, Node.headersAll_append, ← hread,
      Node.headersAll_trimAll]
    exact List.append_nil _

/-- The headers of a formatted template, for a template whose forest is plain up to the blanks
around its texts and the code section: they are those of the template, but a header that owns a
block that starts with an `@` has taken the `@`. So they are the same if and only if no header owns
such a block. -/
theorem Style.headersAll_format (style : Style) {source : Text}
    (h : PlainForest style.voidElements false
      (Node.trimAll (style.parse (CodeSection.split source).1))) :
    Node.headersAll (style.parse (style.format source)) =
        Node.headersAll (Node.settleAll (style.parse source)) ∧
      (Node.headersAll (style.parse (style.format source)) =
          Node.headersAll (style.parse source) ↔
        Node.joinsAll (style.parse source) = 0) := by
  rw [style.headersAll_parse_format h, style.parse_eq_append source, Node.settleAll_append,
    settleAll_map_text, Node.headersAll_append, Node.headersAll_append, headersAll_map_text,
    Node.joinsAll_append, joinsAll_map_text, List.append_nil, List.append_nil, Nat.add_zero]
  generalize style.parse (CodeSection.split source).1 = forest at h
  refine ⟨by rw [Node.settleAll_trimAll, Node.headersAll_trimAll], ?_⟩
  rw [← Node.headersAll_trimAll forest, ← Node.joinsAll_trimAll]
  constructor
  · intro heq
    -- equal headers have equal weight, and every such block would add to it
    have hweight := h.headerWeight_settleAll
    rw [Node.headerWeight, heq, ← Node.headerWeight] at hweight
    omega
  · intro hjoins
    rw [h.settleAll_eq hjoins]

theorem headersAll_format_aboutPage :
    CodeSection.split (aboutPage ++ counterSection) = (aboutPage, some counterSection) ∧
      PlainForest [] false (Node.trimAll (Style.parse {} aboutPage)) ∧
      Node.joinsAll (Style.parse {} (aboutPage ++ counterSection)) = 0 ∧
      Node.headersAll (Style.parse {} (Style.format {} (aboutPage ++ counterSection))) =
        ["@page \"/about/\x7bid\x7d\"".toList, "@if (Model.Count(1) > 0)".toList] := by
  have hsplit : CodeSection.split (aboutPage ++ counterSection) =
      (aboutPage, some counterSection) := by
    decide
  have hplain : PlainForest [] false
      (Node.trimAll (Style.parse {} (CodeSection.split (aboutPage ++ counterSection)).1)) := by
    rw [hsplit]
    exact plainForest_aboutPage
  have hparse := Style.parse_of_split {} hsplit
  have hjoins : Node.joinsAll (Style.parse {} (aboutPage ++ counterSection)) = 0 := by
    rw [hparse, Node.joinsAll_append, ← Node.joinsAll_trimAll, trimAll_parse_aboutPage]
    rfl
  have hheaders : Node.headersAll (Style.parse {} (aboutPage ++ counterSection)) =
      ["@page \"/about/\x7bid\x7d\"".toList, "@if (Model.Count(1) > 0)".toList] := by
    rw [hparse, Node.headersAll_append, ← Node.headersAll_trimAll, trimAll_parse_aboutPage]
    rfl
  exact ⟨hsplit, plainForest_aboutPage, hjoins,
    ((Style.headersAll_format {} hplain).2.2 hjoins).trans hheaders⟩

/-- The header of a page takes the `@` of the block on the next line. -/
theorem headersAll_format_page :
    ¬ ∀ (style : Style) (source : Text),
      Node.headersAll (style.parse (style.format source)) =
        Node.headersAll (style.parse source) := by
  intro h
  have hpage := h {} "@page \"/\"\n@\x7b \x7d".toList
  revert hpage
  decide +kernel

end RazorTidy
