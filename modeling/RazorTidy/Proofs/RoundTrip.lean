import RazorTidy.Format
import RazorTidy.Proofs.Isolation
import RazorTidy.Proofs.PlainPrinting
import RazorTidy.Proofs.PlainReading

/-!
# Printing and reading

A plain forest is printed in a written form, and a written form is read as the settled forest.
Together: printing a plain forest in any style and reading the result gives the settled forest, up
to the blanks around its texts (`PlainForest.trimAll_parse_forestDoc`).

In the core language the only code is a directive with a condition and a brace block. There nothing
is left to settle, so printing and reading give the forest back (`Style.trimAll_parse_print`).

Reading a template sets its code section aside first, so a written form must not open one. What
stands after the `@`s of a written form decides this, and also how many blocks start with an `@`
(`Written.countAfterAt_eq`).
-/

set_option autoImplicit false

namespace RazorTidy

/-! ## What stands after an `@` -/

/-- The number of `@`s of a text that stand right before the character `c`. -/
def countAfterAt (c : Char) : Text → Nat
  | [] => 0
  | d :: r => (if d = '@' ∧ r.head? = some c then 1 else 0) + countAfterAt c r

section Counting

variable {c : Char}

theorem countAfterAt_cons {d : Char} {r : Text} (h : d ≠ '@' ∨ r.head? ≠ some c) :
    countAfterAt c (d :: r) = countAfterAt c r := by
  rw [countAfterAt, if_neg, Nat.zero_add]
  rintro ⟨hd, hr⟩
  rcases h with h | h
  · exact h hd
  · exact h hr

theorem countAfterAt_append {s : Text} (hs : '@' ∉ s) (t : Text) :
    countAfterAt c (s ++ t) = countAfterAt c t := by
  induction s with
  | nil => rfl
  | cons d r ih =>
    rw [List.mem_cons, not_or] at hs
    rw [List.cons_append, countAfterAt_cons (Or.inl (Ne.symm hs.1)), ih hs.2]

/-- A plain tail has an `@` at its end only. -/
theorem countAfterAt_plainTail {u : Text} (hu : u.head? ≠ some c) {quote : Option Char}
    (hquote : quote.all isQuote = true) {depth : Nat} {s : Text}
    (h : plainTail quote depth s = true) : countAfterAt c (s ++ u) = countAfterAt c u := by
  induction s generalizing quote depth with
  | nil => rfl
  | cons d r ih =>
    rw [List.cons_append]
    cases quote with
    | some q =>
      rw [plainTail] at h
      split at h
      · rename_i hd
        have hat : d ≠ '@' := ne_of_isQuote (hd ▸ hquote) rfl
        rw [countAfterAt_cons (Or.inl hat)]
        exact ih rfl h
      · simp only [Bool.and_eq_true, bne_iff_ne] at h
        rw [countAfterAt_cons (Or.inl h.1.2)]
        exact ih hquote h.2
    | none =>
      rw [plainTail] at h
      split at h
      · rename_i hd
        rw [countAfterAt_cons (Or.inl (ne_of_isQuote hd rfl))]
        exact ih (show (some d).all isQuote = true from hd) h
      · split at h
        · rw [Bool.and_eq_true, List.isEmpty_iff] at h
          rw [h.2, List.nil_append]
          exact countAfterAt_cons (Or.inr hu)
        · rename_i hat
          rw [countAfterAt_cons (Or.inl hat)]
          exact ih rfl (Bool.and_eq_true_iff.1 h).2

/-- The `@` of a plain header stands before a directive word, which starts neither a code section
nor a block. -/
theorem countAfterAt_header (hc : c = 'c' ∨ c = '{') {header u : Text}
    (hheader : plainHeader header = true) (hu : u.head? ≠ some c) :
    countAfterAt c (header ++ u) = countAfterAt c u := by
  obtain ⟨word, tail, rfl, hword, -, htail, -⟩ := plainHeader_spec hheader
  obtain ⟨hstart, hmarks, hat⟩ := directiveWords_spec word hword
  have hhead : (word ++ (tail ++ u)).head? ≠ some c := by
    cases word with
    | nil => cases hstart
    | cons d r =>
      rw [List.cons_append, List.head?_cons, Ne, Option.some.injEq]
      rintro rfl
      rcases hc with rfl | rfl <;> simp at hmarks
  rw [List.cons_append, List.append_assoc, countAfterAt_cons (Or.inr hhead),
    countAfterAt_append hat, countAfterAt_plainTail hu rfl htail]

end Counting

/-- Without an `@` before a `c` there is no code section. -/
theorem split_of_countAfterAt {t : Text} (h : countAfterAt 'c' t = 0) :
    CodeSection.split t = (t, none) := by
  induction t with
  | nil => rfl
  | cons d r ih =>
    -- a code section opens with an `@` before its word
    have hopens : CodeSection.opens (d :: r) = false := by
      by_contra hopens
      rw [Bool.not_eq_false, CodeSection.opens_iff] at hopens
      obtain ⟨u, hu⟩ := hopens.exists_cons
      rw [hu] at h
      simp [countAfterAt] at h
    have hr : countAfterAt 'c' r = 0 := by
      rw [countAfterAt] at h
      omega
    rw [CodeSection.split, hopens, ih hr]
    rfl

theorem at_not_mem_blanks {blanks : Text} (h : Text.allBlank blanks = true) : '@' ∉ blanks := by
  intro hmem
  exact absurd (List.all_eq_true.1 h _ hmem) (by decide)

theorem at_not_mem_name {name : Text} (h : plainName name = true) : '@' ∉ name := by
  intro hmem
  exact absurd ((plainName_spec h).2 _ hmem) (by decide)

theorem at_not_mem_region {entries : List (Text × Text)} {region : Text}
    (h : RegionWritten entries region) : '@' ∉ region := by
  induction h with
  | nil => exact List.not_mem_nil
  | @cons blanks name value region rest _ hblanks hentry _ ih =>
    obtain ⟨-, hname, hvalue⟩ := (plainAttribute_iff name value).1 hentry
    have hblanks' : '@' ∉ blanks := fun hmem => absurd (hblanks _ hmem) (by decide)
    have hname' : '@' ∉ name := fun hmem => absurd (hname _ hmem) (by decide)
    have hvalue' : '@' ∉ value := fun hmem => (hvalue _ hmem).2.2 rfl
    rw [attributeText_of_plainAttribute hentry]
    split
    · simp [hblanks', hname', ih]
    · simp [hblanks', hname', hvalue', ih]

theorem head?_ne_of_endsLine {c : Char} (hc : c ≠ '\n') {t rest : Text} (ht : endsLine t = true)
    (hrest : rest.head? ≠ some c) : (t ++ rest).head? ≠ some c := by
  cases t with
  | nil => exact hrest
  | cons d r =>
    rw [endsLine, beq_iff_eq] at ht
    rw [List.cons_append, List.head?_cons, Ne, Option.some.injEq, ht]
    exact hc.symm

/-- The `@`s of a written form before a brace are those of its blocks, and none is before a `c`. -/
theorem Written.countAfterAt_eq {extra : List Text} {inBlock : Bool} {forest : List Node} {t : Text}
    (h : Written extra inBlock forest t) {c : Char} (hc : c = 'c' ∨ c = '{') :
    ∀ rest, rest.head? ≠ some c →
      countAfterAt c (t ++ rest) =
        (if c = '{' then Node.openersAll forest else 0) + countAfterAt c rest := by
  -- the characters that follow a body or a header here
  have hmarks : ∀ d ∈ ['\n', ' ', '<', '}'], some d ≠ some c := by
    rcases hc with rfl | rfl <;> simp
  induction h with
  | nil hblanks =>
    intro rest _
    rw [countAfterAt_append (at_not_mem_blanks hblanks)]
    simp [Node.openersAll]
  | @text blanks content t _ hblanks hcontent _ _ _ ih =>
    intro rest hrest
    have hat : '@' ∉ blanks ++ content := by
      obtain ⟨-, -, hchars, -⟩ := (plainText_iff content).1 hcontent
      rw [List.mem_append, not_or]
      exact ⟨at_not_mem_blanks hblanks, fun hmem => (hchars _ hmem).2.2.1 rfl⟩
    have hcount := countAfterAt_append hat (c := c) (t ++ rest)
    rw [← List.append_assoc, List.append_assoc, hcount, ih rest hrest]
    simp [Node.openersAll, Node.openers]
  | @closed _ blanks name region t _ _ hblanks hname hregion _ ih =>
    intro rest hrest
    have hat : '@' ∉ blanks ++ tagText name region ['/', '>'] := by
      simp [tagText, at_not_mem_blanks hblanks, at_not_mem_name hname, at_not_mem_region hregion]
    have hcount := countAfterAt_append hat (c := c) (t ++ rest)
    rw [ih rest hrest] at hcount
    simpa [tagText, Node.openersAll, Node.openers] using hcount
  | @element _ blanks name region body t _ _ _ hblanks hname hregion _ _ _ ihc ih =>
    intro rest hrest
    have hat : '@' ∉ blanks ++ tagText name region ['>'] := by
      simp [tagText, at_not_mem_blanks hblanks, at_not_mem_name hname, at_not_mem_region hregion]
    have hclose : '@' ∉ closingTag name := by
      simp [closingTag, at_not_mem_name hname]
    have hcount := countAfterAt_append hat (c := c) (body ++ (closingTag name ++ (t ++ rest)))
    rw [ihc (closingTag name ++ (t ++ rest)) (hmarks '<' (by simp)), countAfterAt_append hclose,
      ih rest hrest] at hcount
    simp only [Node.openersAll, Node.openers]
    simp only [tagText, List.append_assoc, List.cons_append, List.nil_append] at hcount ⊢
    rw [hcount]
    split <;> omega
  | @header _ blanks header t _ hblanks hheader _ hend _ ih =>
    intro rest hrest
    have hline : c ≠ '\n' := fun heq => hmarks '\n' (by simp) (by rw [heq])
    have hcount := countAfterAt_header hc hheader (head?_ne_of_endsLine hline hend hrest)
    rw [ih rest hrest] at hcount
    rw [List.append_assoc, List.append_assoc, countAfterAt_append (at_not_mem_blanks hblanks),
      hcount]
    simp [Node.openersAll, Node.openers, plainHeader_ne hheader]
  | @block _ blanks body t _ _ hblanks _ _ ihc ih =>
    intro rest hrest
    have hbody := ihc ('}' :: (t ++ rest)) (hmarks '}' (by simp))
    rw [countAfterAt_cons (Or.inl (by decide)), ih rest hrest] at hbody
    have hopener : countAfterAt c ('@' :: '{' :: (body ++ '}' :: (t ++ rest))) =
        (if c = '{' then 1 else 0) + countAfterAt c (body ++ '}' :: (t ++ rest)) := by
      rw [countAfterAt, countAfterAt_cons (Or.inl (by decide))]
      simp [eq_comm]
    have hshape : blanks ++ '@' :: '{' :: (body ++ '}' :: t) ++ rest =
        blanks ++ ('@' :: '{' :: (body ++ '}' :: (t ++ rest))) := by simp
    rw [hshape, countAfterAt_append (at_not_mem_blanks hblanks), hopener, hbody]
    simp only [Node.openersAll, Node.openers, if_true]
    split <;> omega
  | @directive _ blanks header opener body t _ _ hblanks hheader hopener _ _ ihc ih =>
    intro rest hrest
    have hbody := ihc ('}' :: (t ++ rest)) (hmarks '}' (by simp))
    rw [countAfterAt_cons (Or.inl (by decide)), ih rest hrest] at hbody
    have hcount : countAfterAt c (opener ++ (body ++ '}' :: (t ++ rest))) =
        (if c = '{' ∧ opener = ['@', '{'] then 1 else 0) +
          countAfterAt c (body ++ '}' :: (t ++ rest)) := by
      rcases plainOpener_cases hopener with rfl | ⟨rfl, -⟩
      · rw [List.singleton_append, countAfterAt_cons (Or.inl (by decide))]
        simp
      · show countAfterAt c ('@' :: '{' :: _) = _
        rw [countAfterAt, countAfterAt_cons (Or.inl (by decide))]
        simp [eq_comm]
    have hheader' := countAfterAt_header hc hheader
      (u := ' ' :: (opener ++ (body ++ '}' :: (t ++ rest)))) (hmarks ' ' (by simp))
    rw [countAfterAt_cons (Or.inl (by decide)), hcount, hbody] at hheader'
    have hshape : blanks ++ (header ++ ' ' :: (opener ++ (body ++ '}' :: t))) ++ rest =
        blanks ++ (header ++ ' ' :: (opener ++ (body ++ '}' :: (t ++ rest)))) := by simp
    rw [hshape, countAfterAt_append (at_not_mem_blanks hblanks), hheader']
    simp only [Node.openersAll, Node.openers, plainHeader_ne hheader, if_false]
    by_cases hbrace : c = '{'
    · simp only [hbrace, true_and, if_true]
      omega
    · simp only [hbrace, false_and, if_false]
      omega

/-! ## Reading what is printed -/

/-- A written form of a forest that is not empty is read as the settled forest. -/
theorem Written.trimAll_parse {extra : List Text} {forest : List Node} {t : Text}
    (h : Written extra false forest t) (hne : forest ≠ []) :
    Node.trimAll (Template.parse extra t) = Node.settleAll forest := by
  have hready : Reader.start.Ready false forest t :=
    ⟨rfl, fun hfollows => absurd hfollows (by decide), Or.inl rfl, rfl⟩
  obtain ⟨reader, hrun, -, nodes, hfull, htrim⟩ := h.reads Reader.start [] hready .template
  have htrim' : Node.trimAll nodes = Node.settleAll forest := htrim
  -- a template without nodes is read as one text, so this case is set apart
  have hnodes : nodes ≠ [] := by
    rintro rfl
    cases forest with
    | nil => exact hne rfl
    | cons node rest => cases htrim'
  have hfinish : (Reader.start.run extra t).finish = nodes := by
    rw [List.append_nil, Reader.run_nil] at hrun
    rw [hrun, show reader.scaffold.addGap reader.gap false = _ from hfull]
    show (Scaffold.attachAll nodes ⟨[], []⟩).finish = nodes
    rw [Scaffold.attachAll_root, List.nil_append]
    rfl
  have hcount : countAfterAt 'c' t = 0 := by
    -- nothing is set aside as a code section
    have hcount := h.countAfterAt_eq (Or.inl rfl) [] (by simp)
    rwa [List.append_nil] at hcount
  rw [Template.parse, split_of_countAfterAt hcount]
  simp only [Reader.parseBody_eq hfinish hnodes, Option.toList_none, List.map_nil, List.append_nil]
  exact htrim'

/-- The empty template has no nodes. -/
theorem parse_nil (extra : List Text) : Template.parse extra [] = [] := by
  have hcut : Segmentation.segment [] = ⟨[], []⟩ := by
    rw [Segmentation.segment, Segmentation.segmentFrom]
  show Template.parseBody extra [] ++ [] = []
  rw [List.append_nil, Template.parseBody]
  simp only [hcut]
  rfl

/-- Printing a plain forest in any style and reading the result gives the settled forest, up to the
blanks around its texts. -/
theorem PlainForest.trimAll_parse_forestDoc (style : Style) {forest : List Node}
    (h : PlainForest style.voidElements false forest) :
    Node.trimAll (style.parse (style.print (forestDoc style.indentWidth forest))) =
      Node.settleAll forest := by
  by_cases hne : forest = []
  · subst hne
    show Node.trimAll (Template.parse style.voidElements []) = []
    rw [parse_nil]
    rfl
  · exact (h.written_render style.indentWidth style.printWidth).trimAll_parse hne

/-! ## The core language -/

/-- The words of the directives of the core language. -/
def coreWords : List Text := ["if".toList, "foreach".toList, "while".toList]

/-- Conditions of the core language: letters, numerals, spaces and a few marks, not all blank. -/
def coreCondition (s : Text) : Bool :=
  !Text.allBlank s &&
    s.all fun c => Text.isLetterOrNumeral c || c == ' ' || c == '_' || c == '.' || c == '='

/-- The header of a directive with a condition. -/
def conditionHeader (word condition : Text) : Text :=
  '@' :: (word ++ (' ' :: '(' :: (condition ++ [')'])))

/-- Forests of the core language, where the names `extra` are void and `inBlock` says that the
forest stands in a brace block, which holds no text of its own. -/
inductive CoreForest (extra : List Text) : (inBlock : Bool) → List Node → Prop
  /-- The empty forest. -/
  | nil {inBlock : Bool} : CoreForest extra inBlock []
  /-- Text, with no further text right after it. -/
  | text {content : Text} {rest : List Node} :
    plainText content = true → startsWithText rest = false → CoreForest extra false rest →
      CoreForest extra false (.text content :: rest)
  /-- An element that closes itself. -/
  | closed {inBlock : Bool} {name : Text} {attributes : AttributeMap} {rest : List Node} :
    plainName name = true → attributes.entries.all plainAttribute = true →
      CoreForest extra inBlock rest →
        CoreForest extra inBlock (.markup name attributes [] true :: rest)
  /-- An element with children; it is not void. -/
  | element {inBlock : Bool} {name : Text} {attributes : AttributeMap} {children rest : List Node} :
    plainName name = true → attributes.entries.all plainAttribute = true →
      isVoidWith extra name = false → CoreForest extra false children →
        CoreForest extra inBlock rest →
          CoreForest extra inBlock (.markup name attributes children false :: rest)
  /-- A directive with its block. -/
  | directive {inBlock : Bool} {word condition : Text} {children rest : List Node} :
    word ∈ coreWords → coreCondition condition = true → CoreForest extra true children →
      CoreForest extra inBlock rest →
        CoreForest extra inBlock
          (.code (conditionHeader word condition) [.code ['{'] children false] false :: rest)

/-- A condition of the core language is the rest of a plain header up to its bracket. -/
theorem plainTail_condition {condition : Text} (h : coreCondition condition = true) :
    plainTail none 1 (condition ++ [')']) = true := by
  rw [coreCondition, Bool.and_eq_true] at h
  have hchars := h.2
  clear h
  induction condition with
  | nil => rfl
  | cons c r ih =>
    rw [List.all_cons, Bool.and_eq_true] at hchars
    have hmarks : ∀ d ∈ ['"', '\'', '@', '{', '}', '\n', '<', '(', ')', '[', ']'],
        (!(Text.isLetterOrNumeral d || d == ' ' || d == '_' || d == '.' || d == '=')) = true :=
      List.all_eq_true.1 (by decide)
    have hnot : c ∉ ['"', '\'', '@', '{', '}', '\n', '<', '(', ')', '[', ']'] := by
      intro hmem
      have hout := hmarks c hmem
      rw [hchars.1] at hout
      cases hout
    simp only [List.mem_cons, List.not_mem_nil, or_false, not_or] at hnot
    obtain ⟨hdouble, hsingle, hat, hopen, hclose, hline, htag, hround, hround', hsquare,
      hsquare'⟩ := hnot
    have hquote : isQuote c = false := by simp [isQuote, hdouble, hsingle]
    have hends : endsHeader c (r ++ [')']) = false := by
      simp [endsHeader, hopen, hclose, hline, htag]
    have hdepth : bracketDepth 1 c = 1 := by
      simp [bracketDepth, hround, hround', hsquare, hsquare']
    rw [List.cons_append, plainTail, hquote, if_neg (by decide), if_neg hat, hends, hdepth,
      ih hchars.2]
    rfl

theorem coreWords_spec : ∀ word ∈ coreWords,
    word.all Text.isWordChar = true ∧ isDirectiveWord word = true := by
  decide

theorem plainHeader_conditionHeader {word condition : Text} (hword : word ∈ coreWords)
    (hcondition : coreCondition condition = true) :
    plainHeader (conditionHeader word condition) = true := by
  obtain ⟨hall, hdirective⟩ := coreWords_spec word hword
  have hleading : Text.leadingWord (word ++ (' ' :: '(' :: (condition ++ [')']))) = word :=
    Text.leadingWord_append hall
      (by simp [Text.isWordChar_eq_false_of_isBlank (show Text.isBlank ' ' = true by decide)])
  have htail : plainTail none 0 (' ' :: '(' :: (condition ++ [')'])) = true :=
    plainTail_condition hcondition
  have hend : Text.endsBlank (word ++ (' ' :: '(' :: (condition ++ [')']))) = false := by
    simp [Text.endsBlank, Text.startsBlank, show Text.isBlank ')' = false by decide]
  rw [conditionHeader, plainHeader, hleading, hdirective, List.drop_left, htail, hend]
  rfl

theorem CoreForest.plainForest {extra : List Text} {inBlock : Bool} {forest : List Node}
    (h : CoreForest extra inBlock forest) : PlainForest extra inBlock forest := by
  induction h with
  | nil => exact .nil
  | text hcontent hrest _ ih => exact .text hcontent hrest ih
  | closed hname hattributes _ ih => exact .closed hname hattributes ih
  | element hname hattributes hvoid _ _ ihc ih => exact .element hname hattributes hvoid ihc ih
  | directive hword hcondition _ _ ihc ih =>
    exact .directive (plainHeader_conditionHeader hword hcondition) rfl ihc ih

/-- No block of the core language starts with an `@`, so nothing is left to settle. -/
theorem CoreForest.settleAll_eq {extra : List Text} {inBlock : Bool} {forest : List Node}
    (h : CoreForest extra inBlock forest) : Node.settleAll forest = forest := by
  induction h with
  | nil => rfl
  | text _ _ _ ih => rw [Node.settleAll, Node.settle, ih]
  | closed _ _ _ ih => rw [Node.settleAll, Node.settle, Node.settleAll, ih]
  | element _ _ _ _ _ ihc ih => rw [Node.settleAll, Node.settle, ihc, ih]
  | directive _ _ _ _ ihc ih =>
    rw [Node.settleAll, settle_directive (Or.inl rfl), ihc, ih, Node.settleCode,
      if_neg fun hjoins => absurd hjoins.2 (by decide)]

/-- Printing a forest of the core language in any style and reading the result gives the forest
back, up to the blanks around its texts. -/
theorem Style.trimAll_parse_print (style : Style) {forest : List Node}
    (h : CoreForest style.voidElements false forest) :
    Node.trimAll (style.parse (style.print (forestDoc style.indentWidth forest))) = forest := by
  rw [h.plainForest.trimAll_parse_forestDoc, h.settleAll_eq]

/-- A text, and a directive whose block holds an element with attributes and another directive. -/
def itemList : List Node :=
  [.text "Items:".toList,
   .code (conditionHeader "if".toList "count == 2".toList)
    [.code ['{']
      [.markup "ul".toList
        (.ofEntries [("class".toList, "wide plain".toList), ("hidden".toList, [])])
        [.markup "li".toList .empty [.text "one & 'two'".toList] false,
         .text "and more".toList,
         .markup "br".toList .empty [] true] false,
       .code (conditionHeader "while".toList "items.more".toList) [.code ['{'] [] false] false]
      false] false]

theorem coreForest_itemList : CoreForest ["ul-x".toList] false itemList := by
  refine .text (by decide) rfl (.directive (by decide) (by decide) ?_ .nil)
  refine .element (by decide) (by decide) (by decide) ?_ ?_
  · refine .element (by decide) rfl (by decide) ?_ ?_
    · exact .text (by decide) rfl .nil
    · exact .text (by decide) rfl (.closed (by decide) rfl .nil)
  · exact .directive (by decide) (by decide) .nil .nil

theorem trimAll_parse_print_itemList :
    CoreForest ["ul-x".toList] false itemList ∧
      Node.trimAll (Style.parse ⟨3, 12, ["ul-x".toList]⟩
        (Style.print ⟨3, 12, ["ul-x".toList]⟩ (forestDoc 3 itemList))) = itemList :=
  ⟨coreForest_itemList, Style.trimAll_parse_print ⟨3, 12, ["ul-x".toList]⟩ coreForest_itemList⟩

end RazorTidy
