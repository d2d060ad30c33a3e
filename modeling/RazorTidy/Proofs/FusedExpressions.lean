import RazorTidy.Proofs.Neighbours

/-!
# Fused expressions

Blanks between two inline expressions are kept as one space, so that the two are not printed next to
each other. This module says exactly where two inline expressions of a template are neighbours in
its forest (`Template.neighbours_parse_iff`): nothing stands between them, or blanks and closing
tokens that close nothing there. In the second case blanks are lost, as
`Template.neighbours_acrossCloser` shows.

Two things are followed through the segments of a template: which inline expression is last among
the innermost siblings (`Template.last_scaffoldAfter_iff`), and which pairs there are
(`Template.neighbours_scaffoldAfter_iff`).
-/

set_option autoImplicit false

namespace RazorTidy

open Node (Neighbours)

/-! ## Runs -/

namespace Template

/-- The scaffold after the segments `front` of a template, which the segments `back` follow. -/
def scaffoldAfter (extra : List Text) (front back : List Segment) : Scaffold :=
  buildBefore extra back none front Scaffold.empty

section Runs

variable (extra : List Text)

theorem buildBefore_concat (back front : List Segment) (previous : Option TokenKind)
    (segment : Segment) (s : Scaffold) :
    buildBefore extra back previous (front ++ [segment]) s =
      let before := (front.getLast?.map (·.token.kind)).or previous
      let between := before == some .expression && segment.token.kind == .expression
      ((buildBefore extra (segment :: back) previous front s).addGap segment.gap between).apply
        (Event.ofToken extra segment.token (startsBlock back)) := by
  induction front generalizing previous s with
  | nil => rfl
  | cons next rest ih =>
    rcases next with ⟨gap, token⟩
    rw [List.cons_append, buildBefore, ih, buildBefore, List.getLast?_cons, List.append_assoc,
      List.singleton_append]
    cases rest.getLast? <;> rfl

/-- One more segment is added with its gap, which is a separating space only after an inline
expression. -/
theorem scaffoldAfter_concat (front back : List Segment) (segment : Segment) :
    scaffoldAfter extra (front ++ [segment]) back =
      let between := front.getLast?.any (·.token.kind == .expression) &&
        segment.token.kind == .expression
      ((scaffoldAfter extra front (segment :: back)).addGap segment.gap between).apply
        (Event.ofToken extra segment.token (startsBlock back)) := by
  rw [scaffoldAfter, buildBefore_concat]
  cases front.getLast? <;> rfl

/-- The segments so far give what is listed. -/
theorem length_listed_buildBefore (back : List Segment) (front : List Segment)
    (previous : Option TokenKind) {s : Scaffold} (h : s.OpenParents) :
    (buildBefore extra back previous front s).listed.length =
      s.listed.length + (listing extra previous front []).length := by
  induction front generalizing previous s with
  | nil => rfl
  | cons segment rest ih =>
    rcases segment with ⟨gap, token⟩
    obtain ⟨hgap, hgapListed⟩ := Scaffold.addGap_spec h gap
      (previous == some .expression && token.kind == .expression)
    obtain ⟨htoken, htokenListed⟩ :=
      Scaffold.apply_ofToken_spec hgap extra token (startsBlock (rest ++ back))
    -- whether a block comes next does not change how many nodes a token gives
    have hlength : (tokenNodes extra token (startsBlock (rest ++ back))).length =
        (tokenNodes extra token (startsBlock rest)).length := by
      rcases token with ⟨kind, text⟩
      cases kind <;> rfl
    rw [buildBefore, ih _ htoken, htokenListed, hgapListed, listing]
    simp only [List.length_append, hlength]
    omega

variable {extra}

theorem Ready.openFrames {previous : Option TokenKind} {segments : List Segment} {s : Scaffold}
    (h : Ready previous segments s) : s.OpenFrames := by
  have hstacked : ∀ {nodes : List Node}, Stacked nodes →
      ∀ node ∈ nodes, node.isParent = true ∧ node.isCode .expression = false := by
    intro nodes hnodes
    induction hnodes with
    | nil => exact fun _ hmem => absurd hmem List.not_mem_nil
    | element _ _ _ ih =>
      exact List.forall_mem_cons.2 ⟨⟨rfl, rfl⟩, ih⟩
    | block hblock _ _ ih =>
      exact List.forall_mem_cons.2 ⟨⟨rfl, by simp [Node.isCode, hblock]⟩, ih⟩
    | owned hblock hdirective _ _ ih =>
      exact List.forall_mem_cons.2 ⟨⟨rfl, by simp [Node.isCode, hblock]⟩,
        List.forall_mem_cons.2 ⟨⟨rfl, by simp [Node.isCode, hdirective]⟩, ih⟩⟩
  cases h with
  | sound hsound _ => exact hstacked hsound.stack
  | owing hheader hsound _ _ =>
    exact List.forall_mem_cons.2 ⟨⟨rfl, by simp [Node.isCode, hheader]⟩, hstacked hsound.stack⟩

theorem Ready.buildBefore {previous : Option TokenKind} {front back : List Segment} {s : Scaffold}
    (h : Ready previous (front ++ back) s)
    (hkeyword : ∀ segment ∈ front, segment.token.Keyed) :
    (Template.buildBefore extra back previous front s).OpenFrames := by
  induction front generalizing previous s with
  | nil => exact h.openFrames
  | cons segment rest ih =>
    rcases segment with ⟨gap, token⟩
    apply ih
    · exact h.step (hkeyword _ List.mem_cons_self)
    · exact fun segment hmem => hkeyword segment (List.mem_cons_of_mem _ hmem)

theorem openFrames_scaffoldAfter {front : List Segment} (back : List Segment)
    (hkeyword : ∀ segment ∈ front, segment.token.Keyed) :
    (scaffoldAfter extra front back).OpenFrames := by
  have hstart : Ready none (front ++ back) Scaffold.empty :=
    .sound Scaffold.sound_empty (fun heq => by cases heq)
  exact hstart.buildBefore hkeyword

theorem gapNodes_false_eq_nil_iff (gap : Text) :
    gapNodes gap false = [] ↔ Text.allBlank gap = true := by
  cases hblank : Text.allBlank gap <;> simp [gapNodes, hblank]

theorem gapNodes_true_eq_nil_iff (gap : Text) : gapNodes gap true = [] ↔ gap = [] := by
  cases gap with
  | nil => simp [gapNodes, Text.allBlank]
  | cons c r => cases hblank : Text.allBlank (c :: r) <;> simp [gapNodes, hblank]

/-- Segments that leave no trace: blank gaps, and tokens that close nothing in the scaffold `s`. -/
def Traceless (s : Scaffold) (segments : List Segment) : Prop :=
  ∀ segment ∈ segments, Text.allBlank segment.gap = true ∧ s.Ignores segment.token

/-- Such segments leave the scaffold as it is. -/
theorem scaffoldAfter_traceless {before between back : List Segment} {segment : Segment}
    (h : Traceless (scaffoldAfter extra (before ++ [segment]) (between ++ back)) between) :
    scaffoldAfter extra (before ++ segment :: between) back =
      scaffoldAfter extra (before ++ [segment]) (between ++ back) := by
  induction between using List.reverseRecOn generalizing back with
  | nil => rfl
  | append_singleton between last ih =>
    rw [List.append_assoc, List.singleton_append] at h ⊢
    obtain ⟨hbetween, hthis⟩ := List.forall_mem_append.1 h
    obtain ⟨hblank, hignores⟩ := hthis last (List.mem_singleton_self last)
    have hkind : (last.token.kind == TokenKind.expression) = false := by
      rcases hignores.kind with hkind | hkind <;> rw [hkind] <;> rfl
    rw [← List.cons_append, ← List.append_assoc, scaffoldAfter_concat, ih hbetween]
    dsimp only
    rw [hkind, Bool.and_false, Scaffold.addGap_eq_attachAll,
      (gapNodes_false_eq_nil_iff last.gap).2 hblank]
    exact hignores.apply_eq extra _

/-- The gap before an inline expression gives no node after another one and ignored tokens: it is
blank, and empty right after the other one. -/
theorem gapNodes_eq_nil_iff {s : Scaffold} {segment : Segment}
    (hkind : segment.token.kind = .expression) {between : List Segment}
    (htraceless : Traceless s between) (before : List Segment) (gap : Text) :
    gapNodes gap ((before ++ segment :: between).getLast?.any (·.token.kind == .expression)) = [] ↔
      Text.allBlank gap = true ∧ (between = [] → gap = []) := by
  rcases List.eq_nil_or_concat between with rfl | ⟨between', last, rfl⟩
  · rw [List.getLast?_concat, Option.any_some, hkind, beq_self_eq_true, gapNodes_true_eq_nil_iff]
    constructor
    · rintro rfl
      exact ⟨rfl, fun _ => rfl⟩
    · exact fun h => h.2 rfl
  · have hignored := (htraceless last (by simp)).2.kind
    have hlast : (last.token.kind == TokenKind.expression) = false := by
      rcases hignored with hkind | hkind <;> rw [hkind] <;> rfl
    rw [List.concat_eq_append, ← List.cons_append, ← List.append_assoc, List.getLast?_concat,
      Option.any_some, hlast, gapNodes_false_eq_nil_iff]
    simp

/-- Two inline expressions of a template between which nothing is kept: the segments between them
leave no trace, and the gap before the second is blank; it is empty where the second comes right
after the first. -/
structure Fused (extra : List Text) (before : List Segment) (segment : Segment)
    (between : List Segment) (next : Segment) (back : List Segment) : Prop where
  segment_kind : segment.token.kind = .expression
  next_kind : next.token.kind = .expression
  traceless :
    Traceless (scaffoldAfter extra (before ++ [segment]) (between ++ next :: back)) between
  blank : Text.allBlank next.gap = true
  empty : between = [] → next.gap = []

section Pairs

variable {first second : Node} (hfirst : first.isCode .expression = true)
include hfirst

/-- The inline expression that is last among the innermost siblings is that of the last token but
for ignored ones and blanks. -/
theorem last_scaffoldAfter_iff {front : List Segment} (back : List Segment)
    (hkeyword : ∀ segment ∈ front, segment.token.Keyed) :
    (scaffoldAfter extra front back).innermost.getLast? = some first ↔
      ∃ before segment between, front = before ++ segment :: between ∧
        segment.token.kind = .expression ∧ first = .code segment.token.text [] true ∧
        Traceless (scaffoldAfter extra (before ++ [segment]) (between ++ back)) between := by
  induction front using List.reverseRecOn generalizing back with
  | nil =>
    constructor
    · intro hlast
      cases hlast
    · rintro ⟨before, segment, between, heq, -⟩
      simp at heq
  | append_singleton front last ih =>
    have hkeywords := List.forall_mem_append.1 hkeyword
    have hlastKeyword := hkeywords.2 last (List.mem_singleton_self last)
    have hframes : (scaffoldAfter extra front (last :: back)).OpenFrames :=
      openFrames_scaffoldAfter _ hkeywords.1
    have ih := ih (last :: back) hkeywords.1
    rw [scaffoldAfter_concat]
    by_cases hkind : last.token.kind = .expression
    · -- the last token is an inline expression, so its node is last
      have hgap : ∀ gap between, (((scaffoldAfter extra front (last :: back)).addGap gap
          between).attach (.code last.token.text [] true)).innermost.getLast? =
            some (.code last.token.text [] true) := by
        intro gap between
        rw [Scaffold.addGap_eq_attachAll,
          (hframes.attachAll _).openParents.innermost_attach, List.getLast?_concat]
      have hevent : Event.ofToken extra last.token (startsBlock back) =
          .start (.code last.token.text [] true) := by
        rw [Event.ofToken, hkind]
      simp only [hevent, Scaffold.apply, Scaffold.add, Node.isSelfClosing, if_true, hgap,
        Option.some.injEq]
      constructor
      · rintro rfl
        exact ⟨front, last, [], rfl, hkind, rfl, fun _ hmem => absurd hmem List.not_mem_nil⟩
      · rintro ⟨before, segment, between, heq, -, rfl, htraceless⟩
        rcases concat_eq_append_cons_iff.1 heq with ⟨-, -, rfl⟩ | ⟨between', rfl, -⟩
        · rfl
        · -- an inline expression is not ignored
          have hignored := (htraceless last (by simp)).2.kind
          rw [hkind] at hignored
          rcases hignored with hignored | hignored <;> cases hignored
    · have hfalse : (last.token.kind == TokenKind.expression) = false :=
        beq_eq_false_iff_ne.2 hkind
      dsimp only
      rw [hfalse, Bool.and_false,
        Scaffold.last_apply_iff hfirst (hframes.addGap _ _) extra _ hkind hlastKeyword,
        Scaffold.last_addGap_iff hfirst hframes, ih, gapNodes_false_eq_nil_iff]
      constructor
      · rintro ⟨⟨⟨before, segment, between, rfl, hsegment, hnode, htraceless⟩, hblank⟩, hignores⟩
        refine ⟨before, segment, between ++ [last], by simp, hsegment, hnode, ?_⟩
        rw [List.append_assoc, List.singleton_append]
        have hsame := scaffoldAfter_traceless htraceless
        rw [Scaffold.addGap_eq_attachAll, (gapNodes_false_eq_nil_iff _).2 hblank] at hignores
        refine List.forall_mem_append.2 ⟨htraceless, ?_⟩
        intro other hother
        rw [List.mem_singleton.1 hother, ← hsame]
        exact ⟨hblank, hignores⟩
      · rintro ⟨before, segment, between, heq, hsegment, hnode, htraceless⟩
        rcases concat_eq_append_cons_iff.1 heq with ⟨-, -, rfl⟩ | ⟨between', rfl, rfl⟩
        · exact absurd hsegment hkind
        · rw [List.append_assoc, List.singleton_append] at htraceless
          obtain ⟨hbetween, hthis⟩ := List.forall_mem_append.1 htraceless
          obtain ⟨hblank, hignores⟩ := hthis last (List.mem_singleton_self last)
          have hsame := scaffoldAfter_traceless hbetween
          refine ⟨⟨⟨before, segment, between', rfl, hsegment, hnode, hbetween⟩, hblank⟩, ?_⟩
          rw [Scaffold.addGap_eq_attachAll, (gapNodes_false_eq_nil_iff _).2 hblank, hsame]
          exact hignores

/-- The pairs of inline expressions after some segments are the fused ones among them. -/
theorem neighbours_scaffoldAfter_iff (hsecond : second.isCode .expression = true) {k : Nat}
    {front : List Segment} (back : List Segment)
    (hkeyword : ∀ segment ∈ front, segment.token.Keyed) :
    Neighbours (scaffoldAfter extra front back).finish k first second ↔
      ∃ before segment between next rest, front = before ++ segment :: (between ++ next :: rest) ∧
        Fused extra before segment between next (rest ++ back) ∧
        first = .code segment.token.text [] true ∧ second = .code next.token.text [] true ∧
        (listing extra none (before ++ [segment]) []).length = k + 1 := by
  induction front using List.reverseRecOn generalizing back with
  | nil =>
    constructor
    · exact fun h => absurd h Node.not_neighbours_nil
    · rintro ⟨before, segment, between, next, rest, heq, -⟩
      simp at heq
  | append_singleton front last ih =>
    have hkeywords := List.forall_mem_append.1 hkeyword
    have hframes : (scaffoldAfter extra front (last :: back)).OpenFrames :=
      openFrames_scaffoldAfter _ hkeywords.1
    rw [scaffoldAfter_concat]
    dsimp only
    rw [Scaffold.neighbours_segment_iff hframes hfirst hsecond extra _ _ _
      (hkeywords.2 last (List.mem_singleton_self last)), ih (last :: back) hkeywords.1,
      last_scaffoldAfter_iff hfirst _ hkeywords.1]
    -- how many nodes are listed up to the first of the pair
    have hlength : ∀ {before between : List Segment} {segment : Segment},
        front = before ++ segment :: between →
          Traceless (scaffoldAfter extra (before ++ [segment]) (between ++ last :: back)) between →
            (scaffoldAfter extra front (last :: back)).listed.length =
              (listing extra none (before ++ [segment]) []).length := by
      rintro before between segment rfl htraceless
      rw [scaffoldAfter_traceless htraceless, scaffoldAfter,
        length_listed_buildBefore extra _ _ _ Scaffold.openParents_empty]
      exact Nat.zero_add _
    constructor
    · rintro (⟨before, segment, between, next, rest, rfl, hfused, hnodes⟩ |
        ⟨hkind, hnode, hgap, ⟨before, segment, between, hfront, hsegment, rfl, htraceless⟩, hk⟩)
      · refine ⟨before, segment, between, next, rest ++ [last], by simp, ?_, hnodes⟩
        rw [List.append_assoc, List.singleton_append]
        exact hfused
      · rw [hfront, hkind, beq_self_eq_true, Bool.and_true,
          gapNodes_eq_nil_iff hsegment htraceless] at hgap
        refine ⟨before, segment, between, last, [], by simp [hfront], ?_, rfl, hnode, ?_⟩
        · exact ⟨hsegment, hkind, htraceless, hgap.1, hgap.2⟩
        · rw [← hlength hfront htraceless, ← hk]
          rfl
    · rintro ⟨before, segment, between, next, rest, heq, hfused, rfl, rfl, hk⟩
      rw [← List.cons_append, ← List.append_assoc] at heq
      rcases concat_eq_append_cons_iff.1 heq with ⟨rfl, hfront, rfl⟩ | ⟨rest', rfl, hfront⟩
      · obtain ⟨hsegment, hnext, htraceless, hblank, hempty⟩ := hfused
        refine .inr ⟨hnext, rfl, ?_, ⟨before, segment, between, hfront, hsegment, rfl,
          htraceless⟩, ?_⟩
        · rw [hfront, hnext, beq_self_eq_true, Bool.and_true,
            gapNodes_eq_nil_iff hsegment htraceless]
          exact ⟨hblank, hempty⟩
        · rw [hlength hfront htraceless, hk]
          rfl
      · rw [List.append_assoc, List.singleton_append] at hfused
        rw [List.append_assoc, List.cons_append] at hfront
        exact .inl ⟨before, segment, between, next, rest', hfront, hfused, rfl, rfl, hk⟩

end Pairs

end Runs

/-! ## Templates -/

/-- Two inline expressions are neighbours in the forest of a template exactly where its segments
have them fused: nothing stands between them, or only closing tokens that close nothing, with blanks
around these. -/
theorem neighbours_parse_iff (extra : List Text) (source : Text) {first second : Node}
    (hfirst : first.isCode .expression = true) (hsecond : second.isCode .expression = true)
    (k : Nat) :
    Neighbours (parse extra source) k first second ↔
      ∃ before segment between next rest,
        (Segmentation.segment (CodeSection.split source).1).segments =
          before ++ segment :: (between ++ next :: rest) ∧
        Fused extra before segment between next rest ∧
        first = .code segment.token.text [] true ∧ second = .code next.token.text [] true ∧
        (listing extra none (before ++ [segment]) []).length = k + 1 := by
  rcases hsplit : CodeSection.split source with ⟨body, codeSection⟩
  have hkeyword : ∀ segment ∈ (Segmentation.segment body).segments, segment.token.Keyed :=
    fun segment hmem codeKind => Segmentation.ofKeyword_of_mem_tokens (List.mem_map_of_mem hmem)
  have hruns := @neighbours_scaffoldAfter_iff extra first second hfirst hsecond k _ [] hkeyword
  simp only [List.append_nil] at hruns
  have hframes : (scaffoldAfter extra (Segmentation.segment body).segments []).OpenFrames :=
    openFrames_scaffoldAfter [] hkeyword
  have hbuild : build extra none (Segmentation.segment body).segments Scaffold.empty =
      scaffoldAfter extra (Segmentation.segment body).segments [] := by
    have happend := build_append extra [] (Segmentation.segment body).segments none Scaffold.empty
    rw [List.append_nil] at happend
    exact happend
  -- the code section, the text at the end and a template that is one text add no pair
  have hbody : Neighbours (parseBody extra body) k first second ↔
      Neighbours (scaffoldAfter extra (Segmentation.segment body).segments []).finish k first
        second := by
    rw [← Scaffold.neighbours_addGap_iff hframes hsecond (Segmentation.segment body).tail false,
      parseBody, hbuild]
    split
    · rename_i hnil
      rw [hnil]
      split
      · rfl
      · exact @Node.neighbours_concat_text_iff [] _ _ _ hsecond _
    · rfl
  have hparse : parse extra source = parseBody extra body ++ codeSection.toList.map Node.text := by
    rw [parse, hsplit]
  rw [hparse, ← hruns, ← hbody]
  cases codeSection with
  | none => rw [Option.toList_none, List.map_nil, List.append_nil]
  | some content => exact Node.neighbours_concat_text_iff hsecond content

/-- Two inline expressions of an element fuse over the end of an element that is not open. -/
theorem neighbours_parse_inElement :
    let source := "<p>@a </i> @b</p>".toList
    let cut := Segmentation.segment (CodeSection.split source).1
    (Node.code "@a".toList [] true).isCode .expression = true ∧
      (Node.code "@b".toList [] true).isCode .expression = true ∧
      ∃ before segment between next rest,
        cut.segments = before ++ segment :: (between ++ next :: rest) ∧
        Fused [] before segment between next rest ∧
        Node.code "@a".toList [] true = .code segment.token.text [] true ∧
        Node.code "@b".toList [] true = .code next.token.text [] true ∧
        (listing [] none (before ++ [segment]) []).length = 1 + 1 := by
  intro source cut
  have hfirst : (Node.code "@a".toList [] true).isCode .expression = true := by decide
  have hsecond : (Node.code "@b".toList [] true).isCode .expression = true := by decide
  have hparse : parse [] source = [.markup "p".toList .empty
      [.code "@a".toList [] true, .code "@b".toList [] true] false] := by with_unfolding_all rfl
  refine ⟨hfirst, hsecond, (neighbours_parse_iff [] source hfirst hsecond 1).1 ?_⟩
  have hchildren : Neighbours [.code "@a".toList [] true, .code "@b".toList [] true] 0
      (.code "@a".toList [] true) (.code "@b".toList [] true) := .here [] _ _ []
  rw [hparse]
  exact @Neighbours.inside [] (.markup _ _ _ _) [] 0 _ _ hchildren

/-- Blanks between two inline expressions are lost where a closing tag between them closes
nothing. -/
theorem neighbours_acrossCloser :
    let source := "@a </x> @b".toList
    (Segmentation.segment (CodeSection.split source).1).segments =
        [⟨[], ⟨.expression, "@a".toList⟩⟩, ⟨[' '], ⟨.closeTag, "</x>".toList⟩⟩,
          ⟨[' '], ⟨.expression, "@b".toList⟩⟩] ∧
      Neighbours (parse [] source) 0 (.code "@a".toList [] true) (.code "@b".toList [] true) := by
  intro source
  have hparse : parse [] source =
      [.code "@a".toList [] true, .code "@b".toList [] true] := by with_unfolding_all rfl
  refine ⟨by with_unfolding_all rfl, ?_⟩
  rw [hparse]
  exact .here [] _ _ []

end Template

end RazorTidy
