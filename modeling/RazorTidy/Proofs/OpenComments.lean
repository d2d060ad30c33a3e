import RazorTidy.Proofs.ByteScan
import RazorTidy.Proofs.OpenModes
import RazorTidy.Proofs.PlainPlaces

/-!
# Open line comments

A text leaves a line comment open if it holds a `//` outside of literals and of other comments and no
line end behind it (`commentOpen`). Whatever is put on the same line after it belongs to the comment.

In code, the cut of a template passes over a line comment up to its line end, so no token starts in a
comment: the text in front of a token leaves none open (`Segmentation.commentOpen_gap`). Where the
modes agree with the open nodes, it follows that a text in a brace block that is not the last child
leaves no comment open (`Template.commentsClosed_parseBody`). An explicit expression `@(…)` is passed
over as a whole, and a `//` in it is not looked at.
-/

set_option autoImplicit false

namespace RazorTidy

/-- Whether a line comment is open at the end of a text. The first `hidden` characters belong to a
literal or a comment already recognised. -/
def commentOpen : (hidden : Nat) → Text → Bool
  | _, [] => false
  | hidden + 1, _ :: r => commentOpen hidden r
  | 0, c :: r =>
    (c == '/' && r.head? == some '/' && !r.contains '\n') ||
      commentOpen ((codeComment? (c :: r)).getD (hiddenAfter c r + 1) - 1) r

/-! ## Look-ahead that needs no more text -/

/-- Where a literal ends is seen from the characters that it takes. -/
theorem literalRest?_take {q : Char} (hq : isQuote q = true) {s : Text} {n : Nat}
    (h : literalRest? q s = some n) (t : Text) :
    literalRest? q (s.take n ++ t) = some n ∧ n ≤ s.length := by
  fun_induction literalRest? q s generalizing n with
  | case1 => cases h
  | case2 => cases h
  | case3 c r ih =>
    obtain ⟨m, hm, rfl⟩ := Option.map_eq_some_iff.1 h
    obtain ⟨hrest, hle⟩ := ih hm
    rw [List.take_succ_cons, List.take_succ_cons, List.cons_append, List.cons_append, literalRest?,
      hrest]
    exact ⟨rfl, by simpa using hle⟩
  | case4 => cases h
  | case5 r =>
    cases h
    exact ⟨literalRest?_close hq _, by simp⟩
  | case6 c r hlast hescape hline hquote ih =>
    obtain ⟨m, hm, rfl⟩ := Option.map_eq_some_iff.1 h
    have hslash : c ≠ '\\' := by
      intro hc
      cases r with
      | nil => exact hlast hc rfl
      | cons d r' => exact hescape d r' hc rfl
    obtain ⟨hrest, hle⟩ := ih hm
    rw [List.take_succ_cons, List.cons_append, literalRest?_of_ne hquote hslash hline, hrest]
    exact ⟨rfl, by simpa using hle⟩

theorem literalRest?_append {q : Char} (hq : isQuote q = true) {s : Text} {n : Nat}
    (h : literalRest? q s = some n) (t : Text) : literalRest? q (s ++ t) = some n := by
  have htake := (literalRest?_take hq h (s.drop n ++ t)).1
  rwa [← List.append_assoc, List.take_append_drop] at htake

/-- What a quote hides is seen from the hidden characters, in front of a text that goes on as the
first one did. -/
theorem hiddenAfter_take (c : Char) (r : Text) {t : Text} (ht : t <+: r.drop (hiddenAfter c r)) :
    hiddenAfter c (r.take (hiddenAfter c r) ++ t) = hiddenAfter c r ∧ hiddenAfter c r ≤ r.length := by
  by_cases hq : isQuote c = true
  · cases hrest : literalRest? c r with
    | some n =>
      have hn : hiddenAfter c r = n := by rw [hiddenAfter, if_pos hq, hrest, Option.getD_some]
      obtain ⟨htake, hle⟩ := literalRest?_take hq hrest t
      rw [hn, hiddenAfter, if_pos hq, htake, Option.getD_some]
      exact ⟨rfl, hle⟩
    | none =>
      have hn : hiddenAfter c r = 0 := by rw [hiddenAfter, if_pos hq, hrest, Option.getD_none]
      rw [hn, List.drop_zero] at ht
      rw [hn, List.take_zero, List.nil_append, hiddenAfter, if_pos hq]
      -- a literal in the shorter text would be one in the longer
      cases hshort : literalRest? c t with
      | none => exact ⟨rfl, Nat.zero_le _⟩
      | some n =>
        obtain ⟨more, rfl⟩ := ht
        rw [literalRest?_append hq hshort] at hrest
        cases hrest
  · rw [hiddenAfter_of_not_isQuote hq, hiddenAfter_of_not_isQuote hq]
    exact ⟨rfl, Nat.zero_le _⟩

/-- Where a pattern occurs first is seen from the characters up to its end. -/
theorem Text.indexOf?_take {pattern s : Text} {n : Nat} (h : indexOf? pattern s = some n) (t : Text) :
    indexOf? pattern (s.take (n + pattern.length) ++ t) = some n ∧ n + pattern.length ≤ s.length := by
  have hzero : ∀ u : Text, pattern.isPrefixOf u = true → indexOf? pattern u = some 0 := by
    intro u hu
    cases u with
    | nil =>
      have hnil : pattern = [] := List.prefix_nil.1 (List.isPrefixOf_iff_prefix.1 hu)
      rw [hnil]
      rfl
    | cons c r => rw [indexOf?, if_pos hu]
  induction s generalizing n with
  | nil =>
    rw [indexOf?] at h
    split at h
    · rename_i hempty
      cases h
      rw [List.isEmpty_iff] at hempty
      subst hempty
      exact ⟨hzero _ (by simp), by simp⟩
    · cases h
  | cons c r ih =>
    rw [indexOf?] at h
    split at h
    · rename_i hprefix
      cases h
      obtain ⟨more, hmore⟩ := List.isPrefixOf_iff_prefix.1 hprefix
      rw [← hmore, Nat.zero_add, List.take_left]
      exact ⟨hzero _ (by simp), by simp⟩
    · rename_i hnot
      obtain ⟨m, hm, rfl⟩ := Option.map_eq_some_iff.1 h
      obtain ⟨hshort, hle⟩ := ih hm
      have hsucc : m + 1 + pattern.length = m + pattern.length + 1 := by omega
      rw [hsucc, List.take_succ_cons, List.cons_append, indexOf?, if_neg, hshort]
      · exact ⟨rfl, by simpa using hle⟩
      · -- a pattern at the start of the shorter text would lie in the kept part
        intro hprefix
        apply hnot
        rw [List.isPrefixOf_iff_prefix] at hprefix ⊢
        have hkept : c :: r.take (m + pattern.length) <+: c :: (r.take (m + pattern.length) ++ t) :=
          List.prefix_append _ t
        have hlength : pattern.length ≤ (c :: r.take (m + pattern.length)).length := by
          rw [List.length_cons, List.length_take]
          omega
        refine (List.prefix_of_prefix_length_le hprefix hkept hlength).trans ?_
        rw [List.cons_prefix_cons]
        exact ⟨rfl, List.take_prefix _ _⟩

theorem Text.indexOf?_append {pattern s : Text} {n : Nat} (h : indexOf? pattern s = some n)
    (t : Text) : indexOf? pattern (s ++ t) = some n := by
  have htake := (indexOf?_take h (s.drop (n + pattern.length) ++ t)).1
  rwa [← List.append_assoc, List.take_append_drop] at htake

/-! ## Steps over a text -/

attribute [local simp] commentOpen in
theorem commentOpen_append_of_length (u t : Text) : commentOpen u.length (u ++ t) = commentOpen 0 t := by
  induction u with
  | nil => rfl
  | cons c u ih => simp [ih]

/-- A character and the characters that it hides, or a comment that ends, are passed over. -/
theorem commentOpen_step {c : Char} {u t : Text}
    (hlength : (codeComment? (c :: (u ++ t))).getD (hiddenAfter c (u ++ t) + 1) = u.length + 1)
    (hend : c = '/' → (u ++ t).head? = some '/' → '\n' ∈ u ++ t) :
    commentOpen 0 (c :: (u ++ t)) = commentOpen 0 t := by
  have hclosed : (c == '/' && (u ++ t).head? == some '/' && !(u ++ t).contains '\n') = false := by
    rw [Bool.eq_false_iff]
    intro hopen
    simp only [Bool.and_eq_true, beq_iff_eq, Bool.not_eq_true', List.contains_eq_mem,
      decide_eq_false_iff_not] at hopen
    exact absurd (hend hopen.1.1 hopen.1.2) hopen.2
  rw [commentOpen, hclosed, Bool.false_or, hlength, Nat.add_sub_cancel, commentOpen_append_of_length]

/-- A character that starts no literal and no comment is passed over. -/
theorem commentOpen_cons {c : Char} (hc : c ∉ ['/', '"', '\'']) (t : Text) :
    commentOpen 0 (c :: t) = commentOpen 0 t := by
  simp only [List.mem_cons, List.not_mem_nil, or_false, not_or] at hc
  have hquote : ¬ isQuote c = true := by simp [isQuote, hc.2.1, hc.2.2]
  refine commentOpen_step (u := []) ?_ ?_
  · rw [List.nil_append, ByteScan.codeComment?_of_ne hc.1, hiddenAfter_of_not_isQuote hquote]
    rfl
  · exact fun hslash => absurd hslash hc.1

theorem commentOpen_blanks {u : Text} (hu : ∀ c ∈ u, Text.isBlank c = true) (t : Text) :
    commentOpen 0 (u ++ t) = commentOpen 0 t := by
  induction u with
  | nil => rfl
  | cons c u ih =>
    have hmark := Place.isBlank_not_mark (hu c List.mem_cons_self)
    rw [List.cons_append, commentOpen_cons, ih fun d hd => hu d (List.mem_cons_of_mem _ hd)]
    exact fun hmem => hmark (List.mem_append_right ['<', '@', '\x7b', '\x7d'] hmem)

/-- A comment that is open at the end of a text starts with a `//` on its last line. -/
theorem exists_of_commentOpen {hidden : Nat} {s : Text} (h : commentOpen hidden s = true) :
    ∃ front tail, s = front ++ '/' :: '/' :: tail ∧ '\n' ∉ tail := by
  fun_induction commentOpen hidden s with
  | case1 => cases h
  | case2 hidden c r ih =>
    obtain ⟨front, tail, rfl, htail⟩ := ih h
    exact ⟨c :: front, tail, rfl, htail⟩
  | case3 c r ih =>
    rw [Bool.or_eq_true] at h
    rcases h with h | h
    · simp only [Bool.and_eq_true, beq_iff_eq, Bool.not_eq_true', List.contains_eq_mem,
        decide_eq_false_iff_not] at h
      obtain ⟨⟨rfl, hhead⟩, hline⟩ := h
      cases r with
      | nil => cases hhead
      | cons d tail =>
        cases hhead
        exact ⟨[], tail, rfl, fun hmem => hline (List.mem_cons_of_mem _ hmem)⟩
    · obtain ⟨front, tail, rfl, htail⟩ := ih h
      exact ⟨c :: front, tail, rfl, htail⟩

/-! ## Comments in the cut of a template -/

/-- A line comment is passed over up to its line end. -/
theorem commentOpen_lineComment (r : Text) {gap : Text} (hgap : gap.head? = some '\n') :
    commentOpen 0 ('/' :: '/' :: (r.takeWhile (· != '\n') ++ gap)) = commentOpen 0 gap := by
  obtain ⟨more, rfl⟩ : ∃ more, gap = '\n' :: more := by
    cases gap with
    | nil => cases hgap
    | cons c more => exact ⟨more, by rw [Option.some.inj hgap]⟩
  have hline : (r.takeWhile (· != '\n') ++ '\n' :: more).takeWhile (· != '\n') =
      r.takeWhile (· != '\n') := by
    have hall : ∀ c ∈ r.takeWhile (· != '\n'), (c != '\n') = true :=
      fun c hc => (List.mem_takeWhile_imp hc :)
    rw [List.takeWhile_append_of_pos hall, List.takeWhile_cons_of_neg (by simp), List.append_nil]
  refine commentOpen_step (u := '/' :: r.takeWhile (· != '\n')) ?_ ?_
  · rw [List.cons_append, codeComment?, hline]
    rfl
  · intro _ _
    simp

/-- A block comment that ends is passed over. -/
theorem commentOpen_blockComment {r : Text} {n : Nat} (h : Text.indexOf? ['*', '/'] r = some n)
    (gap : Text) : commentOpen 0 ('/' :: '*' :: (r.take (n + 2) ++ gap)) = commentOpen 0 gap := by
  obtain ⟨hfound, hle⟩ : Text.indexOf? ['*', '/'] (r.take (n + 2) ++ gap) = some n ∧ n + 2 ≤ r.length :=
    Text.indexOf?_take h gap
  refine commentOpen_step (u := '*' :: r.take (n + 2)) ?_ ?_
  · rw [List.cons_append, codeComment?, hfound, List.length_cons, List.length_take,
      Nat.min_eq_left hle]
    rfl
  · intro _ hhead
    cases hhead

/-- A comment in a text is one in a longer text. -/
theorem codeComment?_eq_none_of_isPrefix {gap r : Text} (hgap : gap <+: r)
    (h : codeComment? ('/' :: r) = none) :
    codeComment? ('/' :: gap) = none ∧ gap.head? ≠ some '/' := by
  obtain ⟨more, rfl⟩ := hgap
  cases gap with
  | nil => exact ⟨rfl, by simp⟩
  | cons c g =>
    by_cases hslash : c = '/'
    · subst hslash
      cases h
    refine ⟨?_, by simpa using hslash⟩
    by_cases hstar : c = '*'
    · subst hstar
      rw [List.cons_append, codeComment?, Option.map_eq_none_iff] at h
      rw [codeComment?, Option.map_eq_none_iff]
      cases hfound : Text.indexOf? ['*', '/'] g with
      | none => rfl
      | some n =>
        rw [Text.indexOf?_append hfound] at h
        cases h
    · simp [codeComment?, hslash, hstar]

/-- A character that starts no comment is passed over with the characters that it hides. -/
theorem commentOpen_hidden {c : Char} {r gap : Text} (hnone : codeComment? (c :: r) = none)
    (hgap : gap <+: r.drop (hiddenAfter c r)) :
    commentOpen 0 (c :: (r.take (hiddenAfter c r) ++ gap)) = commentOpen 0 gap := by
  obtain ⟨hhidden, hle⟩ := hiddenAfter_take c r hgap
  by_cases hslash : c = '/'
  · subst hslash
    have hzero : hiddenAfter '/' r = 0 := hiddenAfter_of_not_isQuote (by decide) r
    rw [hzero, List.drop_zero] at hgap
    obtain ⟨hcomment, hhead⟩ := codeComment?_eq_none_of_isPrefix hgap hnone
    rw [hzero, List.take_zero, List.nil_append]
    refine commentOpen_step (u := []) ?_ ?_
    · rw [List.nil_append, hcomment, hiddenAfter_of_not_isQuote (by decide)]
      rfl
    · intro _ hslash
      exact absurd hslash hhead
  · apply commentOpen_step
    · rw [ByteScan.codeComment?_of_ne hslash, hhidden, List.length_take, Nat.min_eq_left hle]
      rfl
    · exact fun hc => absurd hc hslash

/-- The text to pass over at once in code, apart from an escaped `@` and an explicit expression. -/
theorem Place.textLength_of_inCode {place : Place} (hcode : Mode.inCode place.modes = true) {c : Char}
    {r : Text} (h : c = '@' → r.head? ≠ some '@' ∧ r.head? ≠ some '(') :
    place.textLength (c :: r) = (codeComment? (c :: r)).getD (hiddenAfter c r + 1) := by
  unfold textLength
  split
  · rename_i heq
    cases heq
    exact absurd rfl (h rfl).1
  · rename_i heq
    cases heq
    exact absurd rfl (h rfl).2
  · rename_i heq
    cases heq
    rw [if_pos hcode]
  · rename_i heq
    cases heq

/-- A comment of code that ends before the gap leaves nothing open in it. -/
theorem commentOpen_codeComment {c : Char} {r gap : Text} {n : Nat}
    (hcomment : codeComment? (c :: r) = some n) (hrest : r.drop (n - 1) ≠ [])
    (hline : (r.drop (n - 1)).head? = some '\n' → gap.head? = some '\n') :
    commentOpen 0 (c :: (r.take (n - 1) ++ gap)) = commentOpen 0 gap := by
  unfold codeComment? at hcomment
  split at hcomment
  · rename_i r' heq
    cases heq
    cases hcomment
    have htake : r'.take (r'.takeWhile (· != '\n')).length = r'.takeWhile (· != '\n') :=
      (List.prefix_iff_eq_take.1 (List.takeWhile_prefix _)).symm
    have hdrop : r'.drop (r'.takeWhile (· != '\n')).length = r'.dropWhile (· != '\n') := by
      have hsplit := List.take_append_drop (r'.takeWhile (· != '\n')).length r'
      rw [htake] at hsplit
      exact List.append_cancel_left (hsplit.trans List.takeWhile_append_dropWhile.symm)
    rw [Nat.add_sub_assoc (by decide), List.take_succ_cons, htake]
    rw [Nat.add_sub_assoc (by decide), List.drop_succ_cons, hdrop] at hrest hline
    apply commentOpen_lineComment
    apply hline
    -- what follows the line comment is its line end
    cases hmore : r'.dropWhile (· != '\n') with
    | nil => exact absurd hmore hrest
    | cons d more =>
      have hd := List.head_dropWhile_not (· != '\n') (l := r') (by rw [hmore]; simp)
      simp only [hmore, List.head_cons, bne_eq_false_iff_eq] at hd
      rw [List.head?_cons, hd]
  · rename_i r' heq
    cases heq
    obtain ⟨m, hm, rfl⟩ := Option.map_eq_some_iff.1 hcomment
    exact commentOpen_blockComment hm gap
  · cases hcomment

/-- A piece that starts with an escaped sign, or with a sign before a bracket that is not closed, has
nothing in it that opens a comment. -/
theorem Place.commentOpen_sign {place : Place} {r gap : Text}
    (hhead : r.head? = some '@' ∨ r.head? = some '(')
    (hexplicit : ¬ ['@', '('] <+: '@' :: r.take (place.textLength ('@' :: r) - 1)) :
    commentOpen 0 ('@' :: (r.take (place.textLength ('@' :: r) - 1) ++ gap)) =
      commentOpen 0 gap := by
  cases r with
  | nil => simp at hhead
  | cons d r' =>
    rcases hhead with hhead | hhead
    · cases hhead
      have hlength : place.textLength ('@' :: '@' :: r') = 2 := rfl
      rw [hlength, List.take_succ_cons, List.take_zero, List.singleton_append,
        commentOpen_cons (by decide), commentOpen_cons (by decide)]
    · cases hhead
      have hlength : place.textLength ('@' :: '(' :: r') =
          (bracketGroup? ('(' :: r')).getD 0 + 1 := rfl
      cases hgroup : bracketGroup? ('(' :: r') with
      | none =>
        rw [hlength, hgroup, Option.getD_none, Nat.zero_add, Nat.sub_self, List.take_zero,
          List.nil_append, commentOpen_cons (by decide)]
      | some n =>
        -- the expression is passed over as a whole, which starts the piece with its bracket
        obtain ⟨m, -, rfl⟩ := Option.map_eq_some_iff.1 hgroup
        rw [hlength, hgroup, Option.getD_some, Nat.add_sub_cancel, List.take_succ_cons] at hexplicit
        exact absurd ⟨r'.take m, rfl⟩ hexplicit

/-- In code, what is passed over at once leaves no comment open, if a line end follows a line comment.
-/
theorem Place.commentOpen_piece {place : Place} (hcode : Mode.inCode place.modes = true) {c : Char}
    {r gap : Text} (hexplicit : ¬ ['@', '('] <+: c :: r.take (place.textLength (c :: r) - 1))
    (hgap : gap <+: r.drop (place.textLength (c :: r) - 1))
    (hrest : r.drop (place.textLength (c :: r) - 1) ≠ [])
    (hline : (r.drop (place.textLength (c :: r) - 1)).head? = some '\n' → gap.head? = some '\n') :
    commentOpen 0 (c :: (r.take (place.textLength (c :: r) - 1) ++ gap)) = commentOpen 0 gap := by
  by_cases hat : c = '@' ∧ (r.head? = some '@' ∨ r.head? = some '(')
  · obtain ⟨rfl, hhead⟩ := hat
    exact commentOpen_sign hhead hexplicit
  · have hlength := Place.textLength_of_inCode hcode (c := c) (r := r) (by
      intro hc
      rw [not_and, not_or] at hat
      exact hat hc)
    rw [hlength] at hgap hrest hline ⊢
    cases hcomment : codeComment? (c :: r) with
    | none =>
      rw [hcomment, Option.getD_none, Nat.add_sub_cancel] at hgap
      exact commentOpen_hidden hcomment hgap
    | some n =>
      rw [hcomment, Option.getD_some] at hrest hline
      exact commentOpen_codeComment hcomment hrest hline

namespace Segmentation

variable {place : Place} {s gap tail : Text} {token : Token} {segments : List Segment}

/-- A gap in front of a token starts the text. -/
theorem gap_isPrefix (h : segmentFrom place s = ⟨⟨gap, token⟩ :: segments, tail⟩) : gap <+: s := by
  have htext := text_segmentFrom place s
  rw [h, text, List.flatMap_cons, List.append_assoc, List.append_assoc] at htext
  exact ⟨_, htext⟩

/-- A line end in front of a token belongs to the gap. -/
theorem head?_gap (h : segmentFrom place s = ⟨⟨gap, token⟩ :: segments, tail⟩)
    (hs : s.head? = some '\n') : gap.head? = some '\n' := by
  cases s with
  | nil => cases hs
  | cons c r =>
    cases hs
    obtain ⟨htoken, -⟩ := place.token?_blank (show Text.isBlank '\n' = true by decide) r
    rw [segmentFrom, htoken] at h
    dsimp only at h
    generalize segmentFrom _ _ = rest at h
    rcases rest with ⟨_ | ⟨first, others⟩, tail'⟩
    · cases h
    · cases h
      rfl

/-- In code, no comment is open at the end of the text in front of a token, unless an explicit
expression stands in it. -/
theorem commentOpen_gap (h : segmentFrom place s = ⟨⟨gap, token⟩ :: segments, tail⟩)
    (hcode : Mode.inCode place.modes = true) (hexplicit : ¬ ['@', '('] <:+: gap) :
    commentOpen 0 gap = false := by
  fun_induction segmentFrom place s generalizing gap with
  | case1 place => cases h
  | case2 =>
    -- a token at the start of the text has no gap
    rw [consToken, mk.injEq, List.cons.injEq, Segment.mk.injEq] at h
    rw [← h.1.1.1]
    rfl
  | case3 place c r hnone piece =>
    rename_i ih
    cases hrest : segmentFrom (place.passText piece) (r.drop (place.textLength (c :: r) - 1)) with
    | mk others tail' =>
      rw [hrest] at h ih
      cases others with
      | nil => cases h
      | cons first others =>
        rcases first with ⟨gap', token'⟩
        cases h
        have hgap' : ¬ ['@', '('] <:+: gap' :=
          fun hin => hexplicit (hin.trans (List.suffix_append piece gap').isInfix)
        have hpiece : ¬ ['@', '('] <+: c :: r.take (place.textLength (c :: r) - 1) :=
          fun hin => hexplicit ((hin.trans (List.prefix_append piece gap')).isInfix)
        refine (Place.commentOpen_piece hcode hpiece (gap_isPrefix hrest) ?_
          (head?_gap hrest)).trans (ih rfl hcode hgap')
        intro hnil
        rw [hnil, segmentFrom] at hrest
        cases hrest

end Segmentation

/-! ## Comments in the forest of a template -/

/-- A text that leaves no comment open or holds an explicit expression. -/
def Text.Closes (content : Text) : Prop := commentOpen 0 content = false ∨ ['@', '('] <:+: content

namespace Node

/-- All texts that stand directly in a brace block close their comments. -/
def TextsClose (node : Node) : Prop :=
  node.isCode .block = true → ∀ content, .text content ∈ node.children → Text.Closes content

/-- All texts that stand directly in a brace block, other than its last child, close their comments.
-/
def CommentsClosed (node : Node) : Prop :=
  node.isCode .block = true → ∀ front content back, node.children = front ++ .text content :: back →
    back ≠ [] → Text.Closes content

theorem TextsClose.commentsClosed {node : Node} (h : node.TextsClose) : node.CommentsClosed := by
  intro hblock front content back hchildren _
  exact h hblock content (by rw [hchildren]; simp)

theorem isCode_push? {kind : CodeKind} {node child node' : Node} (h : node.push? child = some node') :
    node'.isCode kind = node.isCode kind := by
  cases node <;> simp [push?] at h <;> rw [← h] <;> rfl

theorem text?_push? {node child node' : Node} (h : node.push? child = some node') :
    node'.text? = none := by
  cases node <;> simp [push?] at h <;> rw [← h] <;> rfl

/-- A block that is the innermost open node is the innermost open one other than directives. -/
theorem head?_frames {nodes : List Node} (h : nodes.head?.any (·.isCode .block) = true) :
    (frames nodes).head?.any (·.isCode .block) = true := by
  cases nodes with
  | nil => cases h
  | cons node rest =>
    have hblock : node.isCode .block = true := h
    have hdirective : node.isCode .directive = false := by
      cases node with
      | code keyword children selfClosing =>
        have hkind : CodeKind.ofKeyword keyword = .block := by simpa [isCode] using hblock
        simp [isCode, hkind]
      | _ => cases hblock
    rw [frames_cons hdirective]
    exact hblock

/-- The texts of a node go on closing their comments with a child that is no text or closes its own.
-/
theorem TextsClose.push {node child node' : Node} (h : node.TextsClose)
    (hpush : node.push? child = some node')
    (hchild : ∀ content, child = .text content → node.isCode .block = true → Text.Closes content) :
    node'.TextsClose := by
  intro hblock content hmem
  rw [isCode_push? hpush] at hblock
  rw [children_push? hpush] at hmem
  rcases List.mem_append.1 hmem with hmem | hmem
  · exact h hblock content hmem
  · exact hchild content (List.mem_singleton.1 hmem).symm hblock

/-- Whatever is put behind texts that close their comments, it is the last child. -/
theorem TextsClose.commentsClosed_push {node child node' : Node} (h : node.TextsClose)
    (hpush : node.push? child = some node') : node'.CommentsClosed := by
  intro hblock front content back hchildren hne
  rw [isCode_push? hpush] at hblock
  rw [children_push? hpush] at hchildren
  obtain ⟨others, last, rfl⟩ : ∃ others last, back = others ++ [last] := by
    rcases List.eq_nil_or_concat back with rfl | ⟨others, last, hback⟩
    · exact absurd rfl hne
    · exact ⟨others, last, by rw [hback, List.concat_eq_append]⟩
  apply h hblock content
  rw [← List.cons_append, ← List.append_assoc] at hchildren
  rw [(List.append_inj' hchildren rfl).1]
  simp

end Node

namespace Scaffold

/-- Comments are closed in all that is finished, and in what is open all texts close theirs. -/
structure Closes (s : Scaffold) : Prop where
  root : Node.EverywhereIn Node.CommentsClosed s.root
  stack : ∀ node ∈ s.stack, node.text? = none ∧ node.TextsClose ∧
    Node.EverywhereIn Node.CommentsClosed node.children

variable {s : Scaffold}

theorem Closes.attach (h : s.Closes) {node : Node}
    (hnode : Node.Everywhere Node.CommentsClosed node)
    (htext : ∀ content, node = .text content → s.stack.head?.any (·.isCode .block) = true →
      Text.Closes content) : (s.attach node).Closes := by
  rcases s with ⟨root, stack⟩
  have hroot : Node.EverywhereIn Node.CommentsClosed (root ++ [node]) := by
    rw [Node.everywhereIn_iff]
    intro n hn
    rcases List.mem_append.1 hn with hn | hn
    · exact (Node.everywhereIn_iff root).1 h.root n hn
    · rwa [List.mem_singleton.1 hn]
  cases stack with
  | nil => exact ⟨hroot, h.stack⟩
  | cons top below =>
    cases hpush : top.push? node with
    | none =>
      simp only [Scaffold.attach, hpush]
      exact ⟨hroot, h.stack⟩
    | some top' =>
      simp only [Scaffold.attach, hpush]
      obtain ⟨htop, hcloses, hchildren⟩ := h.stack top List.mem_cons_self
      refine ⟨h.root, fun n hn => ?_⟩
      rcases List.mem_cons.1 hn with rfl | hn
      · refine ⟨Node.text?_push? hpush, hcloses.push hpush htext, ?_⟩
        rw [Node.children_push? hpush, Node.everywhereIn_iff]
        intro c hc
        rcases List.mem_append.1 hc with hc | hc
        · exact (Node.everywhereIn_iff _).1 hchildren c hc
        · rwa [List.mem_singleton.1 hc]
      · exact h.stack n (List.mem_cons_of_mem _ hn)

theorem Closes.closeTop (h : s.Closes) : s.closeTop.Closes := by
  rcases s with ⟨root, stack⟩
  cases stack with
  | nil => exact h
  | cons top below =>
    obtain ⟨htop, hcloses, hchildren⟩ := h.stack top List.mem_cons_self
    have hbelow : Closes ⟨root, below⟩ :=
      ⟨h.root, fun n hn => h.stack n (List.mem_cons_of_mem _ hn)⟩
    refine hbelow.attach ((Node.everywhere_iff top).2 ⟨hcloses.commentsClosed, hchildren⟩) ?_
    rintro content rfl
    cases htop

theorem Closes.closeMany (h : s.Closes) (n : Nat) : (s.closeMany n).Closes := by
  induction n generalizing s with
  | zero => exact h
  | succ n ih => exact ih h.closeTop

theorem Closes.addGap (h : s.Closes) {gap : Text}
    (hgap : s.stack.head?.any (·.isCode .block) = true → Text.Closes gap) (between : Bool) :
    (s.addGap gap between).Closes := by
  have htext : ∀ content, Node.Everywhere Node.CommentsClosed (.text content) :=
    fun content hblock => by cases hblock
  rw [Scaffold.addGap]
  split
  · exact h
  split
  · refine h.attach (htext gap) fun content heq hblock => ?_
    cases heq
    exact hgap hblock
  split
  · refine h.attach (htext [' ']) fun content heq _ => ?_
    cases heq
    exact Or.inl (by decide)
  · exact h

/-- One event leaves the texts as they are: it adds none. -/
theorem Closes.apply (h : s.Closes) {event : Event}
    (hevent : event.Starts (fun node => node.text? = none) fun node => node.text? = none) :
    (s.apply event).Closes := by
  cases event with
  | start node =>
    obtain ⟨hchildren, htext⟩ := hevent
    rw [ite_self] at htext
    have hcloses : node.TextsClose := by
      intro _ content hmem
      rw [hchildren] at hmem
      cases hmem
    have hnone : Node.EverywhereIn Node.CommentsClosed node.children := by
      rw [hchildren]
      trivial
    rw [Scaffold.apply, add]
    split
    · refine h.attach ((Node.everywhere_iff node).2 ⟨hcloses.commentsClosed, hnone⟩) ?_
      rintro content rfl
      cases htext
    · refine ⟨h.root, fun n hn => ?_⟩
      rcases List.mem_cons.1 hn with rfl | hn
      · exact ⟨htext, hcloses, hnone⟩
      · exact h.stack n hn
  | comment content =>
    refine h.attach (fun hblock => by cases hblock) ?_
    rintro content' heq
    cases heq
  | closeTag name =>
    rw [Scaffold.apply, closeTag]
    split
    · exact h.closeMany _
    · exact h
  | closeBrace =>
    rw [Scaffold.apply, closeBrace]
    split
    · dsimp only
      split
      · exact (h.closeMany _).closeTop
      · exact h.closeMany _
    · exact h

/-- The text after the last token becomes the last child of the innermost open node, which then
closes. -/
theorem Closes.commentsClosed_finish (h : s.Closes) (tail : Text) (between : Bool) :
    Node.EverywhereIn Node.CommentsClosed (s.addGap tail between).finish := by
  have hattach : ∀ content, Node.EverywhereIn Node.CommentsClosed (s.attach (.text content)).finish := by
    intro content
    have htext : Node.Everywhere Node.CommentsClosed (.text content) := fun hblock => by cases hblock
    rcases s with ⟨root, stack⟩
    cases stack with
    | nil =>
      refine ((h.attach htext ?_).closeMany _).root
      rintro content' - hblock
      cases hblock
    | cons top below =>
      obtain ⟨htop, hcloses, hchildren⟩ := h.stack top List.mem_cons_self
      have hbelow : Closes ⟨root, below⟩ :=
        ⟨h.root, fun n hn => h.stack n (List.mem_cons_of_mem _ hn)⟩
      cases hpush : top.push? (.text content) with
      | none =>
        refine ((h.attach htext ?_).closeMany _).root
        rintro content' - hblock
        cases top <;> cases hpush <;> cases hblock
      | some top' =>
        simp only [Scaffold.attach, hpush]
        have htop' : Node.Everywhere Node.CommentsClosed top' := by
          rw [Node.everywhere_iff, Node.children_push? hpush, Node.everywhereIn_iff]
          refine ⟨hcloses.commentsClosed_push hpush, fun c hc => ?_⟩
          rcases List.mem_append.1 hc with hc | hc
          · exact (Node.everywhereIn_iff _).1 hchildren c hc
          · rwa [List.mem_singleton.1 hc]
        refine ((hbelow.attach htop' ?_).closeMany below.length).root
        rintro content' rfl
        cases Node.text?_push? hpush
  rw [Scaffold.addGap]
  split
  · exact (h.closeMany _).root
  split
  · exact hattach tail
  split
  · exact hattach [' ']
  · exact (h.closeMany _).root

end Scaffold

theorem Event.starts_ofToken (extra : List Text) (token : Token) (beforeBlock : Bool) :
    (ofToken extra token beforeBlock).Starts (fun node => node.text? = none)
      fun node => node.text? = none := by
  rcases token with ⟨kind, text⟩
  cases kind with
  | comment => trivial
  | closeTag => trivial
  | braceClose => trivial
  | _ => exact ⟨rfl, by rw [ite_self]; rfl⟩

namespace Template

/-- Without raw text and configured void elements, no text that is read before a token leaves a
comment open in a brace block. -/
theorem closes_build {segments : List Segment} {tail : Text} {place : Place} {rest : Text}
    (hcut : Segmentation.segmentFrom place rest = ⟨segments, tail⟩)
    (hraw : ∀ segment ∈ segments, segment.token.kind = .openTag →
      isRawTextName (tagName segment.token.text) = false)
    {s : Scaffold} (hfollows : s.Follows place.modes) (hcloses : s.Closes)
    (previous : Option TokenKind) : (build [] previous segments s).Closes := by
  induction segments generalizing place rest s previous with
  | nil => exact hcloses
  | cons segment more ih =>
    rcases segment with ⟨gap, token⟩
    have htoken : token ∈ (Segmentation.segmentFrom place rest).tokens := by
      rw [hcut]
      exact List.mem_cons_self
    -- the innermost open node is a block only where the gap is read as code
    have hgap : s.stack.head?.any (·.isCode .block) = true → Text.Closes gap := by
      intro hblock
      have hcode : Mode.inCode place.modes = true := by
        rw [hfollows.inCode_eq]
        exact Node.head?_frames hblock
      by_cases hexplicit : ['@', '('] <:+: gap
      · exact Or.inr hexplicit
      · exact Or.inl (Segmentation.commentOpen_gap hcut hcode hexplicit)
    obtain ⟨place', rest', hmodes, hcut'⟩ := Segmentation.exists_place_of_segmentFrom place rest more
      tail [⟨gap, token⟩] hcut fun segment hsegment => by
        rw [List.mem_singleton.1 hsegment]
        exact hraw _ List.mem_cons_self
    rw [build]
    apply ih hcut' fun segment hsegment => hraw segment (List.mem_cons_of_mem _ hsegment)
    · rw [hmodes]
      refine hfollows.step (fun _ => Segmentation.ofKeyword_of_mem_tokens htoken) ?_ gap _ _
      exact fun hkind =>
        ⟨isDeclarationName_of_openTag htoken hkind, hraw _ List.mem_cons_self hkind⟩
    · exact (hcloses.addGap hgap _).apply (Event.starts_ofToken [] token _)

/-- Without raw text and configured void elements, a text in a brace block of a template leaves no
comment open, unless it is the last child or holds an explicit expression. -/
theorem commentsClosed_parseBody (body : Text)
    (hraw : ∀ token ∈ (Segmentation.segment body).tokens, token.kind = .openTag →
      isRawTextName (tagName token.text) = false) :
    Node.EverywhereIn Node.CommentsClosed (parseBody [] body) := by
  have hempty : Scaffold.empty.Closes := ⟨trivial, fun node hnode => by cases hnode⟩
  have hcut : Segmentation.segmentFrom Place.start body =
      ⟨(Segmentation.segment body).segments, (Segmentation.segment body).tail⟩ := rfl
  have hfollows : Scaffold.empty.Follows Place.start.modes := rfl
  have hcloses := closes_build hcut
    (fun segment hsegment => hraw _ (List.mem_map_of_mem hsegment)) hfollows hempty none
  have hfinish := hcloses.commentsClosed_finish (Segmentation.segment body).tail false
  have htext : ∀ content, Node.Everywhere Node.CommentsClosed (.text content) :=
    fun content hblock => by cases hblock
  rw [parseBody]
  split
  · split
    · trivial
    · exact ⟨htext _, trivial⟩
  · exact hfinish

end Template

end RazorTidy
