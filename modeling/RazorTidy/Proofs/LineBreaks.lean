import RazorTidy.Doc.Render
import Mathlib.Data.List.Infix
import Mathlib.Data.List.TakeWhile

/-!
# Line breaks on a page

How many line breaks may stand at the end of a page after a document can be read off the document,
whatever the width and the indentation are (`Doc.breaksAfter`): a text with anything but spaces ends
a run of line breaks, and a line adds one to it. A soft line may be printed as a space, so the count
is an upper bound. It is undefined if more than two line breaks may come in a row, where the start
of the page counts as two, or if a text holds a line break of its own.

Where it is defined, the page stays neat (`Doc.neat_write`): no line ends with a space, no more than
one blank line stands between two others, and none stands first.
-/

set_option autoImplicit false

namespace RazorTidy

/-! ## Neat pages -/

namespace Text

/-- The number of line feeds at the start of a text. -/
def leadingBreaks (s : Text) : Nat := (s.takeWhile (· == '\n')).length

theorem leadingBreaks_cons_self (s : Text) : leadingBreaks ('\n' :: s) = leadingBreaks s + 1 := by
  simp [leadingBreaks]

theorem leadingBreaks_cons {c : Char} (h : c ≠ '\n') (s : Text) : leadingBreaks (c :: s) = 0 := by
  simp [leadingBreaks, h]

/-- A line feed of a text that starts without any stands in the rest of it. -/
theorem suffix_of_suffix_append {front s t : Text} (hfront : '\n' ∉ front)
    (h : '\n' :: t <:+ front ++ s) : '\n' :: t <:+ s := by
  induction front with
  | nil => exact h
  | cons c r ih =>
    rw [List.mem_cons, not_or] at hfront
    rw [List.cons_append, List.suffix_cons_iff] at h
    rcases h with heq | h
    · exact absurd (List.cons.inj heq).1 hfront.1
    · exact ih hfront.2 h

end Text

namespace Page

/-- The text of a page with two line breaks in front of it, its last character first. -/
def framed (p : Page) : Text := p.reversed ++ ['\n', '\n']

/-- A page on which no line ends with a space and no more than two line breaks come in a row, the
start counting as two; at most `k` line breaks stand at its end, apart from spaces. -/
structure Neat (k : Nat) (p : Page) : Prop where
  each : ∀ t, '\n' :: t <:+ p.framed → t.head? ≠ some ' ' ∧ Text.leadingBreaks t ≤ 1
  last : Text.leadingBreaks (p.framed.dropWhile (· == ' ')) ≤ k

theorem neat_start : Neat 2 {} := by
  constructor
  · intro t h
    rw [framed, List.nil_append, List.suffix_cons_iff, List.suffix_cons_iff] at h
    rcases h with heq | heq | h
    · obtain ⟨-, rfl⟩ := List.cons.inj heq
      decide
    · obtain ⟨-, rfl⟩ := List.cons.inj heq
      decide
    · cases List.suffix_nil.1 h
  · decide

theorem Neat.mono {k k' : Nat} {p : Page} (h : p.Neat k) (hk : k ≤ k') : p.Neat k' :=
  ⟨h.each, Nat.le_trans h.last hk⟩

theorem framed_put (s : Text) (p : Page) :
    (p.put s).framed = (s.reverse ++ List.replicate p.pending ' ') ++ p.framed := by
  simp [framed, put]

theorem not_mem_put {s : Text} (hs : '\n' ∉ s) (n : Nat) :
    '\n' ∉ s.reverse ++ List.replicate n ' ' := by
  simp [hs]

/-- A text of spaces leaves the line breaks at the end of a page as they are. -/
theorem Neat.put_spaces {k : Nat} {p : Page} (h : p.Neat k) {s : Text}
    (hs : s.all (· == ' ') = true) : (p.put s).Neat k := by
  have hspaces : ∀ c ∈ s.reverse ++ List.replicate p.pending ' ', (c == ' ') = true := by
    intro c hc
    rcases List.mem_append.1 hc with hc | hc
    · exact List.all_eq_true.1 hs c (List.mem_reverse.1 hc)
    · rw [List.eq_of_mem_replicate hc]
      rfl
  have hbreak : '\n' ∉ s.reverse ++ List.replicate p.pending ' ' := fun hmem =>
    absurd (hspaces _ hmem) (by decide)
  constructor
  · intro t ht
    rw [framed_put] at ht
    exact h.each t (Text.suffix_of_suffix_append hbreak ht)
  · rw [framed_put, List.dropWhile_append_of_pos hspaces]
    exact h.last

/-- A text with anything but spaces ends a run of line breaks. -/
theorem Neat.put {k : Nat} {p : Page} (h : p.Neat k) {s : Text} (hbreak : '\n' ∉ s)
    (hs : s.all (· == ' ') = false) : (p.put s).Neat 0 := by
  constructor
  · intro t ht
    rw [framed_put] at ht
    exact h.each t (Text.suffix_of_suffix_append (not_mem_put hbreak _) ht)
  · -- the search for the end of the spaces stops inside the text
    obtain ⟨c, hc, hspace⟩ := List.all_eq_false.1 hs
    have hne : (s.reverse ++ List.replicate p.pending ' ').dropWhile (· == ' ') ≠ [] := by
      intro hnil
      have hall := List.dropWhile_eq_nil_iff.1 hnil c
        (List.mem_append_left _ (List.mem_reverse.2 hc))
      exact hspace hall
    rw [framed_put, List.dropWhile_append, if_neg (by simpa using hne)]
    cases hdrop : (s.reverse ++ List.replicate p.pending ' ').dropWhile (· == ' ') with
    | nil => exact absurd hdrop hne
    | cons d r =>
      have hmem : d ∈ s.reverse ++ List.replicate p.pending ' ' := by
        have hsuffix := List.dropWhile_suffix (l := s.reverse ++ List.replicate p.pending ' ')
          (· == ' ')
        rw [hdrop] at hsuffix
        exact hsuffix.subset List.mem_cons_self
      have hd : d ≠ '\n' := by
        rintro rfl
        exact not_mem_put hbreak _ hmem
      rw [List.cons_append, Text.leadingBreaks_cons hd]

theorem framed_newLine (indent : Nat) (p : Page) :
    (p.newLine indent).framed = '\n' :: p.framed.dropWhile (· == ' ') := by
  rw [framed, framed, newLine, List.dropWhile_append]
  split
  · rename_i hnil
    rw [List.isEmpty_iff] at hnil
    rw [hnil]
    rfl
  · rfl

/-- A line break adds one to the line breaks at the end of a page. -/
theorem Neat.newLine {k : Nat} {p : Page} (h : p.Neat k) (hk : k < 2) (indent : Nat) :
    (p.newLine indent).Neat (k + 1) := by
  have hspace : (p.framed.dropWhile (· == ' ')).head? ≠ some ' ' := by
    intro hhead
    have hnot := List.head?_dropWhile_not (· == ' ') p.framed
    rw [hhead] at hnot
    cases hnot
  constructor
  · intro t ht
    rw [framed_newLine, List.suffix_cons_iff] at ht
    rcases ht with heq | ht
    · obtain ⟨-, rfl⟩ := List.cons.inj heq
      exact ⟨hspace, Nat.le_trans h.last (by omega)⟩
    · exact h.each t (ht.trans (List.dropWhile_suffix _))
  · rw [framed_newLine, List.dropWhile_cons_of_neg (by decide), Text.leadingBreaks_cons_self]
    exact Nat.succ_le_succ h.last

end Page

/-! ## Counting line breaks in documents -/

namespace Doc

mutual
/-- The most line breaks at the end of a page after a document, where `k` is the most before it.
None if more than two line breaks may come in a row or a text holds one. -/
def breaksAfter (k : Nat) : Doc → Option Nat
  | .nil => some k
  | .text s => if '\n' ∈ s then none else if s.all (· == ' ') then some k else some 0
  | .line _ => if k < 2 then some (k + 1) else none
  | .concat items => breaksAfterAll k items
  | .indent _ body => breaksAfter k body
  | .group body => breaksAfter k body
/-- The most line breaks at the end of a page after documents one after the other. -/
def breaksAfterAll (k : Nat) : List Doc → Option Nat
  | [] => some k
  | d :: rest => (breaksAfter k d).bind fun k' => breaksAfterAll k' rest
end

attribute [local simp] breaksAfter breaksAfterAll in
theorem breaksAfterAll_append (k : Nat) (as bs : List Doc) :
    breaksAfterAll k (as ++ bs) = (breaksAfterAll k as).bind fun k' => breaksAfterAll k' bs := by
  induction as generalizing k with
  | nil => rfl
  | cons d rest ih => simp [Option.bind_assoc, ih]

theorem breaksAfterAll_singleton (k : Nat) (d : Doc) :
    breaksAfterAll k [d] = breaksAfter k d := by
  simp [breaksAfterAll]

theorem breaksAfterAll_parts (k : Nat) (d : Doc) :
    breaksAfterAll k d.parts = breaksAfter k d := by
  cases d with
  | nil => simp [parts, breaksAfterAll, breaksAfter]
  | concat items => simp [parts, breaksAfter]
  | _ => exact breaksAfterAll_singleton k _

@[simp] theorem breaksAfter_seq (k : Nat) (ds : List Doc) :
    breaksAfter k (seq ds) = breaksAfterAll k ds := by
  have hparts : ∀ (es : List Doc) (n : Nat),
      breaksAfterAll n (es.flatMap parts) = breaksAfterAll n es := by
    intro es
    induction es with
    | nil => exact fun _ => rfl
    | cons d rest ih =>
      intro n
      simp only [List.flatMap_cons, breaksAfterAll_append, breaksAfterAll_parts, ih,
        breaksAfterAll]
  rw [← hparts, seq]
  split
  · rename_i hnil
    rw [hnil, breaksAfter, breaksAfterAll]
  · rename_i d hone
    rw [hone, breaksAfterAll_singleton]
  · rw [breaksAfter]

@[simp] theorem breaksAfter_indentBy (k spaces : Nat) (d : Doc) :
    breaksAfter k (indentBy spaces d) = breaksAfter k d := by
  rw [indentBy]
  split
  · rfl
  · rw [breaksAfter]

@[simp] theorem breaksAfter_grouped (k : Nat) (d : Doc) :
    breaksAfter k (grouped d) = breaksAfter k d := by
  rw [grouped]
  split
  · rfl
  · rw [breaksAfter]

theorem breaksAfter_hardLine {k : Nat} (hk : k < 2) : breaksAfter k hardLine = some (k + 1) := by
  rw [hardLine, breaksAfter, if_pos hk]

theorem breaksAfter_softLine {k : Nat} (hk : k < 2) : breaksAfter k softLine = some (k + 1) := by
  rw [softLine, breaksAfter, if_pos hk]

theorem breaksAfter_nil (k : Nat) : breaksAfter k .nil = some k := by
  rw [breaksAfter]

theorem breaksAfter_space (k : Nat) : breaksAfter k (ofText [' ']) = some k := by
  simp [ofText, breaksAfter]

mutual
/-- A document whose line breaks are counted leaves a neat page neat. -/
theorem neat_write (width indent : Nat) (mode : LineMode) :
    ∀ (d : Doc) (rest : Rest) {p : Page} {k k' : Nat}, breaksAfter k d = some k' → p.Neat k →
      (write width indent mode d rest p).Neat k'
  | .nil, rest, p, k, k', hd, hp => by
    rw [breaksAfter, Option.some.injEq] at hd
    rw [write, ← hd]
    exact hp
  | .text s, rest, p, k, k', hd, hp => by
    rw [breaksAfter] at hd
    rw [write]
    split at hd
    · cases hd
    rename_i hbreak
    split at hd
    · rename_i hspaces
      cases hd
      exact hp.put_spaces hspaces
    · rename_i hspaces
      cases hd
      exact hp.put hbreak (by simpa using hspaces)
  | .line .hard, rest, p, k, k', hd, hp => by
    rw [breaksAfter] at hd
    rw [write]
    split at hd
    · rename_i hk
      cases hd
      exact hp.newLine hk indent
    · cases hd
  | .line .soft, rest, p, k, k', hd, hp => by
    rw [breaksAfter] at hd
    rw [write.eq_def]
    split at hd
    · rename_i hk
      cases hd
      cases mode with
      | flat =>
        -- a space leaves fewer line breaks than the count allows
        have hspace : (p.put [' ']).Neat k := hp.put_spaces (by decide)
        exact hspace.mono (Nat.le_succ k)
      | broken => exact hp.newLine hk indent
    · cases hd
  | .concat items, rest, p, k, k', hd, hp => by
    rw [breaksAfter] at hd
    rw [write]
    exact neat_writeAll width indent mode items rest hd hp
  | .indent spaces body, rest, p, k, k', hd, hp => by
    rw [breaksAfter] at hd
    rw [write]
    exact neat_write width (indent + spaces) mode body rest hd hp
  | .group body, rest, p, k, k', hd, hp => by
    rw [breaksAfter] at hd
    rw [write]
    exact neat_write width indent _ body rest hd hp
theorem neat_writeAll (width indent : Nat) (mode : LineMode) :
    ∀ (ds : List Doc) (rest : Rest) {p : Page} {k k' : Nat}, breaksAfterAll k ds = some k' →
      p.Neat k → (writeAll width indent mode ds rest p).Neat k'
  | [], rest, p, k, k', hd, hp => by
    rw [breaksAfterAll, Option.some.injEq] at hd
    rw [writeAll, ← hd]
    exact hp
  | d :: ds, rest, p, k, k', hd, hp => by
    rw [breaksAfterAll] at hd
    obtain ⟨n, hn, hds⟩ := Option.bind_eq_some_iff.1 hd
    rw [writeAll]
    exact neat_writeAll width indent mode ds rest hds
      (neat_write width indent mode d ((mode, ds) :: rest) hn hp)
end

/-! ## Solid documents -/

/-- A document that can follow any line breaks and ends with something other than spaces. -/
def Solid (d : Doc) : Prop := ∀ k, k ≤ 2 → breaksAfter k d = some 0

theorem solid_ofText {s : Text} (hbreak : '\n' ∉ s) (hs : s.all (· == ' ') = false) :
    Solid (ofText s) := by
  intro k _
  have hne : s.isEmpty = false := by
    cases s with
    | nil => cases hs
    | cons c r => rfl
  rw [ofText, hne, if_neg Bool.false_ne_true, breaksAfter, if_neg hbreak, hs,
    if_neg Bool.false_ne_true]

theorem Solid.breaksAfterAll {d : Doc} (h : Solid d) {k : Nat} (hk : k ≤ 2) (ds : List Doc) :
    breaksAfterAll k (d :: ds) = breaksAfterAll 0 ds := by
  rw [Doc.breaksAfterAll, h k hk]
  rfl

theorem Solid.grouped {d : Doc} (h : Solid d) : Solid (grouped d) := by
  intro k hk
  rw [breaksAfter_grouped]
  exact h k hk

theorem Solid.isNil {d : Doc} (h : Solid d) : d.isNil = false := by
  cases d with
  | nil =>
    have hone := h 1 (by decide)
    rw [breaksAfter] at hone
    cases hone
  | _ => rfl

end Doc

end RazorTidy
