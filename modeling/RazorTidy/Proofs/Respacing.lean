import RazorTidy.Proofs.LineBlocks

/-!
# Texts up to their blanks

A text collapses to one in which each run of blanks is one space (`Text.collapse`). Two texts are
the same up to the lengths of their runs of blanks if one may stand for the other in any text
without a change to what this collapses to (`Text.Respaced`). So they may be put together piece by
piece, and any blanks may take the place of a space (`Text.respaced_space`).

Between spaces also the blanks at the two ends of a text do not matter, and what a text collapses to
is known up to these (`Text.RespacedApart.trim_collapse`).
-/

set_option autoImplicit false

namespace RazorTidy.Text

/-! ## Collapsed blanks -/

/-- The text with each run of blanks made one space. -/
def collapse : Text → Text
  | [] => []
  | c :: r =>
    if isBlank c then if startsBlank r then collapse r else ' ' :: collapse r
    else c :: collapse r

theorem endsBlank_cons {r : Text} (hr : r ≠ []) (c : Char) : endsBlank (c :: r) = endsBlank r := by
  rw [endsBlank, endsBlank, List.reverse_cons]
  cases hreverse : r.reverse with
  | nil => exact absurd (List.reverse_eq_nil_iff.1 hreverse) hr
  | cons d u => rfl

theorem startsBlank_append {r : Text} (hr : r ≠ []) (t : Text) :
    startsBlank (r ++ t) = startsBlank r := by
  cases r with
  | nil => exact absurd rfl hr
  | cons d u => rfl

attribute [local simp] collapse in
/-- A text that ends with something visible collapses apart from what follows. -/
theorem collapse_append {s : Text} (hs : endsBlank s = false) (t : Text) :
    collapse (s ++ t) = collapse s ++ collapse t := by
  induction s with
  | nil => rfl
  | cons c r ih =>
    by_cases hr : r = []
    · subst hr
      have hc : isBlank c = false := hs
      simp [hc]
    · have hrest := ih ((endsBlank_cons hr c).symm.trans hs)
      rw [List.cons_append, collapse, collapse, startsBlank_append hr, hrest]
      split
      · split <;> rfl
      · rfl

/-- Texts that start and collapse alike do so behind any text. -/
theorem collapse_append_left {s t : Text} (hstart : startsBlank s = startsBlank t)
    (h : collapse s = collapse t) (front : Text) :
    collapse (front ++ s) = collapse (front ++ t) := by
  induction front with
  | nil => exact h
  | cons c r ih =>
    have hnext : startsBlank (r ++ s) = startsBlank (r ++ t) := by
      cases r with
      | nil => exact hstart
      | cons d u => rfl
    rw [List.cons_append, List.cons_append, collapse, collapse, ih, hnext]

/-- A run of blanks collapses like one space. -/
theorem collapse_blanks_append {s : Text} (hne : s ≠ []) (hs : allBlank s = true) (back : Text) :
    collapse (s ++ back) = collapse (' ' :: back) := by
  have hspace : isBlank ' ' = true := by decide
  induction s with
  | nil => exact absurd rfl hne
  | cons c r ih =>
    rw [allBlank, List.all_cons, Bool.and_eq_true] at hs
    by_cases hr : r = []
    · rw [hr, List.singleton_append, collapse, collapse, hs.1, hspace, if_pos rfl, if_pos rfl]
    · have hnext : startsBlank (r ++ back) = true := by
        cases r with
        | nil => exact absurd rfl hr
        | cons d u => exact List.all_eq_true.1 hs.2 d List.mem_cons_self
      rw [List.cons_append, collapse, hs.1, hnext, if_pos rfl, if_pos rfl, ih hr hs.2]

/-! ## Texts up to the lengths of blanks -/

/-- Texts that collapse alike, whatever stands around them. -/
def Respaced (s t : Text) : Prop :=
  ∀ front back, collapse (front ++ s ++ back) = collapse (front ++ t ++ back)

theorem Respaced.refl (s : Text) : Respaced s s := fun _ _ => rfl

theorem Respaced.symm {s t : Text} (h : Respaced s t) : Respaced t s :=
  fun front back => (h front back).symm

theorem Respaced.trans {s t u : Text} (h : Respaced s t) (h' : Respaced t u) : Respaced s u :=
  fun front back => (h front back).trans (h' front back)

theorem Respaced.append_left {s t : Text} (h : Respaced s t) (front : Text) :
    Respaced (front ++ s) (front ++ t) := by
  intro before after
  rw [← List.append_assoc before, ← List.append_assoc before]
  exact h (before ++ front) after

theorem Respaced.append_right {s t : Text} (h : Respaced s t) (back : Text) :
    Respaced (s ++ back) (t ++ back) := by
  intro before after
  rw [← List.append_assoc before, ← List.append_assoc before, List.append_assoc _ back,
    List.append_assoc _ back]
  exact h before (back ++ after)

theorem Respaced.append {s t s' t' : Text} (h : Respaced s t) (h' : Respaced s' t') :
    Respaced (s ++ s') (t ++ t') :=
  (h.append_right s').trans (h'.append_left t)

/-- Blanks are like one space. -/
theorem respaced_space {s : Text} (hne : s ≠ []) (hs : allBlank s = true) : Respaced s [' '] := by
  intro front back
  have hstart : startsBlank (s ++ back) = startsBlank ([' '] ++ back) := by
    cases s with
    | nil => exact absurd rfl hne
    | cons c r => exact List.all_eq_true.1 hs c List.mem_cons_self
  rw [List.append_assoc, List.append_assoc]
  exact collapse_append_left hstart (collapse_blanks_append hne hs back) front

/-- Blanks beside a space do not matter. -/
theorem respaced_append_space {s : Text} (hs : allBlank s = true) :
    Respaced (s ++ [' ']) [' '] := by
  apply respaced_space
  · simp
  · rw [allBlank_append, hs]
    rfl

theorem respaced_space_append {s : Text} (hs : allBlank s = true) :
    Respaced ([' '] ++ s) [' '] := by
  apply respaced_space
  · simp
  · rw [allBlank_append, hs]
    rfl

/-! ## Texts between spaces -/

/-- Texts that are the same between spaces, up to the lengths of blanks. -/
def RespacedApart (s t : Text) : Prop := Respaced ([' '] ++ s ++ [' ']) ([' '] ++ t ++ [' '])

theorem Respaced.apart {s t : Text} (h : Respaced s t) : RespacedApart s t :=
  (h.append_left [' ']).append_right [' ']

/-- Blanks in front of a text make no difference to what it collapses to, but for its start. -/
theorem trim_collapse_blanks_append {blanks : Text} (h : allBlank blanks = true) (s : Text) :
    trim (collapse (blanks ++ s)) = trim (collapse s) := by
  by_cases hne : blanks = []
  · rw [hne, List.nil_append]
  · rw [collapse_blanks_append hne h, collapse, if_pos (by decide)]
    split
    · rfl
    · have hspace : allBlank [' '] = true := by decide
      exact trim_blanks_append hspace _

/-- Blanks behind a text make no difference to what it collapses to, but for its end. -/
theorem trim_collapse_append_blanks {blanks : Text} (h : allBlank blanks = true) (s : Text) :
    trim (collapse (s ++ blanks)) = trim (collapse s) := by
  have hcollapse : ∀ b, allBlank b = true → allBlank (collapse b) = true := by
    intro b hb
    by_cases hne : b = []
    · rw [hne]
      rfl
    · have hspace := collapse_blanks_append hne hb []
      rw [List.append_nil] at hspace
      rw [hspace]
      decide
  -- both texts are the visible part of `s` with blanks behind it
  have hvisible : ∀ b, allBlank b = true →
      trim (collapse (trimEnd s ++ b)) = trim (collapse (trimEnd s)) := by
    intro b hb
    rw [collapse_append (endsBlank_trimEnd s)]
    exact trim_append_blanks (hcollapse b hb) _
  obtain ⟨ends, hends, heq⟩ := exists_trimEnd_append s
  have hall : allBlank ends = true := List.all_eq_true.2 hends
  have hboth : allBlank (ends ++ blanks) = true := by rw [allBlank_append, hall, h]; rfl
  have hself := hvisible ends hall
  have hlonger := hvisible (ends ++ blanks) hboth
  rw [← heq] at hself
  rw [← List.append_assoc, ← heq] at hlonger
  rw [hlonger, hself]

/-- Texts that are the same between spaces collapse alike, but for their ends. -/
theorem RespacedApart.trim_collapse {s t : Text} (h : RespacedApart s t) :
    trim (collapse s) = trim (collapse t) := by
  have hspaces : ∀ u, trim (collapse ([' '] ++ u ++ [' '])) = trim (collapse u) := by
    intro u
    rw [trim_collapse_append_blanks (by decide), trim_collapse_blanks_append (by decide)]
  have heq := h [] []
  rw [List.nil_append, List.nil_append, List.append_nil, List.append_nil] at heq
  rw [← hspaces s, heq, hspaces]

end RazorTidy.Text
