import RazorTidy.Proofs.Printing
import RazorTidy.Proofs.Visible

/-!
# The strokes of the printer

Whatever the printer measures, it does only two things to a page: it puts a text on the last line,
or it starts a new line with some indentation. A document allows a list of such strokes if each of
its lines is drawn as the mode says, where a group may choose its mode but is never flat with a hard
line in it (`Doc.Strokes`). Printing a document is drawing strokes that it allows
(`Doc.exists_strokes_write`), so what all its strokes have in common holds for every width.

A stroke takes back spaces only. What stands on a page up to a character other than a space stays
there (`Page.suffix_drawAll`), so a place in a list of strokes is a place in the printed text
(`Page.text_drawAll_opening`, `Page.Firm.text_drawAll_newLine`).
-/

set_option autoImplicit false

namespace RazorTidy

/-- What the printer does to a page at a time. -/
inductive Stroke where
  /-- A text is put on the last line. -/
  | put (s : Text)
  /-- A line is started, to be indented by so many spaces. -/
  | newLine (indent : Nat)
  deriving DecidableEq, Repr

namespace Stroke

/-- The visible characters that a stroke adds. -/
def visible : Stroke → Text
  | .put s => Text.visible s
  | .newLine _ => []

end Stroke

/-! ## Strokes on a page -/

namespace Page

/-- The page after a stroke. -/
def draw (p : Page) : Stroke → Page
  | .put s => p.put s
  | .newLine indent => p.newLine indent

/-- The page after strokes one after the other. -/
def drawAll (p : Page) (ks : List Stroke) : Page := ks.foldl draw p

theorem drawAll_append (p : Page) (ks ls : List Stroke) :
    p.drawAll (ks ++ ls) = (p.drawAll ks).drawAll ls := List.foldl_append

theorem drawAll_cons (p : Page) (k : Stroke) (ks : List Stroke) :
    p.drawAll (k :: ks) = (p.draw k).drawAll ks := rfl

theorem visible_drawAll (p : Page) (ks : List Stroke) :
    Text.visible (p.drawAll ks).text = Text.visible p.text ++ ks.flatMap Stroke.visible := by
  induction ks generalizing p with
  | nil => exact (List.append_nil _).symm
  | cons k ks ih =>
    rw [drawAll_cons, ih, List.flatMap_cons, ← List.append_assoc]
    cases k with
    | put s => rw [draw, visible_put, Stroke.visible]
    | newLine indent => rw [draw, visible_newLine, Stroke.visible, List.append_nil]

/-- What ends with a character other than a space stays at the start of a page. -/
theorem suffix_drawAll {r : Text} (hr : r.head? ≠ some ' ') {p : Page} (h : r <:+ p.reversed)
    (ks : List Stroke) : r <:+ (p.drawAll ks).reversed := by
  induction ks generalizing p with
  | nil => exact h
  | cons k ks ih =>
    apply ih
    obtain ⟨t, ht⟩ := h
    cases k with
    | put s =>
      refine ⟨s.reverse ++ (List.replicate p.pending ' ' ++ t), ?_⟩
      rw [draw, put, ← ht]
      simp only [List.append_assoc]
    | newLine indent =>
      -- the spaces that are taken back all stand behind `r`
      have hdrop : r.dropWhile (· == ' ') = r := by
        cases r with
        | nil => rfl
        | cons c r' =>
          rw [List.dropWhile_cons_of_neg]
          simpa using hr
      have hrest : r <:+ p.reversed.dropWhile (· == ' ') := by
        rw [← ht, List.dropWhile_append]
        split
        · exact ⟨[], hdrop.symm⟩
        · exact List.suffix_append _ r
      exact hrest.trans (List.suffix_cons '\n' _)

/-- What a page holds up to a character other than a space, all further pages start with. -/
theorem prefix_drawAll {p : Page} (hp : p.reversed.head? ≠ some ' ') (ks : List Stroke) :
    p.text <+: (p.drawAll ks).text :=
  List.reverse_prefix.2 (suffix_drawAll hp (List.suffix_refl _) ks)

theorem put_put (s t : Text) (p : Page) : (p.put s).put t = p.put (s ++ t) := by
  simp [put, Nat.add_assoc]

theorem head?_reversed_put {s : Text} (hs : s ≠ []) (p : Page) :
    (p.put s).reversed.head? = s.getLast? := by
  rw [put, List.head?_append, List.head?_reverse]
  cases hlast : s.getLast? with
  | none => exact absurd (List.getLast?_eq_none_iff.1 hlast) hs
  | some c => rfl

theorem text_put (s : Text) (p : Page) :
    (p.put s).text = p.text ++ List.replicate p.pending ' ' ++ s := by
  simp [put, text]

/-- Strokes after which a line starts with so many spaces: none at all, or a last one that starts
the line. -/
def StartsLine (indent : Nat) (ks : List Stroke) : Prop :=
  (ks = [] ∧ indent = 0) ∨ ∃ front, ks = front ++ [.newLine indent]

/-- The first text on a line stands right behind the line break and the indentation. -/
theorem text_drawAll_opening {indent : Nat} {ks : List Stroke} (h : StartsLine indent ks)
    {s : Text} (hne : s ≠ []) (hs : s.getLast? ≠ some ' ') (more : List Stroke) :
    ∃ front back, (drawAll {} (ks ++ .put s :: more)).text =
        front ++ List.replicate indent ' ' ++ s ++ back ∧
      (front = [] ∨ front.getLast? = some '\n') ∧
      Text.visible front = ks.flatMap Stroke.visible := by
  -- the page in front of the text ends with a line break or is empty, and waits for its indentation
  have hpage : ∃ p : Page, drawAll {} ks = p ∧ p.pending = indent ∧
      (p.text = [] ∨ p.text.getLast? = some '\n') := by
    refine ⟨_, rfl, ?_⟩
    rcases h with ⟨rfl, rfl⟩ | ⟨front, rfl⟩
    · exact ⟨rfl, Or.inl rfl⟩
    · rw [drawAll_append]
      refine ⟨rfl, Or.inr ?_⟩
      simp [drawAll, draw, newLine, text]
  obtain ⟨p, hp, hpending, hline⟩ := hpage
  have hvisible := visible_drawAll {} ks
  have hempty : Text.visible (Page.text {}) = [] := rfl
  rw [hp, hempty, List.nil_append] at hvisible
  have hlast : (p.put s).reversed.head? ≠ some ' ' := by rwa [head?_reversed_put hne]
  obtain ⟨back, hback⟩ := prefix_drawAll hlast more
  refine ⟨p.text, back, ?_, hline, hvisible⟩
  rw [drawAll_append, hp, drawAll_cons, draw, ← hback, text_put, hpending]

/-- A page that ends with a text, and not with a space, is firm. -/
theorem firm_drawAll_concat (p : Page) (ks : List Stroke) {s : Text} (hne : s ≠ [])
    (hs : s.getLast? ≠ some ' ') : (p.drawAll (ks ++ [.put s])).Firm := by
  rw [drawAll_append]
  refine ⟨rfl, ?_⟩
  rwa [drawAll_cons, draw, drawAll, List.foldl_nil, head?_reversed_put hne]

/-- A line started on a firm page follows its text directly. -/
theorem Firm.text_drawAll_newLine {p : Page} (hp : p.Firm) (indent : Nat) (more : List Stroke) :
    ∃ back, (p.drawAll (.newLine indent :: more)).text = p.text ++ '\n' :: back := by
  have hnew : (p.newLine indent).text = p.text ++ ['\n'] := by
    have hfull := full_newLine indent hp
    rw [full, full, hp.1, List.replicate_zero, List.append_nil, List.append_cons] at hfull
    exact List.append_cancel_right hfull
  have hhead : (p.newLine indent).reversed.head? ≠ some ' ' := by simp [Page.newLine]
  obtain ⟨back, hback⟩ := prefix_drawAll hhead more
  refine ⟨back, ?_⟩
  rw [drawAll_cons, draw, ← hback, hnew, List.append_assoc]
  rfl

/-- A text put on a firm page follows its text directly. -/
theorem Firm.text_drawAll_put {p : Page} (hp : p.Firm) {s : Text} (hne : s ≠ [])
    (hs : s.getLast? ≠ some ' ') (more : List Stroke) :
    ∃ back, (p.drawAll (.put s :: more)).text = p.text ++ s ++ back := by
  have hhead : (p.put s).reversed.head? ≠ some ' ' := by rwa [head?_reversed_put hne]
  obtain ⟨back, hback⟩ := prefix_drawAll hhead more
  refine ⟨back, ?_⟩
  rw [drawAll_cons, draw, ← hback, hp.text_put]

end Page

/-! ## Strokes that a document allows -/

namespace Doc

mutual
/-- Whether a document at an indentation and in a mode can be drawn with a list of strokes. -/
def Strokes (indent : Nat) (mode : LineMode) : Doc → List Stroke → Prop
  | .nil, ks => ks = []
  | .text s, ks => ks = [.put s]
  | .line .hard, ks => ks = [.newLine indent]
  | .line .soft, ks =>
    match mode with
    | .flat => ks = [.put [' ']]
    | .broken => ks = [.newLine indent]
  | .concat items, ks => StrokesAll indent mode items ks
  | .indent spaces body, ks => Strokes (indent + spaces) mode body ks
  | .group body, ks =>
    (hasHardLine body = false ∧ Strokes indent .flat body ks) ∨ Strokes indent .broken body ks
/-- Whether documents one after the other can be drawn with a list of strokes. -/
def StrokesAll (indent : Nat) (mode : LineMode) : List Doc → List Stroke → Prop
  | [], ks => ks = []
  | d :: rest, ks =>
    ∃ ks₁ ks₂, ks = ks₁ ++ ks₂ ∧ Strokes indent mode d ks₁ ∧ StrokesAll indent mode rest ks₂
end

variable {indent : Nat} {mode : LineMode}

attribute [local simp] Strokes StrokesAll in
theorem strokesAll_append (as bs : List Doc) (ks : List Stroke) :
    StrokesAll indent mode (as ++ bs) ks ↔
      ∃ ks₁ ks₂, ks = ks₁ ++ ks₂ ∧ StrokesAll indent mode as ks₁ ∧
        StrokesAll indent mode bs ks₂ := by
  induction as generalizing ks with
  | nil => simp
  | cons d rest ih =>
    simp only [List.cons_append, StrokesAll, ih]
    constructor
    · rintro ⟨ks₁, _, rfl, hd, ks₂, ks₃, rfl, hrest, hbs⟩
      exact ⟨ks₁ ++ ks₂, ks₃, (List.append_assoc ..).symm, ⟨ks₁, ks₂, rfl, hd, hrest⟩, hbs⟩
    · rintro ⟨_, ks₃, rfl, ⟨ks₁, ks₂, rfl, hd, hrest⟩, hbs⟩
      exact ⟨ks₁, ks₂ ++ ks₃, List.append_assoc .., hd, ks₂, ks₃, rfl, hrest, hbs⟩

theorem strokesAll_nil (ks : List Stroke) : StrokesAll indent mode [] ks ↔ ks = [] := by
  rw [StrokesAll]

theorem strokesAll_singleton (d : Doc) (ks : List Stroke) :
    StrokesAll indent mode [d] ks ↔ Strokes indent mode d ks := by
  simp [StrokesAll]

theorem strokesAll_parts (d : Doc) (ks : List Stroke) :
    StrokesAll indent mode d.parts ks ↔ Strokes indent mode d ks := by
  cases d with
  | nil => simp [parts, StrokesAll, Strokes]
  | concat items => simp [parts, Strokes]
  | _ => exact strokesAll_singleton _ ks

/-- A sequence is drawn as its documents one after the other. -/
theorem strokes_seq (ds : List Doc) (ks : List Stroke) :
    Strokes indent mode (seq ds) ks ↔ StrokesAll indent mode ds ks := by
  have hparts : StrokesAll indent mode (ds.flatMap parts) ks ↔ StrokesAll indent mode ds ks := by
    induction ds generalizing ks with
    | nil => rfl
    | cons d rest ih =>
      simp only [List.flatMap_cons, strokesAll_append, strokesAll_parts, ih, StrokesAll]
  rw [← hparts, seq]
  split
  · rename_i hnil
    rw [hnil, Strokes, StrokesAll]
  · rename_i d hone
    rw [hone, strokesAll_singleton]
  · rw [Strokes]

theorem strokes_ofText {s : Text} (hs : s ≠ []) (ks : List Stroke) :
    Strokes indent mode (ofText s) ks ↔ ks = [.put s] := by
  have hempty : s.isEmpty = false := by simpa using hs
  rw [ofText, hempty, if_neg Bool.false_ne_true, Strokes]

theorem strokes_indentBy (spaces : Nat) (d : Doc) (ks : List Stroke) :
    Strokes indent mode (indentBy spaces d) ks ↔ Strokes (indent + spaces) mode d ks := by
  rw [indentBy]
  split
  · rename_i h
    rcases h with rfl | hnil
    · rfl
    · cases d with
      | nil => rw [Strokes, Strokes]
      | _ => cases hnil
  · rw [Strokes]

theorem strokes_hardLine (ks : List Stroke) :
    Strokes indent mode hardLine ks ↔ ks = [.newLine indent] := by
  rw [hardLine, Strokes]

theorem strokes_softLine_broken (ks : List Stroke) :
    Strokes indent .broken softLine ks ↔ ks = [.newLine indent] := by
  rw [softLine, Strokes]

/-- A group is drawn flat or broken. -/
theorem strokes_grouped {d : Doc} {ks : List Stroke} (h : Strokes indent mode (grouped d) ks) :
    ∃ mode', Strokes indent mode' d ks := by
  rw [grouped] at h
  split at h
  · exact ⟨mode, h⟩
  · rw [Strokes] at h
    rcases h with ⟨-, hflat⟩ | hbroken
    · exact ⟨.flat, hflat⟩
    · exact ⟨.broken, hbroken⟩

/-- A group with a hard line is drawn broken. -/
theorem strokes_grouped_of_hasHardLine {d : Doc} (hd : hasHardLine d = true) {ks : List Stroke}
    (h : Strokes indent mode (grouped d) ks) : Strokes indent .broken d ks := by
  rw [grouped] at h
  split at h
  · rename_i hnil
    cases d with
    | nil => cases hd
    | _ => cases hnil
  · rw [Strokes, hd] at h
    rcases h with ⟨hnot, -⟩ | hbroken
    · cases hnot
    · exact hbroken

/-- Lines are drawn from the first of them on. -/
theorem strokes_ofLines_first {line : Text} (hline : line ≠ []) {rest : List Text}
    {ks : List Stroke} (h : Strokes indent mode (ofLines (line :: rest)) ks) :
    ∃ more, ks = .put line :: more := by
  rw [ofLines, strokes_seq] at h
  obtain ⟨docs, hdocs⟩ : ∃ docs, ((line :: rest).map ofText).intersperse hardLine =
      ofText line :: docs := by
    cases rest with
    | nil => exact ⟨[], rfl⟩
    | cons next others => exact ⟨_, rfl⟩
  rw [hdocs, StrokesAll] at h
  obtain ⟨first, more, rfl, hfirst, -⟩ := h
  rw [strokes_ofText hline] at hfirst
  exact ⟨more, by rw [hfirst]; rfl⟩

/-- Lines are drawn up to the last of them. -/
theorem strokes_ofLines_last {line : Text} (hline : line ≠ []) {ls : List Text}
    (hlast : ls.getLast? = some line) {ks : List Stroke}
    (h : Strokes indent mode (ofLines ls) ks) : ∃ front, ks = front ++ [.put line] := by
  rw [ofLines, strokes_seq] at h
  induction ls generalizing ks with
  | nil => cases hlast
  | cons first rest ih =>
    cases rest with
    | nil =>
      rw [List.getLast?_singleton, Option.some.injEq] at hlast
      rw [List.map_singleton, List.intersperse_singleton, strokesAll_singleton, hlast,
        strokes_ofText hline] at h
      exact ⟨[], h⟩
    | cons next others =>
      rw [List.getLast?_cons_cons] at hlast
      rw [List.map_cons, List.map_cons, List.intersperse_cons_cons, ← List.map_cons,
        StrokesAll] at h
      obtain ⟨drawn, ks₁, rfl, -, hks₁⟩ := h
      rw [StrokesAll] at hks₁
      obtain ⟨sep, ks₂, rfl, -, hks₂⟩ := hks₁
      obtain ⟨front, rfl⟩ := ih hlast hks₂
      exact ⟨drawn ++ (sep ++ front), by simp only [List.append_assoc]⟩

/-! ## Printing -/

mutual
/-- The strokes of a document show what the document shows. -/
theorem visible_strokes :
    ∀ (d : Doc) {indent : Nat} {mode : LineMode} {ks : List Stroke}, Strokes indent mode d ks →
      ks.flatMap Stroke.visible = visible d
  | .nil, _, _, _, h => by
    rw [Strokes] at h
    rw [h, visible]
    rfl
  | .text s, _, _, _, h => by
    rw [Strokes] at h
    rw [h, visible]
    exact List.append_nil _
  | .line .hard, _, _, _, h => by
    rw [Strokes] at h
    rw [h, visible]
    rfl
  | .line .soft, _, mode, _, h => by
    rw [visible]
    cases mode with
    | flat =>
      rw [Strokes] at h
      rw [h]
      decide
    | broken =>
      rw [Strokes] at h
      rw [h]
      rfl
  | .concat items, _, _, _, h => by
    rw [Strokes] at h
    rw [visible]
    exact visible_strokesAll items h
  | .indent spaces body, _, _, _, h => by
    rw [Strokes] at h
    rw [visible]
    exact visible_strokes body h
  | .group body, _, _, _, h => by
    rw [Strokes] at h
    rw [visible]
    rcases h with ⟨-, h⟩ | h
    · exact visible_strokes body h
    · exact visible_strokes body h
theorem visible_strokesAll :
    ∀ (ds : List Doc) {indent : Nat} {mode : LineMode} {ks : List Stroke},
      StrokesAll indent mode ds ks → ks.flatMap Stroke.visible = visibleAll ds
  | [], _, _, _, h => by
    rw [StrokesAll] at h
    rw [h, visibleAll]
    rfl
  | d :: rest, _, _, _, h => by
    rw [StrokesAll] at h
    obtain ⟨ks₁, ks₂, rfl, hd, hrest⟩ := h
    rw [List.flatMap_append, visibleAll, visible_strokes d hd, visible_strokesAll rest hrest]
end

mutual
/-- Writing a document draws strokes that it allows. -/
theorem exists_strokes_write (width indent : Nat) (mode : LineMode) :
    ∀ (d : Doc) (rest : Rest) (p : Page),
      ∃ ks, Strokes indent mode d ks ∧ write width indent mode d rest p = p.drawAll ks
  | .nil, rest, p => ⟨[], rfl, rfl⟩
  | .text s, rest, p => ⟨[.put s], rfl, rfl⟩
  | .line .hard, rest, p => ⟨[.newLine indent], rfl, rfl⟩
  | .line .soft, rest, p => by
    cases mode with
    | flat => exact ⟨[.put [' ']], rfl, rfl⟩
    | broken => exact ⟨[.newLine indent], rfl, rfl⟩
  | .concat items, rest, p => by
    obtain ⟨ks, hks, hwrite⟩ := exists_strokes_writeAll width indent mode items rest p
    exact ⟨ks, by rw [Strokes]; exact hks, by rw [write]; exact hwrite⟩
  | .indent spaces body, rest, p => by
    obtain ⟨ks, hks, hwrite⟩ := exists_strokes_write width (indent + spaces) mode body rest p
    exact ⟨ks, by rw [Strokes]; exact hks, by rw [write]; exact hwrite⟩
  | .group body, rest, p => by
    -- a group that fits has no hard line, which is what drawing it flat asks for
    by_cases hfits : fits (width - p.column) body rest = true
    · obtain ⟨ks, hks, hwrite⟩ := exists_strokes_write width indent .flat body rest p
      refine ⟨ks, ?_, ?_⟩
      · rw [Strokes]
        exact Or.inl ⟨hasHardLine_of_fits hfits, hks⟩
      · rw [write, if_pos hfits]
        exact hwrite
    · obtain ⟨ks, hks, hwrite⟩ := exists_strokes_write width indent .broken body rest p
      refine ⟨ks, ?_, ?_⟩
      · rw [Strokes]
        exact Or.inr hks
      · rw [write, if_neg hfits]
        exact hwrite
/-- Writing documents draws strokes that they allow. -/
theorem exists_strokes_writeAll (width indent : Nat) (mode : LineMode) :
    ∀ (ds : List Doc) (rest : Rest) (p : Page),
      ∃ ks, StrokesAll indent mode ds ks ∧ writeAll width indent mode ds rest p = p.drawAll ks
  | [], rest, p => ⟨[], rfl, rfl⟩
  | d :: ds, rest, p => by
    obtain ⟨ks₁, hd, hwrite₁⟩ := exists_strokes_write width indent mode d ((mode, ds) :: rest) p
    obtain ⟨ks₂, hds, hwrite₂⟩ := exists_strokes_writeAll width indent mode ds rest (p.drawAll ks₁)
    refine ⟨ks₁ ++ ks₂, ?_, ?_⟩
    · rw [StrokesAll]
      exact ⟨ks₁, ks₂, rfl, hd, hds⟩
    · rw [writeAll, hwrite₁, hwrite₂, Page.drawAll_append]
end

/-- A document is printed with strokes that it allows. -/
theorem exists_strokes_render (printWidth : Nat) (d : Doc) :
    ∃ ks, Strokes 0 .broken d ks ∧ d.render printWidth = (Page.drawAll {} ks).text := by
  obtain ⟨ks, hks, hwrite⟩ := exists_strokes_write (lineWidth printWidth) 0 .broken d [] {}
  exact ⟨ks, hks, by rw [render, hwrite]⟩

end Doc

end RazorTidy
