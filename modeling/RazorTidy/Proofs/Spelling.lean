import RazorTidy.Doc.Render
import Mathlib.Data.List.Basic

/-!
# What a document can be printed as

A document spells a text in a mode if the text arises from it by making each soft line what the mode
says, choosing a mode for each group, and choosing some spaces after each line break (`Doc.Spells`).
A group with a hard line in it is never flat. Spelling does not depend on a width and does not see
how sequences are nested, so it is a view of documents that ignores the printer's measuring.

The printer takes spaces at line ends back. A document whose lines all follow a text that does not
end with a space (`Doc.firmAfter`) has none, and the printer then writes exactly what the document
spells (`Doc.exists_spells_render`).
-/

set_option autoImplicit false

namespace RazorTidy

namespace Doc

/-! ## Spelling -/

mutual
/-- Whether a document can be printed as a text in a mode. -/
def Spells (mode : LineMode) : Doc → Text → Prop
  | .nil, t => t = []
  | .text s, t => t = s
  | .line .hard, t => ∃ n, t = '\n' :: List.replicate n ' '
  | .line .soft, t =>
    match mode with
    | .flat => t = [' ']
    | .broken => ∃ n, t = '\n' :: List.replicate n ' '
  | .concat items, t => SpellsAll mode items t
  | .indent _ body, t => Spells mode body t
  | .group body, t => (hasHardLine body = false ∧ Spells .flat body t) ∨ Spells .broken body t
/-- Whether documents one after the other can be printed as a text in a mode. -/
def SpellsAll (mode : LineMode) : List Doc → Text → Prop
  | [], t => t = []
  | d :: rest, t => ∃ t₁ t₂, t = t₁ ++ t₂ ∧ Spells mode d t₁ ∧ SpellsAll mode rest t₂
end

variable {mode : LineMode}

attribute [local simp] Spells SpellsAll in
theorem spellsAll_append (as bs : List Doc) (t : Text) :
    SpellsAll mode (as ++ bs) t ↔
      ∃ t₁ t₂, t = t₁ ++ t₂ ∧ SpellsAll mode as t₁ ∧ SpellsAll mode bs t₂ := by
  induction as generalizing t with
  | nil => simp
  | cons d rest ih =>
    simp only [List.cons_append, SpellsAll, ih]
    constructor
    · rintro ⟨t₁, _, rfl, hd, t₂, t₃, rfl, hrest, hbs⟩
      exact ⟨t₁ ++ t₂, t₃, (List.append_assoc ..).symm, ⟨t₁, t₂, rfl, hd, hrest⟩, hbs⟩
    · rintro ⟨_, t₃, rfl, ⟨t₁, t₂, rfl, hd, hrest⟩, hbs⟩
      exact ⟨t₁, t₂ ++ t₃, List.append_assoc .., hd, t₂, t₃, rfl, hrest, hbs⟩

theorem spellsAll_singleton (d : Doc) (t : Text) : SpellsAll mode [d] t ↔ Spells mode d t := by
  simp [SpellsAll]

theorem spellsAll_parts (d : Doc) (t : Text) : SpellsAll mode d.parts t ↔ Spells mode d t := by
  cases d with
  | nil => simp [parts, SpellsAll, Spells]
  | concat items => simp [parts, Spells]
  | _ => exact spellsAll_singleton _ t

theorem spellsAll_flatMap_parts (ds : List Doc) (t : Text) :
    SpellsAll mode (ds.flatMap parts) t ↔ SpellsAll mode ds t := by
  induction ds generalizing t with
  | nil => rfl
  | cons d rest ih =>
    simp only [List.flatMap_cons, spellsAll_append, spellsAll_parts, ih, SpellsAll]

/-- A sequence spells what its documents spell one after the other. -/
@[simp] theorem spells_seq (ds : List Doc) (t : Text) :
    Spells mode (seq ds) t ↔ SpellsAll mode ds t := by
  rw [← spellsAll_flatMap_parts, seq]
  split
  · rename_i hnil
    rw [hnil, Spells, SpellsAll]
  · rename_i d hone
    rw [hone, spellsAll_singleton]
  · rw [Spells]

@[simp] theorem spells_ofText (s t : Text) : Spells mode (ofText s) t ↔ t = s := by
  rw [ofText]
  split
  · rename_i h
    rw [Spells, List.isEmpty_iff.1 h]
  · rw [Spells]

@[simp] theorem spells_indentBy (spaces : Nat) (d : Doc) (t : Text) :
    Spells mode (indentBy spaces d) t ↔ Spells mode d t := by
  rw [indentBy]
  split
  · rfl
  · rw [Spells]

theorem spells_hardLine (t : Text) :
    Spells mode hardLine t ↔ ∃ n, t = '\n' :: List.replicate n ' ' := by
  rw [hardLine, Spells]

theorem spells_softLine_broken (t : Text) :
    Spells .broken softLine t ↔ ∃ n, t = '\n' :: List.replicate n ' ' := by
  rw [softLine, Spells]

/-- A soft line is spelled with a space, or as a line break is. -/
theorem spells_softLine {t : Text} (h : Spells mode softLine t) :
    t = [' '] ∨ ∃ n, t = '\n' :: List.replicate n ' ' := by
  cases mode with
  | flat =>
    rw [softLine, Spells] at h
    exact Or.inl h
  | broken => exact Or.inr ((spells_softLine_broken t).1 h)

/-! ## Groups -/

attribute [local simp] hasHardLine anyHardLine in
theorem anyHardLine_append (as bs : List Doc) :
    anyHardLine (as ++ bs) = (anyHardLine as || anyHardLine bs) := by
  induction as with
  | nil => rfl
  | cons d rest ih => simp [ih, Bool.or_assoc]

theorem anyHardLine_singleton (d : Doc) : anyHardLine [d] = hasHardLine d := by
  rw [anyHardLine, anyHardLine, Bool.or_false]

theorem anyHardLine_parts (d : Doc) : anyHardLine d.parts = hasHardLine d := by
  cases d with
  | nil => rfl
  | concat items => rw [parts, hasHardLine]
  | _ => exact anyHardLine_singleton _

/-- A sequence has a hard line if one of its documents has. -/
theorem hasHardLine_seq (ds : List Doc) : hasHardLine (seq ds) = anyHardLine ds := by
  have hparts : anyHardLine (ds.flatMap parts) = anyHardLine ds := by
    induction ds with
    | nil => rfl
    | cons d rest ih =>
      rw [List.flatMap_cons, anyHardLine_append, anyHardLine_parts, ih, anyHardLine]
  rw [← hparts, seq]
  split
  · rename_i hnil
    rw [hnil]
    rfl
  · rename_i d hone
    rw [hone, anyHardLine_singleton]
  · rw [hasHardLine]

/-- A group is flat or broken, and with a hard line in it broken. -/
theorem spells_grouped {d : Doc} {t : Text} (h : Spells mode (grouped d) t) :
    (hasHardLine d = false ∧ Spells .flat d t) ∨ Spells .broken d t := by
  rw [grouped] at h
  split at h
  · rename_i hnil
    cases d with
    | nil => exact Or.inr h
    | _ => cases hnil
  · rwa [Spells] at h

mutual
/-- A document with a hard line never fits on a line. -/
theorem measure_of_hasHardLine :
    ∀ (d : Doc) (left : Nat), hasHardLine d = true →
      measure false .flat d left = .settled false
  | .nil, left, h => by cases h
  | .text s, left, h => by cases h
  | .line .hard, left, h => by rw [measure]
  | .line .soft, left, h => by cases h
  | .concat items, left, h => by
    rw [hasHardLine] at h
    rw [measure]
    exact measureAll_of_anyHardLine items left h
  | .indent spaces body, left, h => by
    rw [hasHardLine] at h
    rw [measure]
    exact measure_of_hasHardLine body left h
  | .group body, left, h => by
    rw [hasHardLine] at h
    rw [measure]
    exact measure_of_hasHardLine body left h
/-- Documents with a hard line among them never fit on a line. -/
theorem measureAll_of_anyHardLine :
    ∀ (ds : List Doc) (left : Nat), anyHardLine ds = true →
      measureAll false .flat ds left = .settled false
  | [], left, h => by cases h
  | d :: rest, left, h => by
    rw [anyHardLine, Bool.or_eq_true] at h
    rw [measureAll]
    rcases h with hd | hrest
    · rw [measure_of_hasHardLine d left hd]
      rfl
    · -- the documents before the hard line fit or do not, and both ways the answer is no
      cases hmeasure : measure false .flat d left with
      | settled fits =>
        cases fits with
        | false => rfl
        | true => exact absurd hmeasure (measure_ne_settled d left)
      | room left' => exact measureAll_of_anyHardLine rest left' hrest
/-- Flat documents settle that they fit only with all that follows them. -/
theorem measure_ne_settled :
    ∀ (d : Doc) (left : Nat), measure false .flat d left ≠ .settled true
  | .nil, left => by
    rw [measure]
    intro h
    cases h
  | .text s, left => by
    rw [measure, Measure.take]
    split <;> (intro h; cases h)
  | .line .hard, left => by
    rw [measure]
    intro h
    cases h
  | .line .soft, left => by
    rw [measure, Measure.take]
    split <;> (intro h; cases h)
  | .concat items, left => by
    rw [measure]
    exact measureAll_ne_settled items left
  | .indent spaces body, left => by
    rw [measure]
    exact measure_ne_settled body left
  | .group body, left => by
    rw [measure]
    exact measure_ne_settled body left
theorem measureAll_ne_settled :
    ∀ (ds : List Doc) (left : Nat), measureAll false .flat ds left ≠ .settled true
  | [], left => by
    rw [measureAll]
    intro h
    cases h
  | d :: rest, left => by
    rw [measureAll]
    have hd := measure_ne_settled d left
    cases hmeasure : measure false .flat d left with
    | settled fits =>
      rw [hmeasure] at hd
      exact hd
    | room left' => exact measureAll_ne_settled rest left'
end

/-- A group that is printed flat has no hard line. -/
theorem hasHardLine_of_fits {left : Nat} {d : Doc} {rest : Rest} (h : fits left d rest = true) :
    hasHardLine d = false := by
  by_contra hhard
  rw [Bool.not_eq_false] at hhard
  rw [fits, measure_of_hasHardLine d left hhard] at h
  cases h

/-! ## Firm documents -/

mutual
/-- Whether a page is firm after a document, where `firm` says that it is before: a page is firm if
it ends with a character that is no space. None if a line may come while the page is not firm. -/
def firmAfter (firm : Bool) : Doc → Option Bool
  | .nil => some firm
  | .text s => some (match s.getLast? with
    | none => firm
    | some c => c != ' ')
  | .line _ => if firm then some false else none
  | .concat items => firmAfterAll firm items
  | .indent _ body => firmAfter firm body
  | .group body => firmAfter firm body
/-- Whether a page is firm after documents one after the other. -/
def firmAfterAll (firm : Bool) : List Doc → Option Bool
  | [] => some firm
  | d :: rest => (firmAfter firm d).bind fun firm' => firmAfterAll firm' rest
end

attribute [local simp] firmAfter firmAfterAll in
theorem firmAfterAll_append (firm : Bool) (as bs : List Doc) :
    firmAfterAll firm (as ++ bs) =
      (firmAfterAll firm as).bind fun firm' => firmAfterAll firm' bs := by
  induction as generalizing firm with
  | nil => rfl
  | cons d rest ih => simp [Option.bind_assoc, ih]

theorem firmAfterAll_singleton (firm : Bool) (d : Doc) :
    firmAfterAll firm [d] = firmAfter firm d := by
  simp [firmAfterAll]

theorem firmAfterAll_parts (firm : Bool) (d : Doc) :
    firmAfterAll firm d.parts = firmAfter firm d := by
  cases d with
  | nil => simp [parts, firmAfterAll, firmAfter]
  | concat items => simp [parts, firmAfter]
  | _ => exact firmAfterAll_singleton firm _

@[simp] theorem firmAfter_seq (firm : Bool) (ds : List Doc) :
    firmAfter firm (seq ds) = firmAfterAll firm ds := by
  have hparts : ∀ (es : List Doc) (b : Bool),
      firmAfterAll b (es.flatMap parts) = firmAfterAll b es := by
    intro es
    induction es with
    | nil => exact fun _ => rfl
    | cons d rest ih =>
      intro b
      simp only [List.flatMap_cons, firmAfterAll_append, firmAfterAll_parts, ih, firmAfterAll]
  rw [← hparts, seq]
  split
  · rename_i hnil
    rw [hnil, firmAfter, firmAfterAll]
  · rename_i d hone
    rw [hone, firmAfterAll_singleton]
  · rw [firmAfter]

@[simp] theorem firmAfter_indentBy (firm : Bool) (spaces : Nat) (d : Doc) :
    firmAfter firm (indentBy spaces d) = firmAfter firm d := by
  rw [indentBy]
  split
  · rfl
  · rw [firmAfter]

@[simp] theorem firmAfter_grouped (firm : Bool) (d : Doc) :
    firmAfter firm (grouped d) = firmAfter firm d := by
  rw [grouped]
  split
  · rfl
  · rw [firmAfter]

@[simp] theorem firmAfter_hardLine : firmAfter true hardLine = some false := by
  rw [hardLine, firmAfter]
  rfl

@[simp] theorem firmAfter_softLine : firmAfter true softLine = some false := by
  rw [softLine, firmAfter]
  rfl

/-- A text that ends with no space makes a page firm. -/
theorem firmAfter_ofText (firm : Bool) {s : Text} {c : Char} (hs : s.getLast? = some c)
    (hc : c ≠ ' ') : firmAfter firm (ofText s) = some true := by
  cases s with
  | nil => cases hs
  | cons d r =>
    have hofText : ofText (d :: r) = .text (d :: r) := rfl
    rw [hofText, firmAfter, hs]
    simpa using hc

end Doc

/-! ## Printing firm documents -/

namespace Page

/-- The text of a page with its pending indentation. -/
def full (p : Page) : Text := p.text ++ List.replicate p.pending ' '

/-- Whether a page ends with a character that is no space, or is empty. -/
def Firm (p : Page) : Prop := p.pending = 0 ∧ p.reversed.head? ≠ some ' '

theorem full_put (s : Text) (p : Page) : (p.put s).full = p.full ++ s := by
  simp [put, full, text]

theorem firm_put {s : Text} {p : Page} {c : Char} (hs : s.getLast? = some c) (hc : c ≠ ' ') :
    (p.put s).Firm := by
  refine ⟨rfl, ?_⟩
  have hhead : s.reverse.head? = some c := by rw [List.head?_reverse, hs]
  rw [put, List.head?_append, hhead]
  simpa using hc

/-- A new line after a firm page is only added. -/
theorem full_newLine (indent : Nat) {p : Page} (h : p.Firm) :
    (p.newLine indent).full = p.full ++ '\n' :: List.replicate indent ' ' := by
  obtain ⟨hpending, hhead⟩ := h
  have hdrop : p.reversed.dropWhile (· == ' ') = p.reversed := by
    cases hrev : p.reversed with
    | nil => rfl
    | cons c r =>
      rw [hrev] at hhead
      have hc : (c == ' ') = false := by simpa using hhead
      rw [List.dropWhile_cons, hc]
      rfl
  simp [newLine, full, text, hpending, hdrop]

end Page

namespace Doc

mutual
/-- Writing a document adds a text that it spells, if no line comes while the page is not firm. -/
theorem exists_spells_write (width indent : Nat) (mode : LineMode) :
    ∀ (d : Doc) (rest : Rest) (p : Page) (firm firm' : Bool), firmAfter firm d = some firm' →
      (firm = true → p.Firm) →
        ∃ t, Spells mode d t ∧ (write width indent mode d rest p).full = p.full ++ t ∧
          (firm' = true → (write width indent mode d rest p).Firm)
  | .nil, rest, p, firm, firm', h, hp => by
    rw [firmAfter, Option.some.injEq] at h
    subst h
    refine ⟨[], rfl, ?_, ?_⟩
    · rw [write, List.append_nil]
    · rw [write]
      exact hp
  | .text s, rest, p, firm, firm', h, hp => by
    rw [firmAfter, Option.some.injEq] at h
    rw [write]
    refine ⟨s, rfl, Page.full_put s p, ?_⟩
    intro hfirm
    subst hfirm
    -- an empty text leaves the page as firm as it was
    cases hlast : s.getLast? with
    | none =>
      rw [hlast] at h
      obtain ⟨hpending, hhead⟩ := hp h
      rw [List.getLast?_eq_none_iff] at hlast
      subst hlast
      refine ⟨rfl, ?_⟩
      simpa [Page.put, hpending] using hhead
    | some c =>
      rw [hlast] at h
      exact Page.firm_put hlast (by simpa using h)
  | .line kind, rest, p, firm, firm', h, hp => by
    rw [firmAfter] at h
    split at h
    · rename_i hfirm
      -- on a firm page no space is taken back, so the line end is simply added
      rw [Option.some.injEq] at h
      subst h
      have hnew := Page.full_newLine indent (hp hfirm)
      cases kind with
      | hard =>
        rw [write]
        exact ⟨_, ⟨indent, rfl⟩, hnew, fun h => by cases h⟩
      | soft =>
        cases mode with
        | flat =>
          rw [write]
          exact ⟨[' '], rfl, Page.full_put [' '] p, fun h => by cases h⟩
        | broken =>
          rw [write]
          exact ⟨_, ⟨indent, rfl⟩, hnew, fun h => by cases h⟩
    · cases h
  | .concat items, rest, p, firm, firm', h, hp => by
    rw [firmAfter] at h
    rw [write]
    exact exists_spells_writeAll width indent mode items rest p firm firm' h hp
  | .indent spaces body, rest, p, firm, firm', h, hp => by
    rw [firmAfter] at h
    rw [write]
    exact exists_spells_write width (indent + spaces) mode body rest p firm firm' h hp
  | .group body, rest, p, firm, firm', h, hp => by
    rw [firmAfter] at h
    rw [write]
    -- a group that fits has no hard line, which is what spelling it flat asks for
    by_cases hfits : fits (width - p.column) body rest = true
    · rw [if_pos hfits]
      obtain ⟨t, hspell, hfull⟩ :=
        exists_spells_write width indent .flat body rest p firm firm' h hp
      exact ⟨t, Or.inl ⟨hasHardLine_of_fits hfits, hspell⟩, hfull⟩
    · rw [if_neg hfits]
      obtain ⟨t, hspell, hfull⟩ :=
        exists_spells_write width indent .broken body rest p firm firm' h hp
      exact ⟨t, Or.inr hspell, hfull⟩
/-- Writing documents adds a text that they spell. -/
theorem exists_spells_writeAll (width indent : Nat) (mode : LineMode) :
    ∀ (ds : List Doc) (rest : Rest) (p : Page) (firm firm' : Bool),
      firmAfterAll firm ds = some firm' → (firm = true → p.Firm) →
        ∃ t, SpellsAll mode ds t ∧ (writeAll width indent mode ds rest p).full = p.full ++ t ∧
          (firm' = true → (writeAll width indent mode ds rest p).Firm)
  | [], rest, p, firm, firm', h, hp => by
    rw [firmAfterAll, Option.some.injEq] at h
    subst h
    refine ⟨[], rfl, ?_, ?_⟩
    · rw [writeAll, List.append_nil]
    · rw [writeAll]
      exact hp
  | d :: ds, rest, p, firm, firm', h, hp => by
    rw [firmAfterAll] at h
    obtain ⟨between, hd, hds⟩ := Option.bind_eq_some_iff.1 h
    obtain ⟨t₁, hspell₁, hfull₁, hfirm₁⟩ :=
      exists_spells_write width indent mode d ((mode, ds) :: rest) p firm between hd hp
    obtain ⟨t₂, hspell₂, hfull₂, hfirm₂⟩ :=
      exists_spells_writeAll width indent mode ds rest _ between firm' hds hfirm₁
    rw [writeAll]
    refine ⟨t₁ ++ t₂, ⟨t₁, t₂, rfl, hspell₁, hspell₂⟩, ?_, hfirm₂⟩
    rw [hfull₂, hfull₁, List.append_assoc]
end

/-- A firm document is printed as a text that it spells; only spaces at the very end may be
missing. -/
theorem exists_spells_render (printWidth : Nat) {d : Doc} {firm : Bool}
    (h : firmAfter false d = some firm) :
    ∃ n, Spells .broken d (d.render printWidth ++ List.replicate n ' ') := by
  obtain ⟨t, hspell, hfull, -⟩ := exists_spells_write (lineWidth printWidth) 0 .broken d [] {}
    false firm h (fun h => by cases h)
  have hempty : Page.full {} = [] := rfl
  rw [hempty, List.nil_append] at hfull
  refine ⟨(write (lineWidth printWidth) 0 .broken d [] {}).pending, ?_⟩
  rw [← hfull] at hspell
  exact hspell

end Doc

end RazorTidy
