import RazorTidy.Proofs.OpenModes
import RazorTidy.Proofs.TokensAhead

/-!
# Modes that go unnoticed

The modes at a place say how its text reads: in code, quotes and slashes start literals and
comments, and a `<` after a word is no tag. So a text is cut in the same way from a place with other
modes, unless code is read from one of them and markup from the other where it makes a difference.

`Segmentation.readsAlike` follows the tokens of a text from two lists of modes and looks at the
gaps where they disagree; `segmentFrom_readsAlike` says that the text is then cut in the same way.
An open element outside of code goes unnoticed unless it is closed by its name
(`readsAlike_of_markup`).
-/

set_option autoImplicit false

namespace RazorTidy

/-! ## Quiet text -/

/-- Whether no literal and no comment of code starts in a text in front of `rest`. -/
def Text.isQuiet (rest : Text) : Text → Bool
  | [] => true
  | c :: r =>
    (codeComment? (c :: (r ++ rest))).isNone && hiddenAfter c (r ++ rest) == 0 && isQuiet rest r

theorem Text.isQuiet_append (rest s t : Text) :
    isQuiet rest (s ++ t) = (isQuiet (t ++ rest) s && isQuiet rest t) := by
  induction s with
  | nil => rfl
  | cons c r ih =>
    simp only [List.cons_append, isQuiet, ih, List.append_assoc, Bool.and_assoc]

/-- Whether a token is a tag. -/
def TokenKind.isTag : TokenKind → Bool
  | .openTag => true
  | .closeTag => true
  | .voidTag => true
  | _ => false

namespace Place

variable {place : Place} {s : Text}

theorem tag?_of_markup (h : Mode.inCode place.modes = false) :
    place.tag? s = RazorTidy.tag? s := by
  rw [tag?, h]
  rfl

theorem isTag_of_tag? {kind : TokenKind} {n : Nat} (h : RazorTidy.tag? s = some (kind, n)) :
    kind.isTag = true := by
  rcases tag?_kind h with rfl | rfl | rfl <;> rfl

/-- A place with other modes has the same token, unless it is a tag after a word in code. -/
theorem token?_modes {modes : List Mode}
    (hmodes : Mode.inCode place.modes = Mode.inCode modes ∨ Mode.inCode place.modes = false ∧
      ∀ kind n, place.token? s = some (kind, n) → kind.isTag = true →
        place.follows Text.isWordChar = false) :
    { place with modes := modes }.token? s = place.token? s := by
  rcases hmodes with heq | ⟨hmarkup, hword⟩
  · rw [token?, token?, tag?, tag?, heq]
    rfl
  · rw [token?, tag?_of_markup hmarkup] at hword
    rw [token?, token?, tag?_of_markup hmarkup]
    cases hcomment : comment? s with
    | some m => rfl
    | none =>
      cases htag : RazorTidy.tag? s with
      | none =>
        have hplace : { place with modes := modes }.tag? s = none := by
          rw [tag?, htag]
          split <;> rfl
        rw [hplace]
        rfl
      | some found =>
        rw [hcomment, htag] at hword
        have hfollows := hword found.1 found.2 rfl (isTag_of_tag? htag)
        have hplace : { place with modes := modes }.tag? s = some found := by
          rw [tag?,
            show follows Text.isWordChar { place with modes := modes } = false from hfollows,
            Bool.and_false, if_neg Bool.false_ne_true, htag]
        rw [hplace]
        rfl

theorem textLength_modes {modes : List Mode} {c : Char} {r : Text}
    (hmodes : Mode.inCode place.modes = Mode.inCode modes ∨ Mode.inCode place.modes = false ∧
      codeComment? (c :: r) = none ∧ hiddenAfter c r = 0) :
    { place with modes := modes }.textLength (c :: r) = place.textLength (c :: r) := by
  rcases hmodes with heq | ⟨hmarkup, hcomment, hliteral⟩
  · unfold textLength
    simp only [heq]
  · unfold textLength
    split
    · rfl
    · rfl
    · rename_i heq
      cases heq
      simp [hcomment, hliteral]
    · rfl

end Place

namespace Segmentation

/-- Whether a text reads the same from two lists of modes, where `segments` and `tail` are its cut
from the first of them and `previous` is the character before it: where code is read only from the
second, the gap is quiet and no tag follows a word. -/
def readsAlike (tail : Text) :
    (modes modes' : List Mode) → (previous : Option Char) → (segments : List Segment) → Bool
  | modes, modes', _, [] =>
    Mode.inCode modes == Mode.inCode modes' || !Mode.inCode modes && Text.isQuiet [] tail
  | modes, modes', previous, ⟨gap, token⟩ :: rest =>
    let before := gap.getLast?.or previous
    (Mode.inCode modes == Mode.inCode modes' ||
        !Mode.inCode modes && Text.isQuiet (token.text ++ text ⟨rest, tail⟩) gap &&
          !(token.kind.isTag && before.any Text.isWordChar)) &&
      readsAlike tail (Mode.after modes token) (Mode.after modes' token)
        (token.text.getLast?.or before) rest

theorem readsAlike_consText {piece : Text} {cut : Segmentation} {modes modes' : List Mode}
    {previous : Option Char}
    (h : readsAlike (consText piece cut).tail modes modes' previous (consText piece cut).segments =
      true) :
    (Mode.inCode modes = Mode.inCode modes' ∨
        Mode.inCode modes = false ∧ Text.isQuiet cut.text piece = true) ∧
      readsAlike cut.tail modes modes' (piece.getLast?.or previous) cut.segments = true := by
  rcases cut with ⟨_ | ⟨⟨gap, token⟩, rest⟩, tail⟩
  · have htext : text ⟨[], tail⟩ = tail := rfl
    simp only [consText, readsAlike, Text.isQuiet_append, Bool.or_eq_true, Bool.and_eq_true,
      beq_iff_eq, Bool.not_eq_true', List.append_nil] at h
    simp only [htext, readsAlike, Bool.or_eq_true, Bool.and_eq_true, beq_iff_eq, Bool.not_eq_true']
    rcases h with heq | ⟨hmarkup, hpiece, htail⟩
    · exact ⟨Or.inl heq, Or.inl heq⟩
    · exact ⟨Or.inr ⟨hmarkup, hpiece⟩, Or.inr ⟨hmarkup, htail⟩⟩
  · have htext : text ⟨⟨gap, token⟩ :: rest, tail⟩ = gap ++ (token.text ++ text ⟨rest, tail⟩) := by
      simp [text]
    simp only [consText, readsAlike, Text.isQuiet_append, List.getLast?_append, Option.or_assoc,
      Bool.or_eq_true, Bool.and_eq_true, beq_iff_eq, Bool.not_eq_true'] at h
    simp only [htext, readsAlike, Bool.or_eq_true, Bool.and_eq_true, beq_iff_eq, Bool.not_eq_true']
    obtain ⟨heq | ⟨⟨hmarkup, hpiece, hgap⟩, hword⟩, hrest⟩ := h
    · exact ⟨Or.inl heq, Or.inl heq, hrest⟩
    · exact ⟨Or.inr ⟨hmarkup, hpiece⟩, Or.inr ⟨⟨hmarkup, hgap⟩, hword⟩, hrest⟩

/-- A text that reads the same from two lists of modes is cut in the same way. -/
theorem segmentFrom_readsAlike (place : Place) (s : Text) (modes : List Mode)
    (h : readsAlike (segmentFrom place s).tail place.modes modes place.previous
      (segmentFrom place s).segments = true) :
    segmentFrom { place with modes := modes } s = segmentFrom place s := by
  fun_induction segmentFrom place s generalizing modes with
  | case1 place => rw [segmentFrom]
  | case2 place c r kind n htoken token rest raw next ih =>
    rw [consToken, readsAlike, Bool.and_eq_true] at h
    obtain ⟨hfirst, hrest⟩ := h
    have hsame : { place with modes := modes }.token? (c :: r) = some (kind, n) := by
      rw [← htoken]
      apply Place.token?_modes
      simp only [List.getLast?_nil, Option.none_or, Bool.or_eq_true, Bool.and_eq_true, beq_iff_eq,
        Bool.not_eq_true', Bool.and_eq_false_iff] at hfirst
      rcases hfirst with heq | ⟨⟨hmarkup, -⟩, hword⟩
      · exact Or.inl heq
      · refine Or.inr ⟨hmarkup, ?_⟩
        intro kind' n' htoken' htag
        rw [htoken] at htoken'
        cases htoken'
        exact hword.resolve_left (by simp [token, htag])
    obtain ⟨-, hnext⟩ := readsAlike_consText hrest
    rw [segmentFrom, hsame]
    exact congrArg (fun cut => consToken token (consText (rest.take raw) cut)) (ih _ hnext)
  | case3 place c r hnone piece ih =>
    obtain ⟨hquiet, hrest⟩ := readsAlike_consText h
    have hsame : { place with modes := modes }.token? (c :: r) = none := by
      rw [← hnone]
      apply Place.token?_modes
      refine hquiet.imp_right fun h => ⟨h.1, ?_⟩
      simp [hnone]
    have hlength :
        { place with modes := modes }.textLength (c :: r) = place.textLength (c :: r) := by
      apply Place.textLength_modes
      refine hquiet.imp_right fun h => ⟨h.1, ?_⟩
      have hpiece := h.2
      rw [text_segmentFrom] at hpiece
      simp only [piece, Text.isQuiet, List.take_append_drop, Bool.and_eq_true,
        Option.isNone_iff_eq_none, beq_iff_eq] at hpiece
      exact hpiece.1
    rw [segmentFrom, hsame]
    simp only [hlength]
    exact congrArg (consText piece) (ih _ hrest)

/-! ## Elements outside of code -/

theorem readsAlike_self (tail : Text) (modes : List Mode) (previous : Option Char)
    (segments : List Segment) : readsAlike tail modes modes previous segments = true := by
  induction segments generalizing modes previous with
  | nil => simp [readsAlike]
  | cons segment rest ih =>
    rcases segment with ⟨gap, token⟩
    simp [readsAlike, ih]

end Segmentation

namespace Mode

theorem leave_append_of_mem {mode : Mode} {inner : List Mode} (h : mode ∈ inner)
    (outer : List Mode) : leave mode (inner ++ outer) = leave mode inner ++ outer := by
  induction inner with
  | nil => cases h
  | cons first rest ih =>
    by_cases heq : first = mode
    · subst heq
      rw [List.cons_append, leave_cons_self, leave_cons_self]
    · have hmem : mode ∈ rest := (List.mem_cons.1 h).resolve_left (Ne.symm heq)
      rw [List.cons_append, leave_cons_of_mem heq (List.mem_append_left outer hmem),
        leave_cons_of_mem heq hmem, ih hmem]

theorem leave_append_of_not_mem {mode : Mode} {inner outer : List Mode} (h : mode ∉ inner)
    (houter : mode ∈ outer) : leave mode (inner ++ outer) = leave mode outer := by
  induction inner with
  | nil => rfl
  | cons first rest ih =>
    rw [List.mem_cons, not_or] at h
    rw [List.cons_append,
      leave_cons_of_mem (Ne.symm h.1) (List.mem_append_right rest houter), ih h.2]

/-- Leaving another mode leaves a further mode open on both sides, or closes it. -/
theorem leave_unnoticed {mode other : Mode} (hne : other ≠ mode) (inner outer : List Mode) :
    (∃ inner', leave other (inner ++ mode :: outer) = inner' ++ mode :: outer ∧
        leave other (inner ++ outer) = inner' ++ outer) ∨
      leave other (inner ++ mode :: outer) = leave other (inner ++ outer) := by
  by_cases hinner : other ∈ inner
  · left
    exact ⟨leave other inner, leave_append_of_mem hinner _, leave_append_of_mem hinner _⟩
  · by_cases houter : other ∈ outer
    · right
      rw [leave_append_of_not_mem hinner (List.mem_cons_of_mem mode houter),
        leave_append_of_not_mem hinner houter, leave_cons_of_mem (Ne.symm hne) houter]
    · left
      refine ⟨inner, leave_of_not_mem ?_, leave_of_not_mem ?_⟩
      · simp [hinner, houter, hne]
      · simp [hinner, houter]

/-- A token that does not close the element of a further mode leaves it open on both sides, or
closes it with what is around it. -/
theorem after_unnoticed {name : Text} {token : Token}
    (h : token.kind = .closeTag → Text.sameName (tagName token.text) name = false)
    (inner outer : List Mode) :
    (∃ inner', after (inner ++ .markup (Text.lower name) :: outer) token =
          inner' ++ .markup (Text.lower name) :: outer ∧
        after (inner ++ outer) token = inner' ++ outer) ∨
      after (inner ++ .markup (Text.lower name) :: outer) token = after (inner ++ outer) token := by
  unfold after
  cases hkind : token.kind with
  | braceOpen => exact Or.inl ⟨.code :: inner, rfl, rfl⟩
  | braceClose => exact leave_unnoticed (by simp) inner outer
  | openTag =>
    dsimp only
    split
    · exact Or.inl ⟨inner, rfl, rfl⟩
    · exact Or.inl ⟨.markup (Text.lower (tagName token.text)) :: inner, rfl, rfl⟩
  | closeTag =>
    apply leave_unnoticed
    intro heq
    have hname := (Text.sameName_iff _ _).2 (Mode.markup.inj heq)
    rw [h hkind] at hname
    cases hname
  | _ => exact Or.inl ⟨inner, rfl, rfl⟩

end Mode

namespace Segmentation

/-- An element that is not directly in code and is not closed by its name goes unnoticed. -/
theorem readsAlike_of_markup (tail : Text) {name : Text} {segments : List Segment}
    (hclose : ∀ segment ∈ segments, segment.token.kind = .closeTag →
      Text.sameName (tagName segment.token.text) name = false)
    {outer : List Mode} (houter : Mode.inCode outer = false) (inner : List Mode)
    (previous : Option Char) :
    readsAlike tail (inner ++ .markup (Text.lower name) :: outer) (inner ++ outer) previous
      segments = true := by
  have hcode : ∀ inner : List Mode,
      Mode.inCode (inner ++ .markup (Text.lower name) :: outer) = Mode.inCode (inner ++ outer) := by
    intro inner
    cases inner with
    | nil => exact houter.symm
    | cons mode rest => cases mode <;> rfl
  induction segments generalizing inner previous with
  | nil => simp [readsAlike, hcode]
  | cons segment rest ih =>
    rcases segment with ⟨gap, token⟩
    rw [readsAlike, hcode, beq_self_eq_true, Bool.true_or, Bool.true_and]
    rcases Mode.after_unnoticed (hclose _ List.mem_cons_self) inner outer with
      ⟨inner', hwith, hwithout⟩ | heq
    · rw [hwith, hwithout]
      exact ih (fun segment hmem => hclose segment (List.mem_cons_of_mem _ hmem)) inner' _
    · rw [heq]
      exact readsAlike_self _ _ _ _

end Segmentation

end RazorTidy
