import Mathlib.Computability.Language
import RazorTidy.Proofs.TokensAhead

/-!
# The pattern of tags

A tag is described by a pattern (`tagPattern`): an angle bracket, an optional slash, a letter, the
rest of a name, then any number of quoted texts and characters that are neither quotes nor angle
brackets, and a closing angle bracket. A declaration has its own, simpler branch. The parts of the
pattern overlap, so how a text is divided among them is a matter of choice.

Where the tag ends is not (`tagPattern_unambiguous`): whatever the choices, the only prefix of a text
that the pattern describes is the one that the rule for tags finds in one pass, and it goes up to the
first `>` outside of quotes. The state of the pass is the quote that is open. A text of pieces is one
that ends with no quote open and has no angle bracket outside of quotes (`mem_kstar_tagPiece_iff`).
-/

set_option autoImplicit false

namespace RazorTidy

open Computability

/-! ## Patterns -/

/-- One character of a class. -/
def oneOf (p : Char → Bool) : Language Char := {s | ∃ c, p c = true ∧ s = [c]}

/-- The character `c`. -/
def mark (c : Char) : Language Char := oneOf (· == c)

/-- A text in the quotes `q`. -/
def quotedPattern (q : Char) : Language Char := mark q * (oneOf (· != q))∗ * mark q

/-- A character of the name in a tag. -/
def isNamePart (c : Char) : Bool :=
  !Text.isBlank c && c != '/' && c != '<' && c != '>' && c != '"' && c != '\''

/-- A piece of a tag: a quoted text, or a character that is no quote and no angle bracket. -/
def tagPiece : Language Char :=
  quotedPattern '"' + quotedPattern '\'' +
    oneOf fun c => c != '\'' && c != '"' && c != '<' && c != '>'

/-- A tag of an element. -/
def elementPattern : Language Char :=
  mark '<' * (1 + mark '/') * oneOf Text.isAsciiLetter * (oneOf isNamePart)∗ * tagPiece∗ * mark '>'

/-- A declaration. -/
def declarationPattern : Language Char :=
  mark '<' * mark '!' * oneOf Text.isAsciiLetter * (oneOf fun c => c != '<' && c != '>')∗ * mark '>'

/-- A tag. -/
def tagPattern : Language Char := elementPattern + declarationPattern

theorem mem_oneOf_mul {p : Char → Bool} {L : Language Char} {s : Text} :
    s ∈ oneOf p * L ↔ ∃ c r, s = c :: r ∧ p c = true ∧ r ∈ L := by
  rw [Language.mem_mul]
  constructor
  · rintro ⟨a, ⟨c, hc, rfl⟩, r, hr, rfl⟩
    exact ⟨c, r, rfl, hc, hr⟩
  · rintro ⟨c, r, rfl, hc, hr⟩
    exact ⟨[c], ⟨c, hc, rfl⟩, r, hr, rfl⟩

theorem mem_mark_mul {c : Char} {L : Language Char} {s : Text} :
    s ∈ mark c * L ↔ ∃ r, s = c :: r ∧ r ∈ L := by
  rw [mark, mem_oneOf_mul]
  constructor
  · rintro ⟨d, r, rfl, hd, hr⟩
    exact ⟨r, by rw [beq_iff_eq.1 hd], hr⟩
  · rintro ⟨r, rfl, hr⟩
    exact ⟨c, r, rfl, beq_self_eq_true c, hr⟩

theorem mem_mul_mark {c : Char} {L : Language Char} {s : Text} :
    s ∈ L * mark c ↔ ∃ r, s = r ++ [c] ∧ r ∈ L := by
  rw [Language.mem_mul]
  constructor
  · rintro ⟨r, hr, b, ⟨d, hd, rfl⟩, rfl⟩
    exact ⟨r, by rw [beq_iff_eq.1 hd], hr⟩
  · rintro ⟨r, rfl, hr⟩
    exact ⟨r, hr, [c], ⟨c, beq_self_eq_true c, rfl⟩, rfl⟩

theorem mem_kstar_oneOf {p : Char → Bool} {s : Text} :
    s ∈ (oneOf p)∗ ↔ ∀ c ∈ s, p c = true := by
  rw [Language.mem_kstar]
  constructor
  · rintro ⟨pieces, rfl, hpieces⟩ c hc
    obtain ⟨piece, hpiece, hc⟩ := List.mem_flatten.1 hc
    obtain ⟨d, hd, rfl⟩ := hpieces piece hpiece
    rw [List.mem_singleton.1 hc]
    exact hd
  · intro h
    refine ⟨s.map fun c => [c], (List.flatMap_singleton' s).symm, ?_⟩
    intro piece hpiece
    obtain ⟨c, hc, rfl⟩ := List.mem_map.1 hpiece
    exact ⟨c, h c hc, rfl⟩

theorem mem_quotedPattern {q : Char} {s : Text} :
    s ∈ quotedPattern q ↔ ∃ v, s = q :: (v ++ [q]) ∧ q ∉ v := by
  rw [quotedPattern, mul_assoc, mem_mark_mul]
  simp only [mem_mul_mark, mem_kstar_oneOf, bne_iff_ne]
  constructor
  · rintro ⟨r, rfl, v, rfl, hv⟩
    exact ⟨v, rfl, fun hq => hv q hq rfl⟩
  · rintro ⟨v, rfl, hv⟩
    exact ⟨v ++ [q], rfl, v, rfl, fun c hc heq => hv (heq ▸ hc)⟩

/-! ## Characters outside of quotes -/

/-- The quote that is open behind the character `c`, where `quote?` is the one in front of it. -/
def quoteAfter (quote? : Option Char) (c : Char) : Option Char :=
  match quote? with
  | some q => if c = q then none else some q
  | none => if isQuote c then some c else none

/-- The quote that is open at the end of a text. -/
def openQuote (s : Text) : Option Char := s.foldl quoteAfter none

/-- Whether the character `c` stands somewhere in a text outside of quotes. -/
def StandsBare (c : Char) (s : Text) : Prop :=
  ∃ front back, s = front ++ c :: back ∧ openQuote front = none

/-- A text, read with the quote `quote?` open, that ends with no quote open and has no angle bracket
outside of quotes. -/
structure Sealed (quote? : Option Char) (s : Text) : Prop where
  closed : s.foldl quoteAfter quote? = none
  bare : ∀ front c back, s = front ++ c :: back → front.foldl quoteAfter quote? = none →
    c ≠ '<' ∧ c ≠ '>'

theorem sealed_none_iff (s : Text) :
    Sealed none s ↔ openQuote s = none ∧ ¬ StandsBare '<' s ∧ ¬ StandsBare '>' s := by
  constructor
  · rintro ⟨hclosed, hbare⟩
    refine ⟨hclosed, ?_, ?_⟩
    · rintro ⟨front, back, heq, hfront⟩
      exact (hbare front '<' back heq hfront).1 rfl
    · rintro ⟨front, back, heq, hfront⟩
      exact (hbare front '>' back heq hfront).2 rfl
  · rintro ⟨hclosed, hopen, hend⟩
    refine ⟨hclosed, ?_⟩
    intro front c back heq hfront
    constructor
    · rintro rfl
      exact hopen ⟨front, back, heq, hfront⟩
    · rintro rfl
      exact hend ⟨front, back, heq, hfront⟩

theorem sealed_nil (quote? : Option Char) : Sealed quote? [] ↔ quote? = none := by
  constructor
  · exact Sealed.closed
  · intro h
    refine ⟨h, ?_⟩
    intro front c back heq
    simp at heq

theorem sealed_cons (quote? : Option Char) (c : Char) (r : Text) :
    Sealed quote? (c :: r) ↔
      (quote? = none → c ≠ '<' ∧ c ≠ '>') ∧ Sealed (quoteAfter quote? c) r := by
  constructor
  · rintro ⟨hclosed, hbare⟩
    refine ⟨hbare [] c r rfl, hclosed, ?_⟩
    intro front d back heq
    exact hbare (c :: front) d back (by rw [heq]; rfl)
  · rintro ⟨hc, hclosed, hbare⟩
    refine ⟨hclosed, ?_⟩
    intro front d back heq
    cases front with
    | nil =>
      cases heq
      exact hc
    | cons e front =>
      cases heq
      exact hbare front d back rfl

/-- A text may go on with a text that is read with no quote open. -/
theorem Sealed.append {quote? : Option Char} {s t : Text} (hs : Sealed quote? s)
    (ht : Sealed none t) : Sealed quote? (s ++ t) := by
  induction s generalizing quote? with
  | nil => rwa [(sealed_nil quote?).1 hs]
  | cons c r ih =>
    obtain ⟨hc, hr⟩ := (sealed_cons quote? c r).1 hs
    exact (sealed_cons quote? c (r ++ t)).2 ⟨hc, ih hr⟩

theorem sealed_quoted {q : Char} {v : Text} (hv : q ∉ v) : Sealed (some q) (v ++ [q]) := by
  induction v with
  | nil =>
    rw [List.nil_append, sealed_cons, quoteAfter, if_pos rfl, sealed_nil]
    exact ⟨fun h => (by cases h), rfl⟩
  | cons c r ih =>
    rw [List.mem_cons, not_or] at hv
    rw [List.cons_append, sealed_cons, quoteAfter, if_neg fun heq => hv.1 heq.symm]
    exact ⟨fun h => (by cases h), ih hv.2⟩

/-- A character that is neither a quote nor an angle bracket changes nothing. -/
theorem sealed_plain {c : Char} (hc : c ∉ ['\'', '"', '<', '>']) (r : Text) :
    Sealed none (c :: r) ↔ Sealed none r := by
  simp only [List.mem_cons, List.not_mem_nil, or_false, not_or] at hc
  rw [sealed_cons, quoteAfter, if_neg (by simp [isQuote, hc.1, hc.2.1])]
  exact ⟨And.right, fun h => ⟨fun _ => hc.2.2, h⟩⟩

/-- A piece of a tag opens no quote that it does not close. -/
theorem sealed_of_mem_tagPiece {s : Text} (h : s ∈ tagPiece) : Sealed none s := by
  have hquoted : ∀ q, isQuote q = true → q ≠ '<' ∧ q ≠ '>' → s ∈ quotedPattern q →
      Sealed none s := by
    intro q hquote hmarks hs
    obtain ⟨v, rfl, hv⟩ := mem_quotedPattern.1 hs
    rw [sealed_cons, quoteAfter, if_pos hquote]
    exact ⟨fun _ => hmarks, sealed_quoted hv⟩
  rw [tagPiece, Language.mem_add, Language.mem_add] at h
  rcases h with (h | h) | ⟨c, hc, rfl⟩
  · exact hquoted '"' rfl (by decide) h
  · exact hquoted '\'' rfl (by decide) h
  · exact (sealed_plain (by simpa [and_assoc] using hc) []).2 ((sealed_nil none).2 rfl)

theorem mem_tagPiece_of_plain {c : Char} (hc : c ∉ ['\'', '"', '<', '>']) : [c] ∈ tagPiece := by
  rw [tagPiece, Language.mem_add]
  exact Or.inr ⟨c, by simpa [and_assoc] using hc, rfl⟩

theorem cons_mem_kstar {L : Language Char} {s t : Text} (hs : s ∈ L) (ht : t ∈ L∗) :
    s ++ t ∈ L∗ := by
  rw [← Language.one_add_self_mul_kstar_eq_kstar, Language.mem_add]
  exact Or.inr (Language.append_mem_mul hs ht)

/-- What follows an open quote is the rest of the quoted text, and pieces of a tag behind it. -/
theorem mem_kstar_tagPiece_of_sealed (s : Text) :
    (Sealed none s → s ∈ tagPiece∗) ∧
      ∀ q, Sealed (some q) s → ∃ v t, s = v ++ q :: t ∧ q ∉ v ∧ t ∈ tagPiece∗ := by
  induction s with
  | nil =>
    refine ⟨fun _ => Language.nil_mem_kstar _, ?_⟩
    intro q h
    cases (sealed_nil _).1 h
  | cons c r ih =>
    constructor
    · intro h
      rw [sealed_cons, quoteAfter] at h
      obtain ⟨hmarks, hr⟩ := h
      split at hr
      · -- a quote, with its text and the pieces behind it
        rename_i hquote
        obtain ⟨v, t, rfl, hv, ht⟩ := ih.2 c hr
        have hpiece : c :: (v ++ [c]) ∈ tagPiece := by
          have hquoted : c :: (v ++ [c]) ∈ quotedPattern c := mem_quotedPattern.2 ⟨v, rfl, hv⟩
          simp only [isQuote, Bool.or_eq_true, beq_iff_eq] at hquote
          rw [tagPiece, Language.mem_add, Language.mem_add]
          rcases hquote with rfl | rfl
          · exact Or.inl (Or.inl hquoted)
          · exact Or.inl (Or.inr hquoted)
        have hall := cons_mem_kstar hpiece ht
        rwa [List.cons_append, List.append_assoc, List.singleton_append] at hall
      · rename_i hquote
        obtain ⟨hopen, hend⟩ := hmarks rfl
        simp only [isQuote, Bool.or_eq_true, beq_iff_eq, not_or] at hquote
        exact cons_mem_kstar (mem_tagPiece_of_plain (by simp [hquote, hopen, hend])) (ih.1 hr)
    · intro q h
      rw [sealed_cons, quoteAfter] at h
      obtain ⟨-, hr⟩ := h
      split at hr
      · rename_i hc
        exact ⟨[], r, by rw [hc]; rfl, List.not_mem_nil, ih.1 hr⟩
      · rename_i hc
        obtain ⟨v, t, rfl, hv, ht⟩ := ih.2 q hr
        refine ⟨c :: v, t, rfl, ?_, ht⟩
        rw [List.mem_cons, not_or]
        exact ⟨fun heq => hc heq.symm, hv⟩

/-- Texts of pieces are the sealed ones, however they are divided into pieces. -/
theorem mem_kstar_tagPiece_iff (s : Text) : s ∈ tagPiece∗ ↔ Sealed none s := by
  constructor
  · intro h
    obtain ⟨pieces, rfl, hpieces⟩ := Language.mem_kstar.1 h
    clear h
    induction pieces with
    | nil => exact (sealed_nil none).2 rfl
    | cons piece others ih =>
      rw [List.flatten_cons]
      exact (sealed_of_mem_tagPiece (hpieces piece List.mem_cons_self)).append
        (ih fun y hy => hpieces y (List.mem_cons_of_mem _ hy))
  · exact (mem_kstar_tagPiece_of_sealed s).1

/-! ## What the pattern describes -/

/-- Whether a text starts as the tag of an element does behind its angle bracket: with a letter, or
with a slash and a letter. -/
def StartsElement (s : Text) : Prop :=
  ∃ c r, Text.isAsciiLetter c = true ∧ (s = c :: r ∨ s = '/' :: c :: r)

/-- Whether a text starts as a declaration does behind its angle bracket. -/
def StartsDeclaration (s : Text) : Prop :=
  ∃ c r, Text.isAsciiLetter c = true ∧ s = '!' :: c :: r

/-- What stands in a tag between its angle brackets. -/
def TagInner (s : Text) : Prop :=
  StartsElement s ∧ Sealed none s ∨ StartsDeclaration s ∧ '<' ∉ s ∧ '>' ∉ s

theorem isAsciiLetter_not_mark {c : Char} (h : Text.isAsciiLetter c = true) :
    c ∉ ['\'', '"', '<', '>'] ∧ c ≠ '/' ∧ c ≠ '!' := by
  have hmark : ∀ d : Char, Text.isAsciiLetter d = false → c ≠ d := by
    rintro d hd rfl
    rw [h] at hd
    cases hd
  simp only [List.mem_cons, List.not_mem_nil, or_false, not_or]
  exact ⟨⟨hmark _ rfl, hmark _ rfl, hmark _ rfl, hmark _ rfl⟩, hmark _ rfl, hmark _ rfl⟩

/-- The name in a tag makes no difference, since its characters are pieces themselves. -/
theorem kstar_isNamePart_mul : (oneOf isNamePart)∗ * tagPiece∗ = tagPiece∗ := by
  have hle : oneOf isNamePart ≤ tagPiece := by
    rintro s ⟨c, hc, rfl⟩
    simp only [isNamePart, Bool.and_eq_true, bne_iff_ne] at hc
    exact mem_tagPiece_of_plain (by simp [hc])
  apply le_antisymm
  · calc (oneOf isNamePart)∗ * tagPiece∗ ≤ tagPiece∗ * tagPiece∗ :=
          mul_le_mul_left (kstar_mono hle) _
      _ = tagPiece∗ := kstar_mul_kstar tagPiece
  · calc tagPiece∗ = 1 * tagPiece∗ := (one_mul _).symm
      _ ≤ (oneOf isNamePart)∗ * tagPiece∗ := mul_le_mul_left one_le_kstar _

theorem mem_elementPattern_iff (p : Text) :
    p ∈ elementPattern ↔
      ∃ inner, p = '<' :: (inner ++ ['>']) ∧ StartsElement inner ∧ Sealed none inner := by
  have hshape : elementPattern = mark '<' * (oneOf Text.isAsciiLetter * (tagPiece∗ * mark '>') +
      mark '/' * (oneOf Text.isAsciiLetter * (tagPiece∗ * mark '>'))) := by
    rw [elementPattern, mul_assoc _ (oneOf isNamePart)∗, kstar_isNamePart_mul]
    simp only [mul_assoc, add_mul, one_mul]
  rw [hshape, mem_mark_mul]
  simp only [Language.mem_add, mem_mark_mul, mem_oneOf_mul, mem_mul_mark, mem_kstar_tagPiece_iff]
  constructor
  · rintro ⟨r, rfl, ⟨c, r, rfl, hc, body, rfl, hbody⟩ | ⟨r, rfl, c, r, rfl, hc, body, rfl, hbody⟩⟩
    · exact ⟨c :: body, rfl, ⟨c, body, hc, Or.inl rfl⟩,
        (sealed_plain (isAsciiLetter_not_mark hc).1 _).2 hbody⟩
    · exact ⟨'/' :: c :: body, rfl, ⟨c, body, hc, Or.inr rfl⟩, (sealed_plain (by decide) _).2
        ((sealed_plain (isAsciiLetter_not_mark hc).1 _).2 hbody)⟩
  · rintro ⟨inner, rfl, ⟨c, body, hc, rfl | rfl⟩, hsealed⟩
    · rw [sealed_plain (isAsciiLetter_not_mark hc).1] at hsealed
      exact ⟨_, rfl, Or.inl ⟨c, _, rfl, hc, body, rfl, hsealed⟩⟩
    · rw [sealed_plain (by decide), sealed_plain (isAsciiLetter_not_mark hc).1] at hsealed
      exact ⟨_, rfl, Or.inr ⟨_, rfl, c, _, rfl, hc, body, rfl, hsealed⟩⟩

theorem mem_declarationPattern_iff (p : Text) :
    p ∈ declarationPattern ↔
      ∃ inner, p = '<' :: (inner ++ ['>']) ∧ StartsDeclaration inner ∧ '<' ∉ inner ∧
        '>' ∉ inner := by
  have hplain : ∀ body : Text, (∀ c ∈ body, (c != '<' && c != '>') = true) ↔
      '<' ∉ body ∧ '>' ∉ body := by
    intro body
    simp only [Bool.and_eq_true, bne_iff_ne]
    constructor
    · exact fun h => ⟨fun hmem => (h _ hmem).1 rfl, fun hmem => (h _ hmem).2 rfl⟩
    · rintro ⟨hopen, hend⟩ c hc
      exact ⟨fun heq => hopen (heq ▸ hc), fun heq => hend (heq ▸ hc)⟩
  rw [declarationPattern]
  simp only [mul_assoc, mem_mark_mul, mem_oneOf_mul, mem_mul_mark, mem_kstar_oneOf, hplain]
  constructor
  · rintro ⟨r, rfl, r, rfl, c, r, rfl, hc, body, rfl, hopen, hend⟩
    have hmarks := (isAsciiLetter_not_mark hc).1
    simp only [List.mem_cons, List.not_mem_nil, or_false, not_or] at hmarks
    refine ⟨'!' :: c :: body, rfl, ⟨c, body, hc, rfl⟩, ?_, ?_⟩
    · simp [hopen, Ne.symm hmarks.2.2.1]
    · simp [hend, Ne.symm hmarks.2.2.2]
  · rintro ⟨inner, rfl, ⟨c, body, hc, rfl⟩, hopen, hend⟩
    simp only [List.mem_cons, not_or] at hopen hend
    exact ⟨_, rfl, _, rfl, c, _, rfl, hc, body, rfl, hopen.2.2, hend.2.2⟩

theorem mem_tagPattern_iff (p : Text) :
    p ∈ tagPattern ↔ ∃ inner, p = '<' :: (inner ++ ['>']) ∧ TagInner inner := by
  rw [tagPattern, Language.mem_add, mem_elementPattern_iff, mem_declarationPattern_iff]
  simp only [TagInner, and_or_left, exists_or]

/-! ## What the rule finds -/

/-- The kind of a tag as it is written. -/
def tagKind (p : Text) : TokenKind :=
  if ['<', '/'] <+: p then .closeTag
  else if ['<', '!'] <+: p ∨ ['/', '>'] <:+ p then .voidTag
  else .openTag

theorem tagRest?_eq_some_iff {quote? : Option Char} {s : Text} {n : Nat} :
    tagRest? quote? s = some n ↔
      ∃ inner rest, s = inner ++ '>' :: rest ∧ n = inner.length + 1 ∧ Sealed quote? inner := by
  induction s generalizing quote? n with
  | nil => cases quote? <;> simp [tagRest?]
  | cons c r ih =>
    -- a character in front that may stand in a tag
    have hstep : (quote? = none → c ≠ '<' ∧ c ≠ '>') →
        ((tagRest? (quoteAfter quote? c) r).map (· + 1) = some n ↔
          ∃ inner rest, c :: r = inner ++ '>' :: rest ∧ n = inner.length + 1 ∧
            Sealed quote? inner) := by
      intro hc
      rw [Option.map_eq_some_iff]
      constructor
      · rintro ⟨m, hm, rfl⟩
        obtain ⟨inner, rest, rfl, rfl, hsealed⟩ := ih.1 hm
        exact ⟨c :: inner, rest, rfl, rfl, (sealed_cons _ _ _).2 ⟨hc, hsealed⟩⟩
      · rintro ⟨inner, rest, heq, rfl, hsealed⟩
        cases inner with
        | nil =>
          cases heq
          exact absurd rfl (hc ((sealed_nil _).1 hsealed)).2
        | cons d inner =>
          cases heq
          exact ⟨_, ih.2 ⟨inner, rest, rfl, rfl, ((sealed_cons _ _ _).1 hsealed).2⟩, rfl⟩
    cases quote? with
    | some q => exact hstep fun h => by cases h
    | none =>
      rw [tagRest?]
      split
      · rename_i hend
        subst hend
        constructor
        · intro h
          cases h
          exact ⟨[], r, rfl, rfl, (sealed_nil none).2 rfl⟩
        · rintro ⟨inner, rest, heq, rfl, hsealed⟩
          cases inner with
          | nil => rfl
          | cons d inner =>
            cases heq
            exact absurd rfl (((sealed_cons _ _ _).1 hsealed).1 rfl).2
      · rename_i hend
        split
        · rename_i hopen
          subst hopen
          constructor
          · intro h
            cases h
          · rintro ⟨inner, rest, heq, rfl, hsealed⟩
            cases inner with
            | nil => cases heq
            | cons d inner =>
              cases heq
              exact absurd rfl (((sealed_cons _ _ _).1 hsealed).1 rfl).1
        · rename_i hopen
          exact hstep fun _ => ⟨hopen, hend⟩

theorem declarationRest?_eq_some_iff {s : Text} {n : Nat} :
    declarationRest? s = some n ↔
      ∃ inner rest, s = inner ++ '>' :: rest ∧ n = inner.length + 1 ∧ '<' ∉ inner ∧
        '>' ∉ inner := by
  induction s generalizing n with
  | nil => simp [declarationRest?]
  | cons c r ih =>
    rw [declarationRest?]
    split
    · rename_i hend
      subst hend
      constructor
      · intro h
        cases h
        exact ⟨[], r, rfl, rfl, List.not_mem_nil, List.not_mem_nil⟩
      · rintro ⟨inner, rest, heq, rfl, -, hend⟩
        cases inner with
        | nil => rfl
        | cons d inner =>
          cases heq
          exact absurd List.mem_cons_self hend
    · rename_i hend
      split
      · rename_i hopen
        subst hopen
        constructor
        · intro h
          cases h
        · rintro ⟨inner, rest, heq, rfl, hopen, -⟩
          cases inner with
          | nil => cases heq
          | cons d inner =>
            cases heq
            exact absurd List.mem_cons_self hopen
      · rename_i hopen
        rw [Option.map_eq_some_iff]
        constructor
        · rintro ⟨m, hm, rfl⟩
          obtain ⟨inner, rest, rfl, rfl, hopen', hend'⟩ := ih.1 hm
          exact ⟨c :: inner, rest, rfl, rfl, by simp [Ne.symm hopen, hopen'],
            by simp [Ne.symm hend, hend']⟩
        · rintro ⟨inner, rest, heq, rfl, hopen', hend'⟩
          cases inner with
          | nil =>
            cases heq
            exact absurd rfl hend
          | cons d inner =>
            cases heq
            rw [List.mem_cons, not_or] at hopen' hend'
            exact ⟨_, ih.2 ⟨inner, rest, rfl, rfl, hopen'.2, hend'.2⟩, rfl⟩

theorem closesItself_iff (u : Text) : ['/', '>'] <:+ u ++ ['>'] ↔ u.getLast? = some '/' := by
  rw [← List.singleton_suffix_iff_getLast?_eq_some]
  constructor
  · intro h
    rcases List.suffix_concat_iff.1 h with hnil | ⟨t, ht, hsuffix⟩
    · cases hnil
    · have ht' : ['/'] ++ ['>'] = t ++ ['>'] := ht
      rwa [← List.append_cancel_right ht'] at hsuffix
  · exact fun h => List.suffix_concat_iff.2 (Or.inr ⟨['/'], rfl, h⟩)

theorem tagKind_element {c : Char} (hc : Text.isAsciiLetter c = true) (body : Text) :
    tagKind ('<' :: (c :: body ++ ['>'])) =
      if body.getLast? = some '/' then .voidTag else .openTag := by
  obtain ⟨-, hslash, hbang⟩ := isAsciiLetter_not_mark hc
  have hlast : ('<' :: c :: body).getLast? = some '/' ↔ body.getLast? = some '/' := by
    cases body with
    | nil => simp [hslash]
    | cons d body => rw [List.getLast?_cons_cons, List.getLast?_cons_cons]
  have hends : ['/', '>'] <:+ '<' :: (c :: body ++ ['>']) ↔ body.getLast? = some '/' :=
    (closesItself_iff ('<' :: c :: body)).trans hlast
  rw [List.cons_append] at hends ⊢
  simp [tagKind, hends, hslash.symm, hbang.symm]

/-- The rule finds what stands between angle brackets as a tag. -/
theorem tag?_of_tagInner {inner : Text} (h : TagInner inner) (rest : Text) :
    tag? ('<' :: (inner ++ '>' :: rest)) =
      some (tagKind ('<' :: (inner ++ ['>'])), inner.length + 2) := by
  rcases h with ⟨⟨c, body, hc, rfl | rfl⟩, hsealed⟩ | ⟨⟨c, body, hc, rfl⟩, hopen, hend⟩
  · rw [sealed_plain (isAsciiLetter_not_mark hc).1] at hsealed
    have hrest := tagRest?_eq_some_iff.2 ⟨body, rest, rfl, rfl, hsealed⟩
    rw [List.cons_append, tag?_of_letter hc, hrest, Option.map_some, tagKind_element hc,
      Nat.add_sub_cancel, List.take_left]
    rfl
  · rw [sealed_plain (by decide), sealed_plain (isAsciiLetter_not_mark hc).1] at hsealed
    have hrest := tagRest?_eq_some_iff.2 ⟨body, rest, rfl, rfl, hsealed⟩
    rw [List.cons_append, List.cons_append, tag?, if_pos hc, hrest]
    simp [tagKind]
  · simp only [List.mem_cons, not_or] at hopen hend
    have hrest := declarationRest?_eq_some_iff.2 ⟨body, rest, rfl, rfl, hopen.2.2, hend.2.2⟩
    rw [List.cons_append, List.cons_append, tag?, if_pos hc, hrest]
    simp [tagKind]

/-- Whatever the rule finds is a tag between angle brackets. -/
theorem exists_tagInner {r : Text} {found : TokenKind × Nat} (h : tag? r = some found) :
    ∃ inner rest, r = '<' :: (inner ++ '>' :: rest) ∧ TagInner inner := by
  unfold tag? at h
  split at h
  · rename_i c s
    split at h
    · rename_i hc
      obtain ⟨n, hn, -⟩ := Option.map_eq_some_iff.1 h
      obtain ⟨body, rest, rfl, -, hsealed⟩ := tagRest?_eq_some_iff.1 hn
      refine ⟨'/' :: c :: body, rest, rfl, Or.inl ⟨⟨c, body, hc, Or.inr rfl⟩, ?_⟩⟩
      rwa [sealed_plain (by decide), sealed_plain (isAsciiLetter_not_mark hc).1]
    · cases h
  · rename_i c s
    split at h
    · rename_i hc
      obtain ⟨n, hn, -⟩ := Option.map_eq_some_iff.1 h
      obtain ⟨body, rest, rfl, -, hopen, hend⟩ := declarationRest?_eq_some_iff.1 hn
      have hmarks := (isAsciiLetter_not_mark hc).1
      simp only [List.mem_cons, List.not_mem_nil, or_false, not_or] at hmarks
      refine ⟨'!' :: c :: body, rest, rfl, Or.inr ⟨⟨c, body, hc, rfl⟩, ?_, ?_⟩⟩
      · simp [hopen, Ne.symm hmarks.2.2.1]
      · simp [hend, Ne.symm hmarks.2.2.2]
    · cases h
  · rename_i c s _ _
    split at h
    · rename_i hc
      obtain ⟨n, hn, -⟩ := Option.map_eq_some_iff.1 h
      obtain ⟨body, rest, rfl, -, hsealed⟩ := tagRest?_eq_some_iff.1 hn
      refine ⟨c :: body, rest, rfl, Or.inl ⟨⟨c, body, hc, Or.inl rfl⟩, ?_⟩⟩
      rwa [sealed_plain (isAsciiLetter_not_mark hc).1]
    · cases h
  · cases h

theorem mem_tagPattern_prefix_iff (r p : Text) :
    p ∈ tagPattern ∧ p <+: r ↔
      ∃ inner rest, r = '<' :: (inner ++ '>' :: rest) ∧ p = '<' :: (inner ++ ['>']) ∧
        TagInner inner := by
  rw [mem_tagPattern_iff]
  constructor
  · rintro ⟨⟨inner, rfl, hinner⟩, rest, rfl⟩
    exact ⟨inner, rest, by simp, rfl, hinner⟩
  · rintro ⟨inner, rest, rfl, rfl, hinner⟩
    exact ⟨⟨inner, rfl, hinner⟩, rest, by simp⟩

/-- The rule for tags finds a tag of some length if and only if the pattern describes a prefix of
this length. -/
theorem tag?_eq_some_iff (r : Text) (kind : TokenKind) (n : Nat) :
    tag? r = some (kind, n) ↔
      ∃ p, (p ∈ tagPattern ∧ p <+: r) ∧ p.length = n ∧ tagKind p = kind := by
  simp only [mem_tagPattern_prefix_iff]
  constructor
  · intro h
    obtain ⟨inner, rest, rfl, hinner⟩ := exists_tagInner h
    rw [tag?_of_tagInner hinner, Option.some.injEq, Prod.mk.injEq] at h
    exact ⟨_, ⟨inner, rest, rfl, rfl, hinner⟩, by simp [← h.2], h.1⟩
  · rintro ⟨p, ⟨inner, rest, rfl, rfl, hinner⟩, rfl, rfl⟩
    rw [tag?_of_tagInner hinner]
    simp

/-- The pattern of tags describes at most one prefix of a text. It describes one if and only if the
text starts as a tag does, with no `<` outside of quotes before the first `>` outside of quotes, or
as a declaration does, with no `<` before the first `>`; the prefix ends with this `>`. The rule for
tags finds this prefix, and its kind is seen from how the prefix starts and ends. -/
theorem tagPattern_unambiguous (r : Text) :
    {p | p ∈ tagPattern ∧ p <+: r}.Subsingleton ∧
      (∀ p, p ∈ tagPattern ∧ p <+: r ↔
        ∃ inner rest, r = '<' :: (inner ++ '>' :: rest) ∧ p = '<' :: (inner ++ ['>']) ∧
          (StartsElement inner ∧ openQuote inner = none ∧ ¬ StandsBare '<' inner ∧
              ¬ StandsBare '>' inner ∨
            StartsDeclaration inner ∧ '<' ∉ inner ∧ '>' ∉ inner)) ∧
      ∀ kind n, tag? r = some (kind, n) ↔
        ∃ p, (p ∈ tagPattern ∧ p <+: r) ∧ p.length = n ∧ tagKind p = kind := by
  refine ⟨?_, ?_, tag?_eq_some_iff r⟩
  · -- both prefixes have the length that the rule finds
    intro p hp p' hp'
    have hfound := (tag?_eq_some_iff r _ _).2 ⟨p, hp, rfl, rfl⟩
    rw [(tag?_eq_some_iff r _ _).2 ⟨p', hp', rfl, rfl⟩, Option.some.injEq, Prod.mk.injEq] at hfound
    exact (List.prefix_of_prefix_length_le hp.2 hp'.2 hfound.2.ge).eq_of_length hfound.2.symm
  · intro p
    simp only [mem_tagPattern_prefix_iff, TagInner, sealed_none_iff]

end RazorTidy
