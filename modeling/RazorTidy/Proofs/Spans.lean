import RazorTidy.Proofs.ByteScan

/-!
# The byte ranges of tokens

The scan of a template takes at least one character with each token and with each piece of text
(`Place.token?_pos`, `Place.textLength_pos`), so it ends: with more steps than bytes it gives the
tokens of the segmentation (`ByteScan.Agrees.scan?`). Their byte ranges are slices of the template
in their order, none of them empty, with the texts of the tokens in them.
-/

set_option autoImplicit false

namespace RazorTidy

open Text (octets offset byteLength isAscii)

/-! ## Progress -/

theorem comment?_pos {s : Text} {n : Nat} (h : comment? s = some n) : 0 < n := by
  unfold comment? at h
  split at h
  · obtain ⟨m, -, rfl⟩ := Option.map_eq_some_iff.1 h
    omega
  · obtain ⟨m, -, rfl⟩ := Option.map_eq_some_iff.1 h
    omega
  · cases h

theorem codeComment?_pos {s : Text} {n : Nat} (h : codeComment? s = some n) : 0 < n := by
  unfold codeComment? at h
  split at h
  · cases h
    omega
  · obtain ⟨m, -, rfl⟩ := Option.map_eq_some_iff.1 h
    omega
  · cases h

theorem tag?_pos {s : Text} {kind : TokenKind} {n : Nat} (h : tag? s = some (kind, n)) : 0 < n := by
  unfold tag? at h
  split at h
  · split at h
    · obtain ⟨m, -, hm⟩ := Option.map_eq_some_iff.1 h
      cases hm
      omega
    · cases h
  · split at h
    · obtain ⟨m, -, hm⟩ := Option.map_eq_some_iff.1 h
      cases hm
      omega
    · cases h
  · split at h
    · obtain ⟨m, -, hm⟩ := Option.map_eq_some_iff.1 h
      cases hm
      omega
    · cases h
  · cases h

namespace Place

variable {place : Place} {s : Text}

theorem transition?_pos {kind : TokenKind} {n : Nat} (h : place.transition? s = some (kind, n)) :
    0 < n := by
  rw [transition?] at h
  split at h
  · cases h
  split at h
  · cases h
    omega
  split at h
  · simp only at h
    split at h
    · cases h
      omega
    · cases h
      omega
  · cases h

theorem continuation?_pos {kind : TokenKind} {n : Nat}
    (h : place.continuation? s = some (kind, n)) : 0 < n := by
  rw [continuation?] at h
  simp only at h
  split at h
  · rename_i hword
    cases h
    cases hempty : Text.leadingWord s with
    | nil =>
      -- no continuation is the empty word
      rw [hempty, Bool.and_eq_true] at hword
      exact absurd hword.2 (by decide)
    | cons c r =>
      rw [List.length_cons]
      omega
  · cases h

/-- A token takes at least one character. -/
theorem token?_pos {kind : TokenKind} {n : Nat} (h : place.token? s = some (kind, n)) :
    0 < n := by
  rcases token?_cases h with ⟨-, hcomment⟩ | htag | hcode
  · exact comment?_pos hcomment
  · exact tag?_pos htag
  · unfold code? at hcode
    split at hcode
    · cases hcode
    · cases hcode
      omega
    · cases hcode
      omega
    · exact transition?_pos hcode
    · exact continuation?_pos hcode

/-- Text to pass over has at least one character. -/
theorem textLength_pos (hs : s ≠ []) : 0 < place.textLength s := by
  unfold textLength
  split
  · omega
  · omega
  · split
    · rename_i c r _ _ _
      cases hcomment : codeComment? (c :: r) with
      | none =>
        rw [Option.getD_none]
        omega
      | some n => exact codeComment?_pos hcomment
    · omega
  · exact absurd rfl hs

end Place

/-! ## Steps of the scanner -/

namespace ByteScan

variable {front rest : Text} {state : State} {place : Place}

theorem slice?_byteLength (start : Nat) (front rest : Text) :
    Text.Span.slice? ⟨start, byteLength front⟩ (front ++ rest) = after? front start := by
  rw [Text.Span.slice?, cut?_byteLength, after?, Option.bind_eq_bind, Option.bind_some]
  cases hcut : Text.cut? start front <;> simp only [hcut] <;> rfl

theorem slice?_between (front text rest : Text) :
    Text.Span.slice? ⟨byteLength front, byteLength (front ++ text)⟩ (front ++ text ++ rest) =
      some text := by
  rw [slice?_byteLength, after?_append]

theorem after?_append_right {s t : Text} {i : Nat} (h : after? s i = some t) (piece : Text) :
    after? (s ++ piece) i = some (t ++ piece) := by
  obtain ⟨⟨head, back⟩, hcut, rfl⟩ := Option.map_eq_some_iff.1 h
  obtain ⟨happ, hlength⟩ := Text.cut?_append hcut
  rw [← happ, ← hlength, List.append_assoc]
  exact after?_append head (back ++ piece)

/-- The step over a piece of text. -/
theorem Agrees.passText {piece : Text} (h : Agrees front (piece ++ rest) state place) :
    Agrees (front ++ piece) rest { state with position := byteLength (front ++ piece) }
      (place.passText piece) where
  position := rfl
  previous := by rw [Place.passText, h.previous, List.getLast?_append]
  modes := h.modes
  afterBrace := by
    have hbrace := h.afterBrace
    show _ = some (place.afterBrace && Text.allBlank piece)
    rcases hprevious : state.previous with _ | ⟨kind, stop⟩
    · simp only [afterBrace?, hprevious] at hbrace ⊢
      rw [← Option.some.inj hbrace, Bool.false_and]
    by_cases hkind : kind = .braceClose
    · simp only [afterBrace?, hprevious, hkind, if_true, h.position, slice?_byteLength] at hbrace ⊢
      obtain ⟨gap, hgap, hblank⟩ := Option.map_eq_some_iff.1 hbrace
      rw [after?_append_right hgap, Option.map_some, ← hblank, allBlank_append]
    · simp only [afterBrace?, hprevious, hkind, if_false] at hbrace ⊢
      rw [← Option.some.inj hbrace, Bool.false_and]

/-- The step over a token. -/
theorem Agrees.passToken (token : Token) (h : Agrees front (token.text ++ rest) state place) :
    Agrees (front ++ token.text) rest
      ⟨byteLength (front ++ token.text),
        some (token.kind, byteLength (front ++ token.text)),
        Mode.after state.modes token⟩
      (place.passToken token) where
  position := rfl
  previous := by rw [Place.passToken, h.previous, List.getLast?_append]
  modes := by rw [Place.passToken, h.modes]
  afterBrace := by
    have hafter := after?_append (front ++ token.text) []
    rw [List.append_nil] at hafter
    show _ = some (token.kind == .braceClose)
    simp only [afterBrace?, slice?_byteLength, hafter]
    by_cases hkind : token.kind = .braceClose
    · rw [if_pos hkind, hkind]
      rfl
    · rw [if_neg hkind, beq_eq_false_iff_ne.2 hkind]

/-! ## The run of the scanner -/

end ByteScan

namespace Segmentation

theorem spansFrom_consText (i : Nat) (piece : Text) (cut : Segmentation) :
    spansFrom i (consText piece cut).segments =
      spansFrom (i + byteLength piece) cut.segments := by
  rcases cut with ⟨_ | ⟨first, rest⟩, tail⟩
  · rfl
  · simp only [consText, spansFrom, Text.byteLength_append, Nat.add_assoc]

theorem spansFrom_consToken (i : Nat) (token : Token) (cut : Segmentation) :
    spansFrom i (consToken token cut).segments =
      (token, i, i + byteLength token.text) ::
        spansFrom (i + byteLength token.text) cut.segments := rfl

theorem cons_take {n : Nat} (hn : 0 < n) (c : Char) (r : Text) :
    c :: r.take (n - 1) = (c :: r).take n ∧ r.drop (n - 1) = (c :: r).drop n := by
  obtain ⟨m, rfl⟩ : ∃ m, n = m + 1 := ⟨n - 1, by omega⟩
  exact ⟨rfl, rfl⟩

variable {place : Place} {s : Text}

theorem segmentFrom_of_token {kind : TokenKind} {n : Nat} (hne : s ≠ [])
    (h : place.token? s = some (kind, n)) :
    segmentFrom place s =
      let token : Token := ⟨kind, s.take n⟩
      let raw := rawTextLength token (s.drop n)
      consToken token (consText ((s.drop n).take raw)
        (segmentFrom ((place.passToken token).passText ((s.drop n).take raw))
          ((s.drop n).drop raw))) := by
  cases s with
  | nil => exact absurd rfl hne
  | cons c r =>
    obtain ⟨htake, hdrop⟩ := cons_take (Place.token?_pos h) c r
    rw [segmentFrom, h]
    simp only [htake, hdrop]

theorem segmentFrom_of_none (hne : s ≠ []) (h : place.token? s = none) :
    segmentFrom place s =
      let piece := s.take (place.textLength s)
      consText piece (segmentFrom (place.passText piece) (s.drop (place.textLength s))) := by
  cases s with
  | nil => exact absurd rfl hne
  | cons c r =>
    obtain ⟨htake, hdrop⟩ := cons_take (place.textLength_pos hne) c r
    rw [segmentFrom, h]
    simp only [htake, hdrop]

end Segmentation

namespace ByteScan

variable {front rest : Text} {state : State} {place : Place}

open Segmentation

theorem Agrees.position_lt (h : Agrees front rest state place) (hne : rest ≠ []) :
    state.position < byteLength (front ++ rest) := by
  have hpos := Text.byteLength_pos hne
  rw [h.position, Text.byteLength_append]
  omega

attribute [local simp] ByteScan.scan? in
/-- At the end of the source the scanner stops. -/
theorem scan?_end {source : Text} (h : byteLength source ≤ state.position) (steps : Nat) :
    scan? source (steps + 1) state = some [] := by
  simp [h]

/-- Where a token stands, the scanner gives it and goes on behind the raw text after it. -/
theorem Agrees.scan?_token {kind : TokenKind} {n : Nat} (h : Agrees front rest state place)
    (hne : rest ≠ []) (htoken : place.token? rest = some (kind, n)) (steps : Nat) :
    let token : Token := ⟨kind, rest.take n⟩
    let raw := (rest.drop n).take (rawTextLength token (rest.drop n))
    scan? (front ++ rest) (steps + 1) state =
      (scan? (front ++ rest) steps
        ⟨byteLength (front ++ token.text ++ raw), some (kind, byteLength (front ++ token.text)),
          Mode.after state.modes token⟩).map
        ((token, byteLength front, byteLength (front ++ token.text)) :: ·) := by
  intro token raw
  have hstop : byteLength front + offset n rest = byteLength (front ++ token.text) :=
    (Text.byteLength_append front (rest.take n)).symm
  have hslice : Text.Span.slice? ⟨byteLength front, byteLength (front ++ token.text)⟩
      (front ++ rest) = some token.text := by
    have hbetween := slice?_between front (rest.take n) (rest.drop n)
    rwa [List.append_assoc, List.take_append_drop] at hbetween
  have hraw : rawTextEnd? (front ++ rest) token (byteLength (front ++ token.text)) =
      some (byteLength (front ++ token.text ++ raw)) := by
    have hafter := after?_offset h.after? n
    rw [h.position, hstop] at hafter
    rw [rawTextEnd?_eq hafter, Text.byteLength_append (front ++ token.text) raw]
    rfl
  rw [ByteScan.scan?, if_neg (Nat.not_le_of_lt (h.position_lt hne)), h.token?, htoken]
  simp only [Option.map_some, Option.bind_eq_bind, Option.bind_some, h.position, hstop]
  rw [hslice, Option.bind_some, hraw, Option.bind_some, Option.map_eq_bind]
  rfl

/-- Where no token stands, the scanner goes on behind some text. -/
theorem Agrees.scan?_text (h : Agrees front rest state place) (hne : rest ≠ [])
    (hnone : place.token? rest = none) (steps : Nat) :
    scan? (front ++ rest) (steps + 1) state =
      scan? (front ++ rest) steps
        { state with position := byteLength (front ++ rest.take (place.textLength rest)) } := by
  rw [ByteScan.scan?, if_neg (Nat.not_le_of_lt (h.position_lt hne)), h.token?, hnone]
  simp only [Option.map_none, Option.bind_eq_bind, Option.bind_some, h.textEnd?, h.position,
    Text.byteLength_append]
  rfl

/-- From any place on the scanner finds the tokens of the segmentation where they stand, given more
steps than bytes. -/
theorem Agrees.scan? {steps : Nat} (h : Agrees front rest state place)
    (hsteps : byteLength rest < steps) :
    scan? (front ++ rest) steps state =
      some (spansFrom (byteLength front) (segmentFrom place rest).segments) := by
  -- the bytes that are left bound the steps, and each step takes at least one of them
  induction steps generalizing front rest state place with
  | zero => cases hsteps
  | succ steps ih =>
    by_cases hne : rest = []
    · subst hne
      have hend : byteLength (front ++ []) ≤ state.position := by
        rw [List.append_nil, h.position]
      rw [scan?_end hend, segmentFrom]
      rfl
    cases htoken : place.token? rest with
    | some found =>
      obtain ⟨kind, n⟩ := found
      have hpos := Text.offset_pos (Place.token?_pos htoken) hne
      have hlength := Text.byteLength_drop n rest
      rw [h.scan?_token hne htoken, segmentFrom_of_token hne htoken]
      generalize hraw : rawTextLength ⟨kind, rest.take n⟩ (rest.drop n) = raw
      have hlength' := Text.byteLength_drop raw (rest.drop n)
      have hnext : Agrees front (rest.take n ++ ((rest.drop n).take raw ++ (rest.drop n).drop raw))
          state place := by
        rwa [List.take_append_drop, List.take_append_drop]
      have hscan := ih (hnext.passToken ⟨kind, rest.take n⟩).passText (by omega)
      simp only [List.append_assoc, List.take_append_drop] at hscan
      rw [List.append_assoc, hscan, Option.map_some, spansFrom_consToken, spansFrom_consText]
      simp only [Text.byteLength_append, Nat.add_assoc, hraw]
    | none =>
      have hpos := Text.offset_pos (place.textLength_pos hne) hne
      have hlength := Text.byteLength_drop (place.textLength rest) rest
      have hnext : Agrees front (rest.take (place.textLength rest) ++
          rest.drop (place.textLength rest)) state place := by
        rwa [List.take_append_drop]
      have hscan := ih hnext.passText (by omega)
      rw [List.append_assoc, List.take_append_drop, Text.byteLength_append] at hscan
      rw [h.scan?_text hne htoken, segmentFrom_of_none hne htoken, Text.byteLength_append, hscan,
        spansFrom_consText]

end ByteScan

/-! ## The ranges -/

namespace Segmentation

/-- Every token has text. -/
theorem text_ne_nil_of_mem_tokens {place : Place} {s : Text} {token : Token}
    (h : token ∈ (segmentFrom place s).tokens) : token.text ≠ [] := by
  obtain ⟨place', c, r, n, -, htext⟩ := exists_token?_of_mem_tokens h
  rw [htext]
  exact List.cons_ne_nil _ _

/-- A range is the slice of the text that holds the token. -/
theorem slice?_of_mem_spansFrom {segments : List Segment} (front tail : Text) {token : Token}
    {start stop : Nat} (h : (token, start, stop) ∈ spansFrom (byteLength front) segments) :
    token ∈ segments.map Segment.token ∧
      ∃ before after, front ++ text ⟨segments, tail⟩ = before ++ token.text ++ after ∧
        start = byteLength before ∧ stop = byteLength (before ++ token.text) := by
  induction segments generalizing front with
  | nil => cases h
  | cons seg rest ih =>
    simp only [spansFrom, ← Text.byteLength_append, List.mem_cons] at h
    rcases h with heq | h
    · cases heq
      refine ⟨List.mem_cons_self, front ++ seg.gap, text ⟨rest, tail⟩, ?_, rfl, rfl⟩
      simp [text]
    · obtain ⟨hmem, before, after, htext, hstart, hstop⟩ := ih _ h
      refine ⟨List.mem_cons_of_mem _ hmem, before, after, ?_, hstart, hstop⟩
      rw [← htext]
      simp [text]

/-- No range starts before the first gap. -/
theorem le_of_mem_spansFrom {segments : List Segment} {i : Nat} {token : Token} {start stop : Nat}
    (h : (token, start, stop) ∈ spansFrom i segments) : i ≤ start := by
  induction segments generalizing i with
  | nil => cases h
  | cons seg rest ih =>
    rcases List.mem_cons.1 h with heq | h
    · cases heq
      exact Nat.le_add_right _ _
    · have hle := ih h
      omega

/-- The ranges stand one after the other. -/
theorem pairwise_spansFrom (i : Nat) (segments : List Segment) :
    (spansFrom i segments).Pairwise fun first second => first.2.2 ≤ second.2.1 := by
  induction segments generalizing i with
  | nil => exact List.Pairwise.nil
  | cons seg rest ih =>
    apply List.Pairwise.cons
    · rintro ⟨token, start, stop⟩ hmem
      exact le_of_mem_spansFrom hmem
    · exact ih _

end Segmentation

/-- Scanning a template by byte offsets always ends, and every slice it takes lies between two
characters: it gives the tokens of the segmentation. Their ranges hold at least one byte each, lie
in the template between characters, hold the texts of the tokens and follow one another. -/
theorem ByteScan.scan?_segment (source : Text) :
    scan? source (byteLength source + 1) State.start =
        some (Segmentation.segment source).spans ∧
      (∀ token start stop, (token, start, stop) ∈ (Segmentation.segment source).spans →
        start < stop ∧ stop ≤ byteLength source ∧
          (Text.cut? start source).isSome ∧ (Text.cut? stop source).isSome ∧
            Text.Span.slice? ⟨start, stop⟩ source = some token.text) ∧
      (Segmentation.segment source).spans.Pairwise
        fun first second => first.2.2 ≤ second.2.1 := by
  refine ⟨(agrees_start source).scan? (Nat.lt_succ_self _), ?_,
    Segmentation.pairwise_spansFrom 0 _⟩
  intro token start stop hmem
  obtain ⟨htoken, before, after, htext, rfl, rfl⟩ :=
    Segmentation.slice?_of_mem_spansFrom [] (Segmentation.segment source).tail hmem
  have hsource : source = before ++ token.text ++ after := by
    rw [← htext]
    exact (Segmentation.text_segment source).symm
  have hpos := Text.byteLength_pos (Segmentation.text_ne_nil_of_mem_tokens htoken)
  have hlength := Text.byteLength_append before token.text
  have hlength' := Text.byteLength_append (before ++ token.text) after
  have hstop := cut?_byteLength (before ++ token.text) after
  have hstart := cut?_byteLength before (token.text ++ after)
  rw [← List.append_assoc] at hstart
  rw [hsource]
  exact ⟨by omega, by omega, by rw [hstart]; rfl, by rw [hstop]; rfl, slice?_between _ _ _⟩

/-- A block with a literal in which a backslash stands before a character of two bytes. -/
def escapedLiteral : Text := "@\x7b \"\\é\" \x7d".toList

theorem ByteScan.scan?_segment_escapedLiteral :
    scan? escapedLiteral 11 State.start = some (Segmentation.segment escapedLiteral).spans ∧
      (Segmentation.segment escapedLiteral).spans =
        [(⟨.braceOpen, ['@', '{']⟩, 0, 2), (⟨.braceClose, ['}']⟩, 9, 10)] ∧
      Text.Span.slice? ⟨9, 10⟩ escapedLiteral = some ['}'] := by
  obtain ⟨hscan, hspans, -⟩ := scan?_segment escapedLiteral
  have hrun : scan? escapedLiteral 11 State.start =
      some [(⟨.braceOpen, ['@', '{']⟩, 0, 2), (⟨.braceClose, ['}']⟩, 9, 10)] := by
    decide
  have heq := Option.some.inj (hscan.symm.trans hrun)
  have hmem : (⟨.braceClose, ['}']⟩, 9, 10) ∈ (Segmentation.segment escapedLiteral).spans := by
    rw [heq]
    exact List.mem_cons_of_mem _ List.mem_cons_self
  exact ⟨hscan, heq, (hspans _ _ _ hmem).2.2.2.2⟩

end RazorTidy
