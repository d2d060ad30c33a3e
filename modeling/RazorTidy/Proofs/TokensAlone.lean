import RazorTidy.Proofs.HeaderPlaces
import RazorTidy.Proofs.RawText
import RazorTidy.Proofs.TagPattern

/-!
# Tokens on their own

The text of a token, taken out of its template, is cut into this one token again
(`Segmentation.segment_token_text`). A continuation needs the closing brace in front of it. Each rule
looks no further than the end of what it finds, so the text behind the token is not missed: this is
said for each rule in the form that what it finds at the start of a text, it finds in the characters
that it takes.

A header whose brackets stay open is the exception. It takes its first line only, and so it may cut a
literal that goes on over an escaped line end. What the literal hid is then no longer hidden.
-/

set_option autoImplicit false

namespace RazorTidy

/-! ## Words, brackets and expressions -/

section Alone

variable {u t : Text}

theorem leadingWord_alone (h : (Text.leadingWord (u ++ t)).length ≤ u.length) :
    Text.leadingWord u = Text.leadingWord (u ++ t) := by
  have htake := Text.leadingWord_take h
  rwa [List.take_left] at htake

theorem length_leadingWord_pos {s : Text} (h : Text.startsWord s = true) :
    0 < (Text.leadingWord s).length := by
  cases s with
  | nil => cases h
  | cons c r =>
    rw [Text.leadingWord, List.takeWhile_cons, Text.isWordChar_of_isWordStart h]
    exact Nat.succ_pos _

theorem startsWord_alone (hne : u ≠ []) : Text.startsWord u = Text.startsWord (u ++ t) := by
  cases u with
  | nil => exact absurd rfl hne
  | cons c u => rfl

/-- A bracket closes behind the literals in front of it. -/
theorem hidden_lt_of_balanced? {opening closing : Char} {hidden depth n : Nat} {s : Text}
    (h : balanced? opening closing hidden depth s = some n) : hidden < n := by
  induction s generalizing hidden depth n with
  | nil => cases hidden <;> cases h
  | cons c r ih =>
    cases hidden with
    | zero => exact (ByteScan.balanced?_bounds h).1
    | succ hidden =>
      obtain ⟨m, hm, rfl⟩ := Option.map_eq_some_iff.1 h
      exact Nat.succ_lt_succ (ih hm)

theorem balanced?_alone {opening closing : Char} {hidden depth n : Nat}
    (h : balanced? opening closing hidden depth (u ++ t) = some n) (hn : n ≤ u.length) :
    balanced? opening closing hidden depth u = some n := by
  induction u generalizing hidden depth n with
  | nil => exact absurd (ByteScan.balanced?_bounds h).1 (Nat.not_lt.2 hn)
  | cons c u ih =>
    -- all steps but the last go on behind one character
    have hstep : ∀ {hidden depth : Nat},
        (balanced? opening closing hidden depth (u ++ t)).map (· + 1) = some n →
          (balanced? opening closing hidden depth u).map (· + 1) = some n := by
      intro hidden depth h
      obtain ⟨m, hm, rfl⟩ := Option.map_eq_some_iff.1 h
      rw [ih hm (Nat.le_of_succ_le_succ hn)]
      rfl
    cases hidden with
    | succ hidden => exact hstep h
    | zero =>
      rw [List.cons_append, balanced?] at h
      rw [balanced?]
      split
      · rename_i hopening
        rw [if_pos hopening] at h
        exact hstep h
      · rename_i hopening
        rw [if_neg hopening] at h
        split
        · rename_i hclosing
          rw [if_pos hclosing] at h
          split
          · rename_i hdepth
            rw [if_pos hdepth] at h
            exact h
          · rename_i hdepth
            rw [if_neg hdepth] at h
            exact hstep h
        · rename_i hclosing
          rw [if_neg hclosing] at h
          have hliteral : hiddenAfter c u = hiddenAfter c (u ++ t) := by
            obtain ⟨m, hm, rfl⟩ := Option.map_eq_some_iff.1 h
            exact hiddenAfter_of_le
              ((hidden_lt_of_balanced? hm).le.trans (Nat.le_of_succ_le_succ hn))
          rw [hliteral]
          exact hstep h

theorem bracketGroup?_alone {n : Nat} (h : bracketGroup? (u ++ t) = some n) (hn : n ≤ u.length) :
    bracketGroup? u = some n := by
  cases u with
  | nil => exact absurd (ByteScan.bracketGroup?_bounds h).1 (Nat.not_lt.2 hn)
  | cons c u =>
    have hgroup : ∀ {opening closing : Char},
        (balanced? opening closing 0 1 (u ++ t)).map (· + 1) = some n →
          (balanced? opening closing 0 1 u).map (· + 1) = some n := by
      intro opening closing h
      obtain ⟨m, hm, rfl⟩ := Option.map_eq_some_iff.1 h
      rw [balanced?_alone hm (Nat.le_of_succ_le_succ hn)]
      rfl
    by_cases hround : c = '('
    · subst hround
      exact hgroup h
    · by_cases hsquare : c = '['
      · subst hsquare
        exact hgroup h
      · rw [List.cons_append, bracketGroup?_of_ne hround hsquare] at h
        cases h

theorem chainLength_le (inside : Nat) (s : Text) : chainLength inside s ≤ s.length := by
  induction s generalizing inside with
  | nil => cases inside <;> exact Nat.le_refl 0
  | cons c r ih =>
    cases inside with
    | succ inside => exact Nat.succ_le_succ (ih inside)
    | zero =>
      rw [chainLength]
      split
      · split
        · exact Nat.succ_le_succ (ih _)
        · exact Nat.zero_le _
      · split
        · exact Nat.succ_le_succ (ih _)
        · exact Nat.zero_le _

theorem inside_le_chainLength {inside : Nat} {s : Text} (h : inside ≤ s.length) :
    inside ≤ chainLength inside s := by
  rw [ByteScan.chainLength_inside h]
  exact Nat.le_add_right _ _

/-- A chain is the chain of itself. -/
theorem chainLength_alone {inside : Nat} (h : chainLength inside (u ++ t) = u.length) :
    chainLength inside u = u.length := by
  induction u generalizing inside with
  | nil => cases inside <;> rfl
  | cons c u ih =>
    cases inside with
    | succ inside =>
      rw [chainLength, ih (Nat.succ.inj h), List.length_cons]
    | zero =>
      rw [List.cons_append, chainLength] at h
      rw [chainLength]
      split
      · rename_i hdot
        rw [if_pos hdot] at h
        split at h
        · rename_i hstart
          have hchain := Nat.succ.inj h
          have hlength : (Text.leadingWord (u ++ t)).length ≤ u.length := by
            rw [← hchain]
            exact inside_le_chainLength (List.takeWhile_prefix _).length_le
          have hne : u ≠ [] := by
            rintro rfl
            exact absurd (length_leadingWord_pos hstart) (Nat.not_lt.2 hlength)
          rw [← startsWord_alone hne] at hstart
          rw [if_pos hstart, leadingWord_alone hlength, ih hchain, List.length_cons]
        · cases h
      · rename_i hdot
        rw [if_neg hdot] at h
        cases hgroup : bracketGroup? (c :: (u ++ t)) with
        | none =>
          rw [hgroup] at h
          cases h
        | some n =>
          rw [hgroup] at h
          have hchain := Nat.succ.inj h
          obtain ⟨hpos, hle⟩ := ByteScan.bracketGroup?_bounds hgroup
          rw [List.length_cons] at hle
          have hinside : n - 1 ≤ u.length := by
            rw [← hchain]
            exact inside_le_chainLength (by omega)
          rw [bracketGroup?_alone hgroup (by rw [List.length_cons]; omega)]
          exact congrArg (· + 1) (ih hchain)

/-- An operand that ends in a text is seen without what comes after the text. -/
theorem operandLength_alone (h : operandLength (u ++ t) ≤ u.length) :
    operandLength u = operandLength (u ++ t) := by
  unfold operandLength at h ⊢
  dsimp only at h ⊢
  rw [List.takeWhile_append] at h ⊢
  generalize hgap : (u.takeWhile fun c => c == ' ' || c == '\t') = gap at h ⊢
  have hprefix : gap <+: u := hgap ▸ List.takeWhile_prefix _
  by_cases hall : gap.length = u.length
  · -- the gap goes up to the end, and an operand would stand behind it
    rw [if_pos hall] at h ⊢
    rw [hall, List.drop_length, Text.startsWord, Bool.not_false, Bool.or_true, if_pos rfl]
    split at h
    · rename_i hnone
      rw [if_pos hnone]
    · rename_i hsome
      rw [Bool.or_eq_true, not_or, Bool.not_eq_true', Bool.not_eq_false] at hsome
      have hpos := length_leadingWord_pos hsome.2
      rw [List.length_append] at h hpos
      omega
  · rw [if_neg hall] at h ⊢
    have hlt : gap.length < u.length := Nat.lt_of_le_of_ne hprefix.length_le hall
    have hne : u.drop gap.length ≠ [] := by simpa using hlt
    rw [List.drop_append_of_le_length hlt.le] at h ⊢
    rw [startsWord_alone hne]
    split at h
    · rename_i hnone
      rw [if_pos hnone, if_pos hnone]
    · rename_i hsome
      rw [if_neg hsome, if_neg hsome, leadingWord_alone]
      rw [List.length_drop]
      omega

theorem expressionRest_le (isAwait : Bool) (s : Text) : expressionRest isAwait s ≤ s.length := by
  rw [expressionRest]
  have hchain := fun n => chainLength_le 0 (s.drop n)
  have hoperand := operandLength_le s
  simp only [List.length_drop] at hchain
  split
  · have := hchain (operandLength s)
    omega
  · have := hchain 0
    omega

/-- What an expression takes after its word, it takes without the text behind it. -/
theorem expressionRest_alone {isAwait : Bool} (h : expressionRest isAwait (u ++ t) = u.length) :
    expressionRest isAwait u = u.length := by
  unfold expressionRest at h ⊢
  dsimp only at h ⊢
  have hoperand : (if isAwait then operandLength u else 0) =
      if isAwait then operandLength (u ++ t) else 0 := by
    split
    · rename_i hawait
      rw [if_pos hawait] at h
      apply operandLength_alone
      omega
    · rfl
  rw [hoperand]
  generalize (if isAwait then operandLength (u ++ t) else 0) = n at h ⊢
  rw [List.drop_append_of_le_length (by omega)] at h
  have hchain : chainLength 0 (u.drop n) = (u.drop n).length := by
    apply @chainLength_alone _ t
    rw [List.length_drop]
    omega
  rw [hchain, List.length_drop]
  omega

theorem expressionRest_take (isAwait : Bool) (s : Text) :
    expressionRest isAwait (s.take (expressionRest isAwait s)) = expressionRest isAwait s := by
  have hlength := List.length_take_of_le (expressionRest_le isAwait s)
  conv => rhs; rw [← hlength]
  apply @expressionRest_alone _ (s.drop (expressionRest isAwait s))
  rw [List.take_append_drop, hlength]

end Alone

/-! ## Comments and tags -/

/-- A comment is found in the characters that it takes. -/
theorem comment?_take {s : Text} {n : Nat} (h : comment? s = some n) :
    comment? (s.take n) = some n ∧ n ≤ s.length := by
  unfold comment? at h
  split at h
  · rename_i r
    obtain ⟨m, hm, rfl⟩ := Option.map_eq_some_iff.1 h
    obtain ⟨htake, hle⟩ := Text.indexOf?_take hm []
    rw [List.append_nil] at htake
    refine ⟨?_, Nat.add_le_add_right hle 4⟩
    show (Text.indexOf? ['-', '-', '>'] (r.take (m + 3))).map (· + 7) = some (m + 7)
    rw [show r.take (m + 3) = r.take (m + ['-', '-', '>'].length) from rfl, htake]
    rfl
  · rename_i r
    obtain ⟨m, hm, rfl⟩ := Option.map_eq_some_iff.1 h
    obtain ⟨htake, hle⟩ := Text.indexOf?_take hm []
    rw [List.append_nil] at htake
    refine ⟨?_, Nat.add_le_add_right hle 2⟩
    show (Text.indexOf? ['*', '@'] (r.take (m + 2))).map (· + 4) = some (m + 4)
    rw [show r.take (m + 2) = r.take (m + ['*', '@'].length) from rfl, htake]
    rfl
  · cases h

/-- A tag is found in the characters that it takes. -/
theorem tag?_take {s : Text} {kind : TokenKind} {n : Nat} (h : tag? s = some (kind, n)) :
    tag? (s.take n) = some (kind, n) ∧ n ≤ s.length := by
  obtain ⟨inner, rest, rfl, hinner⟩ := exists_tagInner h
  rw [tag?_of_tagInner hinner] at h
  cases h
  have htake : ('<' :: (inner ++ '>' :: rest)).take (inner.length + 2) =
      '<' :: (inner ++ '>' :: []) := by
    rw [List.take_succ_cons, List.take_length_add_append]
    rfl
  rw [htake, tag?_of_tagInner hinner]
  exact ⟨rfl, by simp⟩

theorem comment?_of_tag? {s : Text} {found : TokenKind × Nat} (h : tag? s = some found) :
    comment? s = none := by
  apply comment?_eq_none
  · rintro ⟨r, rfl⟩
    rw [List.cons_append, List.cons_append, List.cons_append, tag?, if_neg (by decide)] at h
    cases h
  · rintro ⟨r, rfl⟩
    rw [List.cons_append, tag?_of_ne (by decide)] at h
    cases h

/-! ## Directives, expressions and continuations -/

/-- Whether a token in front of the text `after` has taken the rest of its line because its brackets
stay open. A continuation that stops in front of markup or with its semicolon has not. -/
def Token.leftOpen (token : Token) (after : Text) : Bool :=
  let spelled := Text.stripFirst '@' token.text
  let word := Text.leadingWord spelled
  let rest := spelled.drop word.length ++ after
  match token.kind with
  | .directive => (headerStop? 0 0 rest).isNone
  | .continuation =>
    (headerStop? 0 0 rest).isNone &&
      (continuationStop? (Text.sameName word "while".toList) (header rest).length 0 0 rest).isNone
  | _ => false

section Words

variable {r : Text} {m : Nat}

/-- The word at the start of a text and `m` characters behind it. -/
theorem take_word (r : Text) (m : Nat) :
    Text.leadingWord (r.take ((Text.leadingWord r).length + m)) = Text.leadingWord r ∧
      (r.take ((Text.leadingWord r).length + m)).drop (Text.leadingWord r).length =
        (r.drop (Text.leadingWord r).length).take m := by
  refine ⟨Text.leadingWord_take (Nat.le_add_right _ m), ?_⟩
  rw [List.drop_take, Nat.add_sub_cancel_left]

theorem drop_word (r : Text) (m : Nat) :
    (r.drop (Text.leadingWord r).length).take m ++ r.drop ((Text.leadingWord r).length + m) =
      r.drop (Text.leadingWord r).length := by
  rw [← List.drop_drop, List.take_append_drop]

theorem startsWord_take (hstart : Text.startsWord r = true) :
    Text.startsWord (r.take ((Text.leadingWord r).length + m)) = true := by
  have hpos := length_leadingWord_pos hstart
  obtain ⟨k, hk⟩ : ∃ k, (Text.leadingWord r).length + m = k + 1 :=
    ⟨(Text.leadingWord r).length + m - 1, by omega⟩
  rw [hk]
  cases r with
  | nil => cases hstart
  | cons c r => exact hstart

theorem Token.leftOpen_directive (r : Text) (m : Nat) :
    (⟨.directive, '@' :: r.take ((Text.leadingWord r).length + m)⟩ : Token).leftOpen
        (r.drop ((Text.leadingWord r).length + m)) =
      (headerStop? 0 0 (r.drop (Text.leadingWord r).length)).isNone := by
  obtain ⟨hleading, hrest⟩ := take_word r m
  rw [Token.leftOpen, Text.stripFirst, if_pos rfl]
  dsimp only
  rw [hleading, hrest, drop_word]

theorem Token.leftOpen_continuation {s : Text} (hat : s.head? ≠ some '@') (m : Nat) :
    (⟨.continuation, s.take ((Text.leadingWord s).length + m)⟩ : Token).leftOpen
        (s.drop ((Text.leadingWord s).length + m)) =
      ((headerStop? 0 0 (s.drop (Text.leadingWord s).length)).isNone &&
        (continuationStop? (Text.sameName (Text.leadingWord s) "while".toList)
          (header (s.drop (Text.leadingWord s).length)).length 0 0
          (s.drop (Text.leadingWord s).length)).isNone) := by
  obtain ⟨hleading, hrest⟩ := take_word s m
  have hspelled : Text.stripFirst '@' (s.take ((Text.leadingWord s).length + m)) =
      s.take ((Text.leadingWord s).length + m) := by
    rcases hs : s.take ((Text.leadingWord s).length + m) with _ | ⟨c, r⟩
    · rfl
    · rw [Text.stripFirst, if_neg]
      rintro rfl
      apply hat
      obtain ⟨t, ht⟩ := List.take_prefix ((Text.leadingWord s).length + m) s
      rw [← ht, hs]
      rfl
  rw [Token.leftOpen, hspelled]
  dsimp only
  rw [hleading, hrest, drop_word]

end Words

namespace Place

variable {place place' : Place}

theorem head?_of_startsWord {r : Text} (h : Text.startsWord r = true) :
    r.head? ≠ some '{' ∧ r.head? ≠ some '*' := by
  have hmarks : Text.isWordStart '{' = false ∧ Text.isWordStart '*' = false := by decide
  cases r with
  | nil => cases h
  | cons c r =>
    change Text.isWordStart c = true at h
    constructor
    · rintro ⟨⟩
      rw [hmarks.1] at h
      cases h
    · rintro ⟨⟩
      rw [hmarks.2] at h
      cases h

/-- The token of an `@` with a directive word or an identifier. -/
theorem transition?_word {r : Text} (hfollows : place.follows Text.isLetterOrNumeral = false)
    (hstart : Text.startsWord r = true) :
    place.transition? r =
      if isDirectiveWord (Text.leadingWord r) then
        some (.directive, 1 + (Text.leadingWord r).length +
          (header (r.drop (Text.leadingWord r).length)).length)
      else
        some (.expression, 1 + (Text.leadingWord r).length +
          expressionRest (Text.leadingWord r == "await".toList)
            (r.drop (Text.leadingWord r).length)) := by
  rw [transition?, if_neg (by simp [hfollows]), if_neg (head?_of_startsWord hstart).1,
    if_pos hstart]

/-- The token of an `@` with a word and `m` characters behind the word. -/
theorem transition?_take_word {r : Text} {m : Nat}
    (hfollows : place.follows Text.isLetterOrNumeral = false) (hstart : Text.startsWord r = true) :
    place.transition? (r.take ((Text.leadingWord r).length + m)) =
      if isDirectiveWord (Text.leadingWord r) then
        some (.directive, 1 + (Text.leadingWord r).length +
          (header ((r.drop (Text.leadingWord r).length).take m)).length)
      else
        some (.expression, 1 + (Text.leadingWord r).length +
          expressionRest (Text.leadingWord r == "await".toList)
            ((r.drop (Text.leadingWord r).length).take m)) := by
  obtain ⟨hleading, hrest⟩ := take_word r m
  rw [transition?_word hfollows (startsWord_take hstart), hleading, hrest]

/-- A block, directive or expression behind an `@` is found in the characters that it takes. -/
theorem transition?_take {r : Text} {kind : TokenKind} {n : Nat}
    (h : place.transition? r = some (kind, n))
    (hfollows : place'.follows Text.isLetterOrNumeral = false)
    (hclosed : (⟨kind, ('@' :: r).take n⟩ : Token).leftOpen (('@' :: r).drop n) = false) :
    ∃ m, n = m + 1 ∧ place'.transition? (r.take m) = some (kind, n) ∧ m ≤ r.length := by
  have hplace : place.follows Text.isLetterOrNumeral = false := by
    by_contra hword
    rw [transition?, if_pos (by simpa using hword)] at h
    cases h
  by_cases hblock : r.head? = some '{'
  · rw [transition?, if_neg (by simp [hplace]), if_pos hblock] at h
    cases h
    cases r with
    | nil => cases hblock
    | cons c r =>
      cases hblock
      refine ⟨1, rfl, ?_, by simp⟩
      rw [transition?, if_neg (by simp [hfollows])]
      exact if_pos rfl
  by_cases hstart : Text.startsWord r = true
  · have hword : (Text.leadingWord r).length ≤ r.length := (List.takeWhile_prefix _).length_le
    rw [transition?_word hplace hstart] at h
    -- either way the token is the word and what is taken behind it
    split at h
    · rename_i hdirective
      cases h
      have hprefix := header_isPrefix (r.drop (Text.leadingWord r).length)
      have hlength := hprefix.length_le
      rw [List.length_drop] at hlength
      rw [Nat.add_assoc, Nat.add_comm 1] at hclosed
      have hstop : headerStop? 0 0 (r.drop (Text.leadingWord r).length) ≠ none := by
        intro hnone
        rw [List.take_succ_cons, List.drop_succ_cons, Token.leftOpen_directive, hnone] at hclosed
        cases hclosed
      refine ⟨(Text.leadingWord r).length +
        (header (r.drop (Text.leadingWord r).length)).length, by omega, ?_, by omega⟩
      rw [transition?_take_word hfollows hstart, if_pos hdirective,
        ← List.prefix_iff_eq_take.1 hprefix, header_header hstop]
    · rename_i hexpression
      cases h
      have hle := expressionRest_le (Text.leadingWord r == "await".toList)
        (r.drop (Text.leadingWord r).length)
      rw [List.length_drop] at hle
      refine ⟨(Text.leadingWord r).length + expressionRest (Text.leadingWord r == "await".toList)
        (r.drop (Text.leadingWord r).length), by omega, ?_, by omega⟩
      rw [transition?_take_word hfollows hstart, if_neg hexpression, expressionRest_take]
  · rw [transition?, if_neg (by simp [hplace]), if_neg hblock, if_neg hstart] at h
    cases h

theorem not_mark_of_isWordChar {c : Char} (h : Text.isWordChar c = true) :
    c ∉ ['<', '@', '{', '}'] := by
  have hmarks : ['<', '@', '{', '}'] ⊆ ['@', ' ', '\n', '<', '>', '{', '}'] := by decide
  intro hmem
  have hc := Text.isWordChar_eq_false_of_mark (hmarks hmem)
  rw [h] at hc
  cases hc

/-- A continuation starts with its word. -/
theorem exists_cons_of_continuation? {s : Text} {found : TokenKind × Nat}
    (h : place.continuation? s = some found) :
    ∃ c r, s = c :: r ∧ Text.isWordChar c = true := by
  rw [continuation?] at h
  dsimp only at h
  split at h
  · rename_i hword
    rw [Bool.and_eq_true] at hword
    cases s with
    | nil => exact absurd hword.2 (by decide)
    | cons c r =>
      refine ⟨c, r, rfl, ?_⟩
      by_contra hc
      rw [Text.leadingWord, List.takeWhile_cons_of_neg hc] at hword
      exact absurd hword.2 (by decide)
  · cases h

/-- A continuation is found in the characters that it takes. -/
theorem continuation?_take {s : Text} {kind : TokenKind} {n : Nat}
    (h : place.continuation? s = some (kind, n))
    (hbrace : kind = .continuation → place'.afterBrace = true)
    (hclosed : (⟨kind, s.take n⟩ : Token).leftOpen (s.drop n) = false) :
    place'.continuation? (s.take n) = some (kind, n) ∧ n ≤ s.length := by
  obtain ⟨c, r, hs, hc⟩ := exists_cons_of_continuation? h
  have hat : s.head? ≠ some '@' := by
    rw [hs]
    rintro ⟨⟩
    exact (isWordChar_ne hc).2.1 rfl
  rw [continuation?] at h
  dsimp only at h
  split at h
  · rename_i hword
    rw [Bool.and_eq_true] at hword
    cases h
    have hlength : (Text.leadingWord s).length ≤ s.length := (List.takeWhile_prefix _).length_le
    rw [Token.leftOpen_continuation hat, Bool.and_eq_false_iff] at hclosed
    generalize hloop : Text.sameName (Text.leadingWord s) "while".toList = isLoopTail at hclosed ⊢
    have hprefix := ByteScan.continuationHeader_isPrefix isLoopTail
      (s.drop (Text.leadingWord s).length)
    have halone : continuationHeader isLoopTail
        (continuationHeader isLoopTail (s.drop (Text.leadingWord s).length)) =
          continuationHeader isLoopTail (s.drop (Text.leadingWord s).length) := by
      apply continuationHeader_alone
      simpa only [Option.isNone_eq_false_iff, Option.isSome_iff_ne_none] using hclosed
    have hle := hprefix.length_le
    rw [List.length_drop] at hle
    refine ⟨?_, by omega⟩
    obtain ⟨hleading, hrest⟩ := take_word s
      (continuationHeader isLoopTail (s.drop (Text.leadingWord s).length)).length
    rw [continuation?]
    dsimp only
    rw [hleading, hrest, ← List.prefix_iff_eq_take.1 hprefix, hloop, halone, hbrace rfl, hword.2]
    rfl
  · cases h

theorem token?_of_transition? {r : Text} {found : TokenKind × Nat}
    (h : place.transition? r = some found) : place.token? ('@' :: r) = some found := by
  have hstar : ¬ ['@', '*'] <+: '@' :: r := by
    rintro ⟨t, ht⟩
    cases ht
    rw [transition?] at h
    split at h
    · cases h
    · rw [if_neg (by simp), if_neg fun hstart => (head?_of_startsWord hstart).2 rfl] at h
      cases h
  have hcomment : comment? ('@' :: r) = none := by
    apply comment?_eq_none _ hstar
    rintro ⟨t, ht⟩
    cases ht
  have htag : place.tag? ('@' :: r) = none := by
    rw [Place.tag?, tag?_of_ne (by decide), ite_self]
  rw [token?, hcomment, htag, ← h]
  rfl

/-- A token is found in the characters that it takes, at a place outside of code that follows no
word. -/
theorem token?_take {s : Text} {kind : TokenKind} {n : Nat}
    (h : place.token? s = some (kind, n)) (hcode : Mode.inCode place'.modes = false)
    (hfollows : place'.follows Text.isLetterOrNumeral = false)
    (hbrace : kind = .continuation → place'.afterBrace = true)
    (hclosed : (⟨kind, s.take n⟩ : Token).leftOpen (s.drop n) = false) :
    place'.token? (s.take n) = some (kind, n) ∧ n ≤ s.length := by
  rcases token?_cases h with ⟨rfl, hcomment⟩ | htag | hcode'
  · obtain ⟨hcomment', hle⟩ := comment?_take hcomment
    rw [token?, hcomment']
    exact ⟨rfl, hle⟩
  · obtain ⟨htag', hle⟩ := tag?_take htag
    exact ⟨token?_tag (comment?_of_tag? htag') htag' (by rw [hcode, Bool.false_and]), hle⟩
  · unfold code? at hcode'
    split at hcode'
    · cases hcode'
    · cases hcode'
      exact ⟨token?_braceOpen place' [], Nat.succ_pos _⟩
    · cases hcode'
      exact ⟨token?_braceClose place' [], Nat.succ_pos _⟩
    · obtain ⟨m, rfl, htransition, hle⟩ := transition?_take hcode' hfollows hclosed
      exact ⟨token?_of_transition? htransition, Nat.succ_le_succ hle⟩
    · obtain ⟨hcontinuation, hle⟩ := continuation?_take hcode' hbrace hclosed
      refine ⟨?_, hle⟩
      obtain ⟨k, rfl⟩ : ∃ k, n = k + 1 := ⟨n - 1, by have := token?_pos h; omega⟩
      obtain ⟨c, r, hs, hc⟩ := exists_cons_of_continuation? hcode'
      rw [hs, List.take_succ_cons] at hcontinuation ⊢
      rw [token?_of_ne (not_mark_of_isWordChar hc), hcontinuation]

end Place

/-! ## The text of a token -/

namespace Segmentation

/-- A text that is one token at a place is cut into this token. -/
theorem segmentFrom_alone {place : Place} {token : Token} (hne : token.text ≠ [])
    (h : place.token? token.text = some (token.kind, token.text.length)) :
    segmentFrom place token.text = ⟨[⟨[], token⟩], []⟩ := by
  have hraw : rawTextLength token [] = 0 := by
    rw [rawTextLength]
    split <;> rfl
  have hcut := @segmentFrom_token place token.kind token.text [] hne
    (by rw [List.append_nil]; exact h) hraw
  rw [List.append_nil, segmentFrom] at hcut
  exact hcut

/-- Every token of a template, taken on its own, is cut into itself, and a continuation behind a
closing brace into the brace and itself. The exception are headers whose brackets stay open. -/
theorem segment_token_text {s : Text} {front back : Segmentation} {token : Token}
    (hcut : segment s = join front token back) (hclosed : token.leftOpen back.text = false) :
    if token.kind = .continuation then
      segment ('}' :: token.text) = ⟨[⟨[], ⟨.braceClose, ['}']⟩⟩, ⟨[], token⟩], []⟩
    else segment token.text = ⟨[⟨[], token⟩], []⟩ := by
  obtain ⟨place, n, -, htoken, htext, -⟩ :=
    exists_place_of_eq_join Place.start s front back token hcut
  have hafter : (token.text ++ back.text).drop n = back.text := by
    have hsplit := List.take_append_drop n (token.text ++ back.text)
    rw [htext] at hsplit
    exact List.append_cancel_left hsplit
  have halone : ∀ place' : Place, Mode.inCode place'.modes = false →
      place'.follows Text.isWordChar = false →
      (token.kind = .continuation → place'.afterBrace = true) →
        segmentFrom place' token.text = ⟨[⟨[], token⟩], []⟩ := by
    intro place' hcode hword hbrace
    have hfollows := Place.follows_isLetterOrNumeral hword
    obtain ⟨htoken', hle⟩ := Place.token?_take htoken hcode hfollows hbrace
      (by rw [htext, hafter]; exact hclosed)
    have hlength : token.text.length = n := by
      rw [← htext]
      exact List.length_take_of_le hle
    apply segmentFrom_alone
    · have hpos := Place.token?_pos htoken
      rw [← List.length_pos_iff, hlength]
      exact hpos
    · rw [hlength, ← htoken', htext]
  split
  · -- the brace leaves no mode, and what follows it may be a continuation
    have hbrace := @segmentFrom_token Place.start .braceClose ['}'] token.text
      (List.cons_ne_nil _ _) (token?_braceClose Place.start _) rfl
    have hword : Text.isWordChar '}' = false := Text.isWordChar_eq_false_of_mark (by decide)
    have hrest := halone (Place.start.passToken ⟨.braceClose, ['}']⟩) rfl hword fun _ => rfl
    rw [segment, ← List.singleton_append, hbrace, hrest]
    rfl
  · rename_i hkind
    exact halone Place.start rfl rfl fun h => absurd h hkind

/-- A condition over two lines with a bracket in a literal, and a continuation in front of markup. -/
theorem segment_token_text_ifElse :
    let source : Text := "@if (a[\")\"]\n  && b) \x7b \x7d else if (c) <p>".toList
    let directive : Token := ⟨.directive, "@if (a[\")\"]\n  && b)".toList⟩
    let continuation : Token := ⟨.continuation, "else if (c)".toList⟩
    let braces : List Segment :=
      [⟨[' '], ⟨.braceOpen, ['{']⟩⟩, ⟨[' '], ⟨.braceClose, ['}']⟩⟩]
    let back : Segmentation := ⟨[⟨[' '], ⟨.openTag, "<p>".toList⟩⟩], []⟩
    segment source =
        ⟨⟨[], directive⟩ :: (braces ++ ⟨[' '], continuation⟩ :: back.segments), []⟩ ∧
      segment directive.text = ⟨[⟨[], directive⟩], []⟩ ∧
      segment ('}' :: continuation.text) =
        ⟨[⟨[], ⟨.braceClose, ['}']⟩⟩, ⟨[], continuation⟩], []⟩ := by
  intro source directive continuation braces back
  have hcut : segment source =
      ⟨⟨[], directive⟩ :: (braces ++ ⟨[' '], continuation⟩ :: back.segments), []⟩ := by
    with_unfolding_all rfl
  have hdirective := @segment_token_text source ⟨[], []⟩
    ⟨braces ++ ⟨[' '], continuation⟩ :: back.segments, []⟩ directive hcut (by decide)
  have hcontinuation := @segment_token_text source ⟨⟨[], directive⟩ :: braces, [' ']⟩ back
    continuation hcut (by decide)
  exact ⟨hcut, hdirective, hcontinuation⟩

-- a brace in a literal over two lines, in a header with an open bracket behind the literal
example :
    let token : Token := ⟨.directive, "@if \"\x7b\\".toList⟩
    (segment "@if \"\x7b\\\n\" (".toList).tokens = [token] ∧ token.leftOpen "\n\" (".toList = true ∧
      (segment token.text).tokens = [⟨.directive, "@if \"".toList⟩, ⟨.braceOpen, ['{']⟩] := by
  decide +kernel

end Segmentation

end RazorTidy
