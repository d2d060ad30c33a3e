import RazorTidy.Proofs.Lookahead

/-!
# Tokens in front of a slash

A slash that is put in front of a `>` changes no token, no piece of text and no raw text that ends
up to there (`Place.token?_slash`, `Place.textLength_slash`, `rawTextLength_slash`). The last
character in front of the slash must not make a comment or a closing tag of it.

Comments are only followed where they end up to there: a `-->` whose last character is the `>` is
none any more.
-/

set_option autoImplicit false

namespace RazorTidy

/-! ## Comments and tags -/

/-- A pattern at the start of a text ends up to a place in it or goes past the character there. -/
theorem isPrefix_append_cons {pattern u t : Text} {c : Char} (h : pattern <+: u ++ c :: t) :
    pattern <+: u ∨ ∃ back, pattern = u ++ c :: back := by
  rcases Nat.lt_or_ge u.length pattern.length with hlt | hle
  · obtain ⟨rest, rfl⟩ := List.prefix_of_prefix_length_le (List.prefix_append u _) h hlt.le
    rw [List.prefix_append_right_inj] at h
    cases rest with
    | nil => simp at hlt
    | cons d back =>
      obtain ⟨rfl, -⟩ := List.cons_prefix_cons.1 h
      exact Or.inr ⟨back, rfl⟩
  · exact Or.inl (List.prefix_of_prefix_length_le h (List.prefix_append u _) hle)

theorem isPrefix_mark_iff {pattern : Text} {c : Char} (hc : c ∉ pattern) (u t : Text) :
    pattern <+: u ++ c :: t ↔ pattern <+: u := by
  constructor
  · intro h
    rcases isPrefix_append_cons h with h | ⟨back, rfl⟩
    · exact h
    · simp at hc
  · exact fun h => h.trans (List.prefix_append u _)

/-- An occurrence that ends up to the slash stays where it is, and none comes into being. -/
theorem indexOf?_slash {pattern u : Text} (w : Text)
    (hslash : ∀ front back, pattern = front ++ '/' :: back → ¬ front <:+ u)
    (hfits : ∀ n, Text.indexOf? pattern (u ++ '>' :: w) = some n →
      n + pattern.length ≤ u.length) :
    Text.indexOf? pattern (u ++ '/' :: '>' :: w) = Text.indexOf? pattern (u ++ '>' :: w) := by
  have hshort : pattern <+: u ++ '/' :: '>' :: w → pattern <+: u := by
    intro h
    rcases isPrefix_append_cons h with h | ⟨back, heq⟩
    · exact h
    · exact absurd (List.suffix_refl u) (hslash u back heq)
  induction u with
  | nil =>
    rw [List.nil_append, List.nil_append, Text.indexOf?]
    split
    · rename_i hprefix
      rw [List.prefix_nil.1 (hshort (List.isPrefixOf_iff_prefix.1 hprefix))]
      rfl
    · rename_i hprefix
      cases hfound : Text.indexOf? pattern ('>' :: w) with
      | none => rfl
      | some n =>
        -- it would have to be empty to end there
        have hn := hfits n hfound
        rw [List.length_nil] at hn
        rw [List.length_eq_zero_iff.1 (show pattern.length = 0 by omega)] at hprefix
        exact absurd rfl hprefix
  | cons c u ih =>
    have hu : ∀ front back, pattern = front ++ '/' :: back → ¬ front <:+ u :=
      fun front back heq hsuffix => hslash front back heq (hsuffix.trans (List.suffix_cons c u))
    rw [List.cons_append] at hshort
    rw [List.cons_append, List.cons_append, Text.indexOf?, Text.indexOf?]
    by_cases hfirst : pattern <+: c :: (u ++ '>' :: w)
    · have hzero := hfits 0 (by
        rw [List.cons_append, Text.indexOf?, if_pos (List.isPrefixOf_iff_prefix.2 hfirst)])
      have hin : pattern <+: c :: u :=
        List.prefix_of_prefix_length_le hfirst (List.prefix_append (c :: u) _) (by omega)
      have hsecond : pattern <+: c :: (u ++ '/' :: '>' :: w) :=
        hin.trans (List.prefix_append (c :: u) _)
      rw [if_pos (List.isPrefixOf_iff_prefix.2 hfirst),
        if_pos (List.isPrefixOf_iff_prefix.2 hsecond)]
    · have hsecond : ¬ pattern <+: c :: (u ++ '/' :: '>' :: w) := fun h =>
        hfirst ((hshort h).trans (List.prefix_append (c :: u) _))
      rw [if_neg (by rwa [List.isPrefixOf_iff_prefix]),
        if_neg (by rwa [List.isPrefixOf_iff_prefix]), ih hu]
      · intro n hn
        have hnext := hfits (n + 1) (by
          rw [List.cons_append, Text.indexOf?, if_neg (by rwa [List.isPrefixOf_iff_prefix]), hn]
          rfl)
        simp only [List.length_cons] at hnext
        omega
      · intro h
        rcases isPrefix_append_cons h with h | ⟨back, heq⟩
        · exact h
        · exact absurd (List.suffix_refl u) (hu u back heq)

theorem comment?_eq_none {s : Text} (hmarkup : ¬ ['<', '!', '-', '-'] <+: s)
    (htemplate : ¬ ['@', '*'] <+: s) : comment? s = none := by
  unfold comment?
  split
  · rename_i r
    exact absurd ⟨r, rfl⟩ hmarkup
  · rename_i r
    exact absurd ⟨r, rfl⟩ htemplate
  · rfl

theorem comment?_slash (u w : Text)
    (hfits : ∀ n, comment? (u ++ '>' :: w) = some n → n ≤ u.length) :
    comment? (u ++ '/' :: '>' :: w) = comment? (u ++ '>' :: w) := by
  by_cases hmarkup : ['<', '!', '-', '-'] <+: u
  · obtain ⟨r, rfl⟩ := hmarkup
    have hend : Text.indexOf? ['-', '-', '>'] (r ++ '/' :: '>' :: w) =
        Text.indexOf? ['-', '-', '>'] (r ++ '>' :: w) := by
      apply indexOf?_slash
      · intro front back heq
        have hmem : '/' ∈ ['-', '-', '>'] := by simp [heq]
        exact absurd hmem (by decide)
      · intro n hn
        have hlength := hfits (n + 7) (by simp [comment?, hn])
        simp at hlength ⊢
        omega
    simp [comment?, hend]
  · by_cases htemplate : ['@', '*'] <+: u
    · obtain ⟨r, rfl⟩ := htemplate
      have hend : Text.indexOf? ['*', '@'] (r ++ '/' :: '>' :: w) =
          Text.indexOf? ['*', '@'] (r ++ '>' :: w) := by
        apply indexOf?_slash
        · intro front back heq
          have hmem : '/' ∈ ['*', '@'] := by simp [heq]
          exact absurd hmem (by decide)
        · intro n hn
          have hlength := hfits (n + 4) (by simp [comment?, hn])
          simp at hlength ⊢
          omega
      simp [comment?, hend]
    · rw [comment?_eq_none, comment?_eq_none]
      · rwa [isPrefix_mark_iff (by decide)]
      · rwa [isPrefix_mark_iff (by decide)]
      · rwa [isPrefix_mark_iff (by decide)]
      · rwa [isPrefix_mark_iff (by decide)]

theorem codeComment?_eq_none {a b : Char} (h : ¬ (a = '/' ∧ (b = '/' ∨ b = '*'))) (r : Text) :
    codeComment? (a :: b :: r) = none := by
  unfold codeComment?
  split
  · rename_i heq
    cases heq
    exact absurd ⟨rfl, Or.inl rfl⟩ h
  · rename_i heq
    cases heq
    exact absurd ⟨rfl, Or.inr rfl⟩ h
  · rfl

theorem codeComment?_slash {u : Text} (hne : u ≠ []) (hslash : u.getLast? ≠ some '/')
    (hstar : u.getLast? ≠ some '*') (w : Text)
    (hfits : ∀ n, codeComment? (u ++ '>' :: w) = some n → n ≤ u.length) :
    codeComment? (u ++ '/' :: '>' :: w) = codeComment? (u ++ '>' :: w) := by
  rcases u with _ | ⟨a, _ | ⟨b, r⟩⟩
  · exact absurd rfl hne
  · have ha : a ≠ '/' := by simpa using hslash
    rw [List.cons_append, List.cons_append, List.nil_append, List.nil_append,
      codeComment?_eq_none (by simp [ha]), codeComment?_eq_none (by simp [ha])]
  · rw [List.cons_append, List.cons_append, List.cons_append, List.cons_append] at *
    by_cases hopens : a = '/' ∧ (b = '/' ∨ b = '*')
    · obtain ⟨rfl, rfl | rfl⟩ := hopens
      · have hline := hfits _ rfl
        rcases takeLine_slash r w with ⟨⟨t, ht⟩, -⟩ | ⟨-, heq⟩
        · simp only [ht, List.length_append, List.length_cons] at hline
          omega
        · rw [codeComment?, codeComment?, heq]
      · have hend : Text.indexOf? ['*', '/'] (r ++ '/' :: '>' :: w) =
            Text.indexOf? ['*', '/'] (r ++ '>' :: w) := by
          apply indexOf?_slash
          · rintro front back heq ⟨t, rfl⟩
            rcases front with _ | ⟨c, _ | ⟨d, front⟩⟩
            · cases heq
            · cases heq
              exact hstar (List.getLast?_concat (l := '/' :: '*' :: t))
            · simp at heq
          · intro n hn
            have hlength := hfits (n + 4) (by simp [codeComment?, hn])
            simp at hlength ⊢
            omega
        simp [codeComment?, hend]
    · rw [codeComment?_eq_none hopens, codeComment?_eq_none hopens]

theorem tagRest?_slash {quote? : Option Char} (hquote : quote?.all isQuote = true) (u w : Text) :
    tagRest? quote? (u ++ '/' :: '>' :: w) =
      (tagRest? quote? (u ++ '>' :: w)).map (shift u.length) := by
  induction u generalizing quote? with
  | nil =>
    cases quote? with
    | none => rfl
    | some q =>
      obtain ⟨hslash, hend⟩ := isQuote_ne hquote
      simp [tagRest?, hslash.symm, hend.symm, Function.comp_def]
  | cons c u ih =>
    rw [List.cons_append, List.cons_append, List.length_cons]
    cases quote? with
    | none =>
      rw [tagRest?, tagRest?]
      split
      · simp
      · split
        · rfl
        · rw [ih (by split <;> simp [*])]
          simp [Function.comp_def]
    | some q =>
      rw [tagRest?, tagRest?, ih (by split <;> simp_all)]
      simp [Function.comp_def]

theorem declarationRest?_slash (u w : Text) :
    declarationRest? (u ++ '/' :: '>' :: w) =
      (declarationRest? (u ++ '>' :: w)).map (shift u.length) := by
  induction u with
  | nil => rfl
  | cons c u ih =>
    rw [List.cons_append, List.cons_append, List.length_cons, declarationRest?, declarationRest?,
      ih]
    split
    · simp
    · split
      · rfl
      · simp [Function.comp_def]

theorem tag?_of_ne {c : Char} (h : c ≠ '<') (r : Text) : tag? (c :: r) = none := by
  unfold tag?
  split
  · rename_i heq
    exact absurd (List.cons.inj heq).1 h
  · rename_i heq
    exact absurd (List.cons.inj heq).1 h
  · rename_i heq
    exact absurd (List.cons.inj heq).1 h
  · rfl

theorem tag?_of_mark {c : Char} (hslash : c ≠ '/') (hbang : c ≠ '!')
    (hletter : Text.isAsciiLetter c = false) (r : Text) : tag? ('<' :: c :: r) = none := by
  rw [tag?, if_neg (by simp [hletter])]
  · intro d u heq
    exact absurd heq hslash
  · intro d u heq
    exact absurd heq hbang

/-- A tag that ends up to the slash stays as it is. -/
theorem tag?_slash (u w : Text)
    (hfits : ∀ kind n, tag? (u ++ '>' :: w) = some (kind, n) → n ≤ u.length) :
    tag? (u ++ '/' :: '>' :: w) = tag? (u ++ '>' :: w) := by
  rcases u with _ | ⟨a, u⟩
  · rfl
  by_cases ha : a = '<'
  · subst ha
    rcases u with _ | ⟨b, u⟩
    · rfl
    rw [List.cons_append, List.cons_append, List.cons_append, List.cons_append] at *
    by_cases hslash : b = '/'
    · -- a closing tag
      subst hslash
      rcases u with _ | ⟨c, u⟩
      · rfl
      rw [List.cons_append, List.cons_append] at *
      rw [tag?] at hfits
      rw [tag?, tag?]
      split
      · rename_i hletter
        rw [if_pos hletter] at hfits
        rw [tagRest?_slash rfl, map_shift_of_le]
        intro n hn
        have hle := hfits .closeTag (n + 3) (by rw [hn]; rfl)
        simp only [List.length_cons] at hle
        omega
      · rfl
    by_cases hbang : b = '!'
    · -- a declaration
      subst hbang
      rcases u with _ | ⟨c, u⟩
      · rfl
      rw [List.cons_append, List.cons_append] at *
      rw [tag?] at hfits
      rw [tag?, tag?]
      split
      · rename_i hletter
        rw [if_pos hletter] at hfits
        rw [declarationRest?_slash, map_shift_of_le]
        intro n hn
        have hle := hfits .voidTag (n + 3) (by rw [hn]; rfl)
        simp only [List.length_cons] at hle
        omega
      · rfl
    · by_cases hletter : Text.isAsciiLetter b = true
      · rw [tag?_of_letter hletter] at hfits
        rw [tag?_of_letter hletter, tag?_of_letter hletter, tagRest?_slash rfl]
        cases hrest : tagRest? none (u ++ '>' :: w) with
        | none => rfl
        | some n =>
          have hle : n ≤ u.length := by
            have hlength := hfits _ (n + 2) (by rw [hrest]; rfl)
            simp only [List.length_cons] at hlength
            omega
          -- the same characters decide whether it closes itself
          rw [Option.map_some, Option.map_some, shift_of_le hle, Option.map_some,
            List.take_append_of_le_length (by omega), List.take_append_of_le_length (by omega)]
      · rw [Bool.not_eq_true] at hletter
        rw [tag?_of_mark hslash hbang hletter, tag?_of_mark hslash hbang hletter]
  · rw [List.cons_append, List.cons_append, tag?_of_ne ha, tag?_of_ne ha]

/-! ## Places -/

namespace Place

theorem tag?_slash (place : Place) (u w : Text)
    (hfits : ∀ kind n, place.tag? (u ++ '>' :: w) = some (kind, n) → n ≤ u.length) :
    place.tag? (u ++ '/' :: '>' :: w) = place.tag? (u ++ '>' :: w) := by
  rw [tag?] at hfits ⊢
  rw [tag?]
  split
  · rfl
  · rename_i hplace
    rw [if_neg hplace] at hfits
    exact RazorTidy.tag?_slash u w hfits

theorem getLast?_drop_ne {u : Text} {c : Char} (h : u.getLast? ≠ some c) (n : Nat) :
    (u.drop n).getLast? ≠ some c := by
  rw [List.getLast?_drop]
  split
  · simp
  · exact h

theorem transition?_slash (place : Place) {u : Text} (hlast : u.getLast? ≠ some '<') (w : Text)
    (hfits : ∀ kind n, place.transition? (u ++ '>' :: w) = some (kind, n) → n ≤ u.length + 1) :
    place.transition? (u ++ '/' :: '>' :: w) = place.transition? (u ++ '>' :: w) := by
  have hhead : (u ++ '/' :: '>' :: w).head? = some '{' ↔ (u ++ '>' :: w).head? = some '{' := by
    cases u <;> simp
  have hword := length_leadingWord_le u w
  have hlast' := getLast?_drop_ne hlast (Text.leadingWord (u ++ '>' :: w)).length
  unfold transition? at hfits ⊢
  simp only [hhead, startsWord_slash, leadingWord_slash]
  split
  · rfl
  rename_i hfollows
  split
  · rfl
  rename_i hbrace
  split
  · rename_i hstart
    rw [if_neg hfollows, if_neg hbrace, if_pos hstart] at hfits
    dsimp only at hfits
    rw [List.drop_append_of_le_length hword] at hfits
    rw [List.drop_append_of_le_length hword, List.drop_append_of_le_length hword]
    split
    · rename_i hdirective
      rw [if_pos hdirective] at hfits
      have hle := hfits _ _ rfl
      rw [header_slash hlast' w (by rw [List.length_drop]; omega)]
    · rename_i hdirective
      rw [if_neg hdirective] at hfits
      have hle := hfits _ _ rfl
      rw [expressionRest_slash, shift_of_le (by rw [List.length_drop]; omega)]
  · rfl

theorem continuation?_slash (place : Place) {u : Text} (hlast : u.getLast? ≠ some '<') (w : Text)
    (hfits : ∀ kind n, place.continuation? (u ++ '>' :: w) = some (kind, n) → n ≤ u.length) :
    place.continuation? (u ++ '/' :: '>' :: w) = place.continuation? (u ++ '>' :: w) := by
  have hword := length_leadingWord_le u w
  have hlast' := getLast?_drop_ne hlast (Text.leadingWord (u ++ '>' :: w)).length
  unfold continuation? at hfits ⊢
  simp only [leadingWord_slash]
  split
  · rename_i hcontinues
    rw [if_pos hcontinues] at hfits
    dsimp only at hfits
    rw [List.drop_append_of_le_length hword] at hfits
    rw [List.drop_append_of_le_length hword, List.drop_append_of_le_length hword]
    have hle := hfits _ _ rfl
    rw [continuationHeader_slash _ hlast' w (by rw [List.length_drop]; omega)]
  · rfl

theorem getLast?_tail_ne {u : Text} {a c : Char} (h : (a :: u).getLast? ≠ some c) :
    u.getLast? ≠ some c := getLast?_drop_ne h 1

theorem code?_slash (place : Place) {u : Text} (hne : u ≠ []) (hlast : u.getLast? ≠ some '<')
    (w : Text)
    (hfits : ∀ kind n, place.code? (u ++ '>' :: w) = some (kind, n) → n ≤ u.length) :
    place.code? (u ++ '/' :: '>' :: w) = place.code? (u ++ '>' :: w) := by
  rcases u with _ | ⟨c, u⟩
  · exact absurd rfl hne
  by_cases hopen : c = '{'
  · subst hopen
    rfl
  by_cases hclose : c = '}'
  · subst hclose
    rfl
  by_cases hat : c = '@'
  · subst hat
    exact place.transition?_slash (getLast?_tail_ne hlast) w hfits
  · have hcode : ∀ r, place.code? (c :: r) = place.continuation? (c :: r) := by
      intro r
      simp [code?, hat, hopen, hclose]
    rw [List.cons_append, hcode, ← List.cons_append] at hfits
    rw [List.cons_append, List.cons_append, hcode, hcode]
    exact place.continuation?_slash hlast w hfits

/-- A token that ends up to the slash stays as it is, and none comes into being. -/
theorem token?_slash (place : Place) {u : Text} (hne : u ≠ []) (hlast : u.getLast? ≠ some '<')
    (w : Text)
    (hfits : ∀ kind n, place.token? (u ++ '>' :: w) = some (kind, n) → n ≤ u.length) :
    place.token? (u ++ '/' :: '>' :: w) = place.token? (u ++ '>' :: w) := by
  rw [token?] at hfits ⊢
  rw [token?]
  cases hcomment : comment? (u ++ '>' :: w) with
  | some n =>
    rw [hcomment] at hfits
    have hle := hfits .comment n rfl
    rw [comment?_slash u w (by rintro m hm; rw [hcomment] at hm; cases hm; exact hle), hcomment]
    rfl
  | none =>
    rw [hcomment] at hfits
    rw [comment?_slash u w (by simp [hcomment]), hcomment]
    cases htag : place.tag? (u ++ '>' :: w) with
    | some found =>
      rw [htag] at hfits
      rw [place.tag?_slash u w (by rintro kind n h; rw [htag] at h; cases h; exact hfits _ _ rfl),
        htag]
      rfl
    | none =>
      rw [htag] at hfits
      rw [place.tag?_slash u w (by simp [htag]), htag]
      exact place.code?_slash hne hlast w hfits

/-- The length of a piece of text that is neither an escaped `@` nor an explicit expression. -/
theorem textLength_eq (place : Place) {c : Char} {r : Text}
    (h : c = '@' → r.head? ≠ some '@' ∧ r.head? ≠ some '(') :
    place.textLength (c :: r) =
      if Mode.inCode place.modes then (codeComment? (c :: r)).getD (hiddenAfter c r + 1)
      else 1 := by
  unfold textLength
  split
  · rename_i heq
    cases heq
    exact absurd rfl (h rfl).1
  · rename_i heq
    cases heq
    exact absurd rfl (h rfl).2
  · rename_i heq
    cases heq
    rfl
  · rename_i heq
    cases heq

/-- A piece of text that ends up to the slash stays as it is. -/
theorem textLength_slash (place : Place) {u : Text} (hne : u ≠ []) (hslash : u.getLast? ≠ some '/')
    (hstar : u.getLast? ≠ some '*') (w : Text)
    (hfits : place.textLength (u ++ '>' :: w) ≤ u.length) :
    place.textLength (u ++ '/' :: '>' :: w) = place.textLength (u ++ '>' :: w) := by
  rcases u with _ | ⟨c, u⟩
  · exact absurd rfl hne
  by_cases hexplicit : c = '@' ∧ u.head? = some '('
  · obtain ⟨rfl, hround⟩ := hexplicit
    obtain ⟨r, rfl⟩ : ∃ r, u = '(' :: r := List.head?_eq_some_iff.1 hround
    have hgroup := bracketGroup?_slash ('(' :: r) w
    simp only [List.cons_append, textLength] at hfits hgroup ⊢
    rw [hgroup, map_shift_of_le]
    intro n hn
    rw [hn] at hfits
    exact Nat.le_of_succ_le_succ hfits
  by_cases hescaped : c = '@' ∧ u.head? = some '@'
  · obtain ⟨rfl, hat⟩ := hescaped
    obtain ⟨r, rfl⟩ : ∃ r, u = '@' :: r := List.head?_eq_some_iff.1 hat
    rfl
  · have hplain : ∀ {d : Char}, d ≠ '@' → d ≠ '(' → ∀ t, c = '@' →
        (u ++ d :: t).head? ≠ some '@' ∧ (u ++ d :: t).head? ≠ some '(' := by
      rintro d hat hround t rfl
      cases u with
      | nil => simp [hat, hround]
      | cons e u => exact ⟨fun h => hescaped ⟨rfl, h⟩, fun h => hexplicit ⟨rfl, h⟩⟩
    have hcomment := codeComment?_slash hne hslash hstar w
    rw [List.cons_append] at hfits
    rw [List.cons_append, List.cons_append] at *
    rw [textLength_eq place (hplain (by decide) (by decide) _)] at hfits
    rw [textLength_eq place (hplain (by decide) (by decide) _),
      textLength_eq place (hplain (by decide) (by decide) _)]
    split
    · rename_i hcode
      rw [if_pos hcode] at hfits
      cases hfound : codeComment? (c :: (u ++ '>' :: w)) with
      | some n =>
        rw [hfound] at hfits
        rw [hcomment (by rintro m hm; rw [hfound] at hm; cases hm; exact hfits), hfound]
        rfl
      | none =>
        rw [hfound] at hfits
        rw [hcomment (by simp [hfound]), hfound, hiddenAfter_slash,
          shift_of_le (Nat.le_of_succ_le_succ hfits)]
    · rfl

end Place

/-! ## Raw text -/

/-- Only a capital changes when it is made small. -/
theorem eq_of_toLower_eq {c d : Char} (hd : d.toNat < 97) (h : c.toLower = d) : c = d := by
  rcases Text.toLower_cases c with ⟨hge, -, hlower⟩ | hsame
  · rw [h] at hlower
    omega
  · exact hsame.symm.trans h

theorem lower_append_cons (u : Text) (c : Char) (t : Text) :
    Text.lower (u ++ c :: t) = Text.lower u ++ c.toLower :: Text.lower t := by
  rw [Text.lower, List.map_append]
  rfl

theorem mem_lower_tagName_ne {tag : Text} {c : Char} (h : c ∈ Text.lower (tagName tag)) :
    c ≠ '/' ∧ c ≠ '>' := by
  obtain ⟨d, hd, rfl⟩ := List.mem_map.1 h
  have hchar := List.mem_takeWhile_imp hd
  simp only [Bool.and_eq_true, bne_iff_ne] at hchar
  exact ⟨fun heq => hchar.1.2 (eq_of_toLower_eq (by decide) heq),
    fun heq => hchar.2 (eq_of_toLower_eq (by decide) heq)⟩

/-- Raw text that ends up to the slash stays as it is. -/
theorem rawTextLength_slash (token : Token) {u : Text} (hlast : u.getLast? ≠ some '<') (w : Text)
    (hfits : rawTextLength token (u ++ '>' :: w) ≤ u.length) :
    rawTextLength token (u ++ '/' :: '>' :: w) = rawTextLength token (u ++ '>' :: w) := by
  unfold rawTextLength at hfits ⊢
  dsimp only at hfits ⊢
  split
  · rename_i hraw
    rw [if_pos hraw, lower_append_cons] at hfits
    rw [lower_append_cons, lower_append_cons]
    change (Text.indexOf? _ (Text.lower u ++ '/' :: '>' :: Text.lower w)).getD _ =
      (Text.indexOf? _ (Text.lower u ++ '>' :: Text.lower w)).getD _
    change (Text.indexOf? _ (Text.lower u ++ '>' :: Text.lower w)).getD _ ≤ _ at hfits
    cases hfound : Text.indexOf? ('<' :: '/' :: Text.lower (tagName token.text))
        (Text.lower u ++ '>' :: Text.lower w) with
    | none =>
      -- without a closing tag it goes on to the end
      rw [hfound, Option.getD_none, List.length_append, List.length_cons] at hfits
      omega
    | some n =>
      rw [hfound] at hfits
      have hn : n ≤ (Text.lower u).length := by rwa [Text.length_lower]
      rw [indexOf?_slash, hfound]
      · rfl
      · rintro front back heq ⟨t, ht⟩
        rcases front with _ | ⟨c, _ | ⟨d, front⟩⟩
        · cases heq
        · cases heq
          -- the closing tag would start in front of the slash
          have hend : (Text.lower u).getLast? = some '<' := by rw [← ht, List.getLast?_concat]
          rw [Text.lower, List.getLast?_map, Option.map_eq_some_iff] at hend
          obtain ⟨d, hd, hlower⟩ := hend
          rw [eq_of_toLower_eq (by decide) hlower] at hd
          exact hlast hd
        · have hmem : '/' ∈ Text.lower (tagName token.text) := by
            simp only [List.cons_append, List.cons.injEq] at heq
            rw [heq.2.2]
            simp
          exact (mem_lower_tagName_ne hmem).1 rfl
      · intro m hm
        rw [hfound] at hm
        cases hm
        have hprefix := ByteScan.drop_indexOf? hfound
        rw [List.drop_append_of_le_length hn, isPrefix_mark_iff] at hprefix
        · have hle := hprefix.length_le
          rw [List.length_drop] at hle
          omega
        · simp only [List.mem_cons, not_or]
          exact ⟨by decide, by decide, fun hmem => (mem_lower_tagName_ne hmem).2 rfl⟩
  · rfl

end RazorTidy
