import RazorTidy.Template
import Mathlib.Data.List.TakeWhile

/-!
# Keywords of code tokens

What a piece of code is follows from its keyword alone, without the token it came from. For the
tokens that a template is cut into, the two agree (`Segmentation.ofKeyword_of_mem_tokens`): the
text of a brace is the keyword of a block, that of a directive or continuation the keyword of a
directive, and that of an expression the keyword of an expression.

Every token of a segmentation comes from a place where the rules gave it
(`Segmentation.exists_token?_of_mem_tokens`), so facts about tokens are facts about `Place.token?`.
-/

set_option autoImplicit false

namespace RazorTidy

/-! ## Words and blanks -/

namespace Text

/-- The code points of the blanks, one by one. -/
theorem mem_of_isBlank {c : Char} (h : isBlank c = true) :
    c.toNat ∈ [0x9, 0xA, 0xB, 0xC, 0xD, 0x20, 0x85, 0xA0, 0x1680, 0x2000, 0x2001, 0x2002, 0x2003,
      0x2004, 0x2005, 0x2006, 0x2007, 0x2008, 0x2009, 0x200A, 0x2028, 0x2029, 0x202F, 0x205F,
      0x3000] := by
  simp only [isBlank, blankRanges, Ranges.contains] at h
  generalize c.toNat = n at h ⊢
  simp only [Bool.if_false_left, Bool.if_true_left, Bool.and_eq_true, Bool.not_eq_true',
    decide_eq_false_iff_not, Bool.or_eq_true, decide_eq_true_eq, Bool.or_false] at h
  simp only [List.mem_cons, List.not_mem_nil, or_false]
  omega

/-- No blank belongs to a word. -/
theorem isWordChar_eq_false_of_isBlank {c : Char} (h : isBlank c = true) :
    isWordChar c = false := by
  have hmem := mem_of_isBlank h
  -- the blanks are few enough to look up each of them in the letter and numeral tables
  have hclass : ∀ n ∈ [0x9, 0xA, 0xB, 0xC, 0xD, 0x20, 0x85, 0xA0, 0x1680, 0x2000, 0x2001, 0x2002,
      0x2003, 0x2004, 0x2005, 0x2006, 0x2007, 0x2008, 0x2009, 0x200A, 0x2028, 0x2029, 0x202F,
      0x205F, 0x3000],
      letterRanges.contains n = false ∧ numeralRanges.contains n = false ∧ n ≠ 0x5F := by
    decide +kernel
  obtain ⟨hletter, hnumeral, hline⟩ := hclass _ hmem
  have hne : c ≠ '_' := by
    rintro rfl
    exact hline rfl
  simp [isWordChar, isLetterOrNumeral, isLetter, hletter, hnumeral, hne]

/-- The marks around tags and code do not belong to words. -/
theorem isWordChar_eq_false_of_mark {c : Char} (h : c ∈ ['@', ' ', '\n', '<', '>', '{', '}']) :
    isWordChar c = false := by
  have hall : ['@', ' ', '\n', '<', '>', '{', '}'].all (fun c => !isWordChar c) = true := by
    decide
  simpa using List.all_eq_true.1 hall c h

theorem trimStart_cons {c : Char} (h : isBlank c = false) (s : Text) :
    trimStart (c :: s) = c :: s := by
  simp [trimStart, h]

theorem trimEnd_cons {c : Char} (h : isBlank c = false) (s : Text) :
    trimEnd (c :: s) = c :: trimEnd s := by
  rw [trimEnd, dropEndWhile, List.reverse_cons, List.dropWhile_append]
  split
  · rename_i hempty
    rw [List.isEmpty_iff] at hempty
    simp [trimEnd, dropEndWhile, hempty, h]
  · rw [List.reverse_append]
    rfl

theorem trim_cons {c : Char} (h : isBlank c = false) (s : Text) :
    trim (c :: s) = c :: trimEnd s := by
  rw [trim, trimStart_cons h, trimEnd_cons h]

/-- What `trimEnd` takes off is blank. -/
theorem exists_trimEnd_append (s : Text) :
    ∃ blanks : Text, (∀ c ∈ blanks, isBlank c = true) ∧ s = trimEnd s ++ blanks := by
  refine ⟨takeEndWhile isBlank s, ?_, (dropEndWhile_append isBlank s).symm⟩
  intro c hc
  rw [takeEndWhile, List.mem_reverse] at hc
  exact List.mem_takeWhile_imp hc

/-- Trimming the end of a text keeps its leading word. -/
theorem leadingWord_trimEnd (s : Text) : leadingWord (trimEnd s) = leadingWord s := by
  obtain ⟨blanks, hblanks, hs⟩ := exists_trimEnd_append s
  have hstop : blanks.takeWhile isWordChar = [] := by
    cases blanks with
    | nil => rfl
    | cons c r =>
      rw [List.takeWhile_cons, isWordChar_eq_false_of_isBlank (hblanks c List.mem_cons_self)]
      rfl
  conv => rhs; rw [hs]
  rw [leadingWord, leadingWord, List.takeWhile_append]
  split
  · rename_i hlen
    rw [hstop, List.append_nil]
    exact List.IsPrefix.eq_of_length (List.takeWhile_prefix _) hlen
  · rfl

/-- A run of characters before a text that does not go on with it. -/
theorem takeWhile_append {p : Char → Bool} {s t : Text} (hs : s.all p = true)
    (ht : t.head?.all (fun c => !p c) = true) : (s ++ t).takeWhile p = s := by
  rw [List.takeWhile_append_of_pos fun c hc => List.all_eq_true.1 hs c hc]
  cases t with
  | nil => simp
  | cons c r =>
    have hc : p c = false := by simpa using ht
    rw [List.takeWhile_cons, hc]
    exact List.append_nil s

/-- The leading word of a word before a text that does not go on with it. -/
theorem leadingWord_append {word : Text} (hword : word.all isWordChar = true) {t : Text}
    (ht : t.head?.all (fun c => !isWordChar c) = true) : leadingWord (word ++ t) = word :=
  takeWhile_append hword ht

/-- A text that does not go on with a word does not change the leading word before it. -/
theorem leadingWord_append_stop (s : Text) {t : Text}
    (ht : t.head?.all (fun c => !isWordChar c) = true) :
    leadingWord (s ++ t) = leadingWord s := by
  have hnil : t.takeWhile isWordChar = [] := takeWhile_append (s := []) rfl ht
  rw [leadingWord, leadingWord, List.takeWhile_append]
  split
  · rename_i hall
    rw [hnil, List.append_nil]
    exact ((List.takeWhile_prefix _).eq_of_length hall).symm
  · rfl

theorem leadingWord_take {s : Text} {n : Nat} (h : (leadingWord s).length ≤ n) :
    leadingWord (s.take n) = leadingWord s := by
  rw [leadingWord, ← List.take_takeWhile]
  exact List.take_of_length_le h

end Text

/-! ## Kinds of keywords -/

/-- A word character is neither a blank nor one of the characters that start code. -/
theorem isWordChar_ne {c : Char} (h : Text.isWordChar c = true) :
    Text.isBlank c = false ∧ c ≠ '@' ∧ c ≠ '{' := by
  refine ⟨?_, ?_, ?_⟩
  · by_contra hblank
    rw [Bool.not_eq_false] at hblank
    rw [Text.isWordChar_eq_false_of_isBlank hblank] at h
    cases h
  · rintro rfl
    rw [Text.isWordChar_eq_false_of_mark (by decide)] at h
    cases h
  · rintro rfl
    rw [Text.isWordChar_eq_false_of_mark (by decide)] at h
    cases h

namespace CodeKind

/-- A keyword of an `@` and a word is a directive or an expression, as its word says. -/
theorem ofKeyword_at {s : Text} (h : Text.startsWord s = true) :
    ofKeyword ('@' :: s) =
      if isDirectiveWord (Text.leadingWord s) then .directive else .expression := by
  cases s with
  | nil => simp [Text.startsWord] at h
  | cons c r =>
    obtain ⟨hblank, -, hbrace⟩ := isWordChar_ne (Text.isWordChar_of_isWordStart h)
    have htrim : Text.trim ('@' :: c :: r) = '@' :: c :: Text.trimEnd r := by
      rw [Text.trim_cons (by decide), Text.trimEnd_cons hblank]
    have hword : Text.leadingWord (c :: Text.trimEnd r) = Text.leadingWord (c :: r) := by
      rw [← Text.trimEnd_cons hblank, Text.leadingWord_trimEnd]
    rw [ofKeyword, htrim]
    -- only the first two characters decide the kind
    generalize Text.trimEnd r = r' at hword
    split
    · rename_i heq
      cases heq
    · rename_i heq
      cases heq
      exact absurd rfl hbrace
    · rename_i rest _ heq
      cases heq
      rw [hword]
    · rename_i hat
      exact absurd rfl (hat _)

/-- A keyword that starts with a word is a directive. -/
theorem ofKeyword_word {c : Char} (h : Text.isWordChar c = true) (s : Text) :
    ofKeyword (c :: s) = .directive := by
  obtain ⟨hblank, hat, hbrace⟩ := isWordChar_ne h
  rw [ofKeyword, Text.trim_cons hblank]
  generalize Text.trimEnd s = s'
  split
  · rename_i heq
    cases heq
    exact absurd rfl hbrace
  · rename_i heq
    cases heq
    exact absurd rfl hat
  · rename_i rest _ heq
    cases heq
    exact absurd rfl hat
  · rfl

end CodeKind

/-- The kind of code that a token of this kind is, if it is code with a keyword. -/
def TokenKind.codeKind? : TokenKind → Option CodeKind
  | .braceOpen => some .block
  | .directive => some .directive
  | .continuation => some .directive
  | .expression => some .expression
  | _ => none

/-! ## Tokens at a place -/

/-- A tag is an opening, a closing or a void one. -/
theorem tag?_kind {s : Text} {kind : TokenKind} {n : Nat} (h : tag? s = some (kind, n)) :
    kind = .closeTag ∨ kind = .voidTag ∨ kind = .openTag := by
  unfold tag? at h
  split at h
  · split at h
    · obtain ⟨m, -, hm⟩ := Option.map_eq_some_iff.1 h
      cases hm
      exact Or.inl rfl
    · cases h
  · split at h
    · obtain ⟨m, -, hm⟩ := Option.map_eq_some_iff.1 h
      cases hm
      exact Or.inr (Or.inl rfl)
    · cases h
  · split at h
    · obtain ⟨m, -, hm⟩ := Option.map_eq_some_iff.1 h
      cases hm
      split
      · exact Or.inr (Or.inl rfl)
      · exact Or.inr (Or.inr rfl)
    · cases h
  · cases h

namespace Place

/-- A token at a place is a comment, a tag or code. -/
theorem token?_cases {place : Place} {s : Text} {kind : TokenKind} {n : Nat}
    (h : place.token? s = some (kind, n)) :
    (kind = .comment ∧ comment? s = some n) ∨ RazorTidy.tag? s = some (kind, n) ∨
      place.code? s = some (kind, n) := by
  rw [token?] at h
  cases hcomment : comment? s with
  | some m =>
    rw [hcomment] at h
    cases h
    exact Or.inl ⟨rfl, rfl⟩
  | none =>
    rw [hcomment] at h
    cases htag : place.tag? s with
    | some found =>
      rw [htag] at h
      refine Or.inr (Or.inl ?_)
      rw [tag?] at htag
      split at htag
      · cases htag
      · rw [htag]
        exact h
    | none =>
      rw [htag] at h
      exact Or.inr (Or.inr h)

/-- The text of a code token at a place is a keyword of the token's kind. -/
theorem ofKeyword_of_code? {place : Place} {c : Char} {r : Text} {kind : TokenKind} {n : Nat}
    (h : place.code? (c :: r) = some (kind, n)) {codeKind : CodeKind}
    (hkind : kind.codeKind? = some codeKind) :
    CodeKind.ofKeyword (c :: r.take (n - 1)) = codeKind := by
  unfold code? at h
  split at h
  · rename_i heq
    cases heq
  · rename_i heq
    cases heq
    cases h
    cases hkind
    rfl
  · cases h
    cases hkind
  · rename_i r' heq
    cases heq
    rw [transition?] at h
    split at h
    · cases h
    split at h
    · rename_i hhead
      cases h
      cases hkind
      cases r with
      | nil => cases hhead
      | cons d r' =>
        cases hhead
        rfl
    split at h
    · rename_i hword
      -- both kinds of keywords take the whole word
      have hkeyword : ∀ m, (Text.leadingWord r).length ≤ m →
          CodeKind.ofKeyword ('@' :: r.take m) =
            if isDirectiveWord (Text.leadingWord r) then .directive else .expression := by
        intro m hm
        rw [← Text.leadingWord_take hm]
        apply CodeKind.ofKeyword_at
        cases r with
        | nil => cases hword
        | cons d r' =>
          have hd : Text.isWordChar d = true := Text.isWordChar_of_isWordStart hword
          rw [Text.leadingWord, List.takeWhile_cons, hd] at hm
          cases m with
          | zero => simp at hm
          | succ m => exact hword
      dsimp only at h
      split at h
      · rename_i hdirective
        cases h
        cases hkind
        rw [hkeyword _ (by omega), if_pos hdirective]
      · rename_i hdirective
        cases h
        cases hkind
        rw [hkeyword _ (by omega), if_neg hdirective]
    · cases h
  · rw [continuation?] at h
    dsimp only at h
    split at h
    · rename_i hword
      cases h
      cases hkind
      -- the leading word is empty otherwise, and the empty word is no continuation
      apply CodeKind.ofKeyword_word
      by_contra hc
      rw [Text.leadingWord, List.takeWhile_cons, if_neg hc] at hword
      revert hword
      cases place.afterBrace <;> decide
    · cases h

end Place

/-! ## Tokens of a segmentation -/

namespace Segmentation

theorem tokens_consText (piece : Text) (s : Segmentation) :
    (consText piece s).tokens = s.tokens := by
  rcases s with ⟨_ | ⟨first, rest⟩, tail⟩ <;> rfl

theorem tokens_consToken (token : Token) (s : Segmentation) :
    (consToken token s).tokens = token :: s.tokens := rfl

/-- Every token of a segmentation is one that the rules gave at some place. -/
theorem exists_token?_of_mem_tokens {place : Place} {s : Text} {token : Token}
    (h : token ∈ (segmentFrom place s).tokens) :
    ∃ (place' : Place) (c : Char) (r : Text) (n : Nat),
      place'.token? (c :: r) = some (token.kind, n) ∧ token.text = c :: r.take (n - 1) := by
  fun_induction segmentFrom place s with
  | case1 place => cases h
  | case2 place c r kind n htoken first rest raw next ih =>
    rw [tokens_consToken, tokens_consText, List.mem_cons] at h
    rcases h with rfl | h
    · exact ⟨place, c, r, n, htoken, rfl⟩
    · exact ih h
  | case3 place c r hnone piece ih =>
    rw [tokens_consText] at h
    exact ih h

/-- The text of a code token is a keyword of the token's kind. -/
theorem ofKeyword_of_mem_tokens {place : Place} {s : Text} {token : Token}
    (h : token ∈ (segmentFrom place s).tokens) {codeKind : CodeKind}
    (hkind : token.kind.codeKind? = some codeKind) :
    CodeKind.ofKeyword token.text = codeKind := by
  obtain ⟨place', c, r, n, htoken, htext⟩ := exists_token?_of_mem_tokens h
  rw [htext]
  rcases Place.token?_cases htoken with ⟨hcomment, -⟩ | htag | hcode
  · rw [hcomment] at hkind
    cases hkind
  · rcases tag?_kind htag with hk | hk | hk <;> rw [hk] at hkind <;> cases hkind
  · exact Place.ofKeyword_of_code? hcode hkind

end Segmentation

end RazorTidy
