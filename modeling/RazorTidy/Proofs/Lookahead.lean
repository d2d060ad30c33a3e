import RazorTidy.Proofs.Spans

/-!
# A slash further on

The rules at a place look ahead: a quote looks for its partner, a bracket for the one that closes
it, a comment for its end. Here is what they say when a slash is put in front of a `>` somewhere
ahead, that is for the text `u ++ '/' :: '>' :: w` in place of `u ++ '>' :: w`.

What ends up to there stays as it is, and what ends further on is one character longer (`shift`).
Headers are only followed where they end up to there. The last character of `u` must not make a
closing tag of the slash.
-/

set_option autoImplicit false

namespace RazorTidy

/-- The length of a part after one character is put behind the first `k` ones. -/
def shift (k n : Nat) : Nat := if n ≤ k then n else n + 1

theorem shift_of_le {k n : Nat} (h : n ≤ k) : shift k n = n := if_pos h

theorem shift_of_lt {k n : Nat} (h : k < n) : shift k n = n + 1 := if_neg (by omega)

@[simp] theorem shift_zero (k : Nat) : shift k 0 = 0 := if_pos (Nat.zero_le k)

@[simp] theorem shift_zero_succ (n : Nat) : shift 0 (n + 1) = n + 2 := rfl

@[simp] theorem shift_succ_succ (k n : Nat) : shift (k + 1) (n + 1) = shift k n + 1 := by
  unfold shift
  split <;> split <;> omega

theorem map_shift_of_le {k : Nat} {found : Option Nat} (h : ∀ n, found = some n → n ≤ k) :
    found.map (shift k) = found := by
  cases found with
  | none => rfl
  | some n => rw [Option.map_some, shift_of_le (h n rfl)]

/-! ## Literals and brackets -/

theorem isQuote_ne {c : Char} (h : isQuote c = true) : c ≠ '/' ∧ c ≠ '>' := by
  simp only [isQuote, Bool.or_eq_true, beq_iff_eq] at h
  rcases h with rfl | rfl <;> decide

theorem literalRest?_slash {q : Char} (hq : isQuote q = true) (u w : Text) :
    literalRest? q (u ++ '/' :: '>' :: w) =
      (literalRest? q (u ++ '>' :: w)).map (shift u.length) := by
  obtain ⟨hslash, hend⟩ := isQuote_ne hq
  have hslash' : ∀ r, literalRest? q ('/' :: r) = (literalRest? q r).map (· + 1) :=
    fun r => literalRest?_of_ne hslash.symm (by decide) (by decide) r
  have hend' : ∀ r, literalRest? q ('>' :: r) = (literalRest? q r).map (· + 1) :=
    fun r => literalRest?_of_ne hend.symm (by decide) (by decide) r
  fun_induction literalRest? q u with
  | case1 =>
    simp [hslash', hend', Function.comp_def]
  | case2 =>
    simp [literalRest?, hend', Function.comp_def]
  | case3 c r ih =>
    simp [literalRest?, ih, Function.comp_def]
  | case4 r => simp [literalRest?]
  | case5 r hescape hline =>
    rw [List.cons_append, List.cons_append, literalRest?_close hq, literalRest?_close hq]
    simp
  | case6 c r hlast hescape hline hc ih =>
    have hne : c ≠ '\\' := by
      rintro rfl
      cases r with
      | nil => exact hlast rfl rfl
      | cons d r' => exact hescape d r' rfl rfl
    rw [List.cons_append, List.cons_append, literalRest?_of_ne hc hne hline,
      literalRest?_of_ne hc hne hline, ih]
    simp [Function.comp_def]

theorem hiddenAfter_slash (c : Char) (u w : Text) :
    hiddenAfter c (u ++ '/' :: '>' :: w) = shift u.length (hiddenAfter c (u ++ '>' :: w)) := by
  unfold hiddenAfter
  split
  · rename_i hquote
    rw [literalRest?_slash hquote]
    cases literalRest? c (u ++ '>' :: w) <;> simp
  · simp

theorem balanced?_slash (opening closing : Char) (hopening : opening ≠ '/' ∧ opening ≠ '>')
    (hclosing : closing ≠ '/' ∧ closing ≠ '>') (u w : Text) (hidden depth : Nat) :
    balanced? opening closing (shift u.length hidden) depth (u ++ '/' :: '>' :: w) =
      (balanced? opening closing hidden depth (u ++ '>' :: w)).map (shift u.length) := by
  induction u generalizing hidden depth with
  | nil =>
    cases hidden with
    | zero =>
      simp [balanced?, hopening.1.symm, hopening.2.symm, hclosing.1.symm, hclosing.2.symm,
        hiddenAfter, isQuote, Function.comp_def]
    | succ hidden => simp [balanced?, Function.comp_def]
  | cons c u ih =>
    rw [List.cons_append, List.cons_append, List.length_cons]
    cases hidden with
    | zero =>
      have hstep : ∀ depth', balanced? opening closing 0 depth' (u ++ '/' :: '>' :: w) =
          (balanced? opening closing 0 depth' (u ++ '>' :: w)).map (shift u.length) := by
        intro depth'
        rw [← ih, shift_zero]
      rw [shift_zero, balanced?, balanced?, hstep, hstep, hiddenAfter_slash, ih]
      split
      · simp [Function.comp_def]
      · split
        · split
          · simp
          · simp [Function.comp_def]
        · simp [Function.comp_def]
    | succ hidden =>
      rw [shift_succ_succ, balanced?, balanced?, ih]
      simp [Function.comp_def]

theorem bracketGroup?_slash (u w : Text) :
    bracketGroup? (u ++ '/' :: '>' :: w) =
      (bracketGroup? (u ++ '>' :: w)).map (shift u.length) := by
  cases u with
  | nil => rfl
  | cons c u =>
    rw [List.cons_append, List.cons_append, List.length_cons]
    by_cases hround : c = '('
    · subst hround
      have hgroup := balanced?_slash '(' ')' (by decide) (by decide) u w 0 1
      rw [shift_zero] at hgroup
      simp [bracketGroup?, hgroup, Function.comp_def]
    · by_cases hsquare : c = '['
      · subst hsquare
        have hgroup := balanced?_slash '[' ']' (by decide) (by decide) u w 0 1
        rw [shift_zero] at hgroup
        simp [bracketGroup?, hgroup, Function.comp_def]
      · rw [bracketGroup?_of_ne hround hsquare, bracketGroup?_of_ne hround hsquare]
        rfl

/-! ## Headers -/

theorem endsHeader_slash {c : Char} {u : Text} (hlast : (c :: u).getLast? ≠ some '<') (w : Text) :
    endsHeader c (u ++ '/' :: '>' :: w) = endsHeader c (u ++ '>' :: w) := by
  cases u with
  | nil =>
    have hc : (c == '<') = false := by simpa using hlast
    simp [endsHeader, hc]
  | cons d u => rfl

theorem headerStop?_slash {u : Text} (hlast : u.getLast? ≠ some '<') (w : Text)
    (hidden depth : Nat) :
    headerStop? (shift u.length hidden) depth (u ++ '/' :: '>' :: w) =
      (headerStop? hidden depth (u ++ '>' :: w)).map (shift u.length) := by
  induction u generalizing hidden depth with
  | nil =>
    cases hidden with
    | zero =>
      simp [headerStop?, endsHeader, bracketDepth, hiddenAfter, isQuote, Function.comp_def]
    | succ hidden => simp [headerStop?, Function.comp_def]
  | cons c u ih =>
    have hu : u.getLast? ≠ some '<' := by
      intro heq
      apply hlast
      rw [List.getLast?_cons, heq]
      rfl
    rw [List.cons_append, List.cons_append, List.length_cons]
    cases hidden with
    | zero =>
      rw [shift_zero, headerStop?, headerStop?, endsHeader_slash hlast, hiddenAfter_slash, ih hu]
      split
      · simp
      · simp [Function.comp_def]
    | succ hidden =>
      rw [shift_succ_succ, headerStop?, headerStop?, ih hu]
      simp [Function.comp_def]

/-- A visible character stays with what stands before it. -/
theorem lt_length_dropEndWhile {p : Char → Bool} {c : Char} (hc : p c = false) (u t : Text) :
    u.length < (Text.dropEndWhile p (u ++ c :: t)).length := by
  have hsplit : (u ++ c :: t).reverse = t.reverse ++ c :: u.reverse := by simp
  rw [Text.dropEndWhile, List.length_reverse, hsplit, List.dropWhile_append]
  split
  · rw [List.dropWhile_cons_of_neg (by simp [hc])]
    simp
  · simp only [List.length_append, List.length_cons, List.length_reverse]
    omega

/-- The part of a text that a header is cut from, with the blanks at its end. -/
def headerPart (s : Text) : Text :=
  match headerStop? 0 0 s with
  | some n => s.take n
  | none => s.takeWhile (· != '\n')

theorem header_eq (s : Text) : header s = Text.dropEndWhile Text.isAsciiBlank (headerPart s) := rfl

/-- The first line goes past the slash, or it ends up to there and is the same. -/
theorem takeLine_slash (u w : Text) :
    (∃ t, (u ++ '>' :: w).takeWhile (· != '\n') = u ++ '>' :: t) ∧
        (∃ t, (u ++ '/' :: '>' :: w).takeWhile (· != '\n') = u ++ '/' :: t) ∨
      ((u ++ '>' :: w).takeWhile (· != '\n')).length ≤ u.length ∧
        (u ++ '/' :: '>' :: w).takeWhile (· != '\n') = (u ++ '>' :: w).takeWhile (· != '\n') := by
  by_cases hline : '\n' ∈ u
  · right
    have hlt : (u.takeWhile (· != '\n')).length ≠ u.length := by
      intro hlength
      have hall := (List.takeWhile_prefix (· != '\n')).eq_of_length hlength
      rw [List.takeWhile_eq_self_iff] at hall
      simpa using hall '\n' hline
    rw [List.takeWhile_append, if_neg hlt, List.takeWhile_append, if_neg hlt]
    exact ⟨(List.takeWhile_prefix _).length_le, rfl⟩
  · left
    have hall : ∀ c ∈ u, (c != '\n') = true := by
      intro c hc
      rw [bne_iff_ne]
      rintro rfl
      exact hline hc
    rw [List.takeWhile_append_of_pos hall, List.takeWhile_append_of_pos hall]
    exact ⟨⟨_, rfl⟩, ⟨_, rfl⟩⟩

/-- What a header is cut from goes past the slash, or it ends up to there and is the same. -/
theorem headerPart_slash {u : Text} (hlast : u.getLast? ≠ some '<') (w : Text) :
    (∃ t, headerPart (u ++ '>' :: w) = u ++ '>' :: t) ∧
        (∃ t, headerPart (u ++ '/' :: '>' :: w) = u ++ '/' :: t) ∨
      (headerPart (u ++ '>' :: w)).length ≤ u.length ∧
        headerPart (u ++ '/' :: '>' :: w) = headerPart (u ++ '>' :: w) := by
  have hstop := headerStop?_slash hlast w 0 0
  rw [shift_zero] at hstop
  unfold headerPart
  rw [hstop]
  cases headerStop? 0 0 (u ++ '>' :: w) with
  | none =>
    exact takeLine_slash u w
  | some n =>
    simp only [Option.map_some]
    by_cases hn : n ≤ u.length
    · right
      rw [shift_of_le hn, List.take_append_of_le_length hn, List.take_append_of_le_length hn]
      exact ⟨List.length_take_le' n u, rfl⟩
    · left
      obtain ⟨m, rfl⟩ : ∃ m, n = u.length + (m + 1) := ⟨n - u.length - 1, by omega⟩
      rw [shift_of_lt (by omega), List.take_length_add_append, Nat.add_assoc,
        List.take_length_add_append]
      exact ⟨⟨_, rfl⟩, ⟨_, rfl⟩⟩

/-- A header that ends up to the slash stays as it is. -/
theorem header_slash {u : Text} (hlast : u.getLast? ≠ some '<') (w : Text)
    (hfits : (header (u ++ '>' :: w)).length ≤ u.length) :
    header (u ++ '/' :: '>' :: w) = header (u ++ '>' :: w) := by
  rw [header_eq] at hfits
  rw [header_eq, header_eq]
  rcases headerPart_slash hlast w with ⟨⟨t, ht⟩, -⟩ | ⟨-, heq⟩
  · have hlt := lt_length_dropEndWhile (p := Text.isAsciiBlank) (c := '>') (by decide) u t
    rw [ht] at hfits
    omega
  · rw [heq]

/-- A header that goes past the slash did so before. -/
theorem lt_length_header_slash {u : Text} (hlast : u.getLast? ≠ some '<') (w : Text)
    (hlong : u.length < (header (u ++ '>' :: w)).length) :
    u.length < (header (u ++ '/' :: '>' :: w)).length := by
  rw [header_eq] at hlong ⊢
  rcases headerPart_slash hlast w with ⟨-, ⟨t, ht⟩⟩ | ⟨hshort, -⟩
  · rw [ht]
    exact lt_length_dropEndWhile (by decide) u t
  · have hdrop := congrArg List.length
      (Text.dropEndWhile_append Text.isAsciiBlank (headerPart (u ++ '>' :: w)))
    rw [List.length_append] at hdrop
    omega

/-! ## Continuations -/

theorem startsMarkup_slash {c : Char} {u : Text} (hlast : (c :: u).getLast? ≠ some '<') (w : Text) :
    c = '<' → startsMarkup (u ++ '/' :: '>' :: w) = startsMarkup (u ++ '>' :: w) := by
  rintro rfl
  cases u with
  | nil => exact absurd rfl hlast
  | cons d u => rfl

/-- Stops among the characters in front of the slash stay as they are. -/
theorem continuationStop?_slash (isLoopTail : Bool) {u : Text} (hlast : u.getLast? ≠ some '<')
    (w : Text) {limit : Nat} (hlimit : limit ≤ u.length) (hidden depth : Nat) :
    continuationStop? isLoopTail limit (shift u.length hidden) depth (u ++ '/' :: '>' :: w) =
      continuationStop? isLoopTail limit hidden depth (u ++ '>' :: w) := by
  induction u generalizing limit hidden depth with
  | nil =>
    obtain rfl : limit = 0 := Nat.le_zero.1 hlimit
    rw [continuationStop?, continuationStop?]
  | cons c u ih =>
    have hu : u.getLast? ≠ some '<' := by
      intro heq
      apply hlast
      rw [List.getLast?_cons, heq]
      rfl
    cases limit with
    | zero => rw [continuationStop?, continuationStop?]
    | succ limit =>
      have hlimit' : limit ≤ u.length := Nat.le_of_succ_le_succ hlimit
      rw [List.cons_append, List.cons_append, List.length_cons]
      cases hidden with
      | zero =>
        rw [shift_zero, continuationStop?, continuationStop?, hiddenAfter_slash, ih hu hlimit']
        have hmarkup : (depth = 0 ∧ c = '<' ∧ startsMarkup (u ++ '/' :: '>' :: w) = true) ↔
            (depth = 0 ∧ c = '<' ∧ startsMarkup (u ++ '>' :: w) = true) := by
          constructor
          · rintro ⟨hdepth, hc, hmarkup⟩
            exact ⟨hdepth, hc, startsMarkup_slash hlast w hc ▸ hmarkup⟩
          · rintro ⟨hdepth, hc, hmarkup⟩
            exact ⟨hdepth, hc, (startsMarkup_slash hlast w hc).symm ▸ hmarkup⟩
        simp only [hmarkup]
      | succ hidden =>
        rw [shift_succ_succ, continuationStop?, continuationStop?, ih hu hlimit']

/-- A stop stays with a larger limit, and with a smaller one if it comes before that. -/
theorem continuationStop?_limit (isLoopTail : Bool) {limit limit' : Nat} (hle : limit ≤ limit')
    (hidden depth : Nat) (s : Text) {n : Nat} {stop : ContinuationStop} :
    continuationStop? isLoopTail limit hidden depth s = some (n, stop) ↔
      n < limit ∧ continuationStop? isLoopTail limit' hidden depth s = some (n, stop) := by
  induction s generalizing limit limit' hidden depth n with
  | nil => cases limit <;> cases limit' <;> simp [continuationStop?]
  | cons c r ih =>
    cases limit with
    | zero => simp [continuationStop?]
    | succ limit =>
      obtain ⟨limit', rfl⟩ : ∃ m, limit' = m + 1 := ⟨limit' - 1, by omega⟩
      have hstep : ∀ hidden depth,
          (continuationStop? isLoopTail limit hidden depth r).map
              (fun found => (found.1 + 1, found.2)) = some (n, stop) ↔
            n < limit + 1 ∧ (continuationStop? isLoopTail limit' hidden depth r).map
              (fun found => (found.1 + 1, found.2)) = some (n, stop) := by
        intro hidden depth
        simp only [Option.map_eq_some_iff, Prod.exists, Prod.mk.injEq]
        constructor
        · rintro ⟨m, st, hstop, rfl, rfl⟩
          obtain ⟨hm, hstop'⟩ := (ih (Nat.le_of_succ_le_succ hle) hidden depth).1 hstop
          exact ⟨Nat.succ_lt_succ hm, m, st, hstop', rfl, rfl⟩
        · rintro ⟨hn, m, st, hstop, rfl, rfl⟩
          exact ⟨m, st, (ih (Nat.le_of_succ_le_succ hle) hidden depth).2
            ⟨Nat.lt_of_succ_lt_succ hn, hstop⟩, rfl, rfl⟩
      cases hidden with
      | zero =>
        rw [continuationStop?, continuationStop?]
        split
        · simp only [Option.some.injEq, Prod.mk.injEq]
          constructor
          · rintro ⟨rfl, rfl⟩
            exact ⟨Nat.succ_pos _, rfl, rfl⟩
          · exact And.right
        · split
          · simp only [Option.some.injEq, Prod.mk.injEq]
            constructor
            · rintro ⟨rfl, rfl⟩
              exact ⟨Nat.succ_pos _, rfl, rfl⟩
            · exact And.right
          · exact hstep _ _
      | succ hidden =>
        rw [continuationStop?, continuationStop?]
        exact hstep hidden depth

/-- A continuation stops in front of an angle bracket or a semicolon. -/
theorem getElem?_of_continuationStop? (isLoopTail : Bool) {limit hidden depth : Nat} {s : Text}
    {n : Nat} {stop : ContinuationStop}
    (h : continuationStop? isLoopTail limit hidden depth s = some (n, stop)) :
    s[n]? = some ';' ∨ s[n]? = some '<' := by
  fun_induction continuationStop? isLoopTail limit hidden depth s generalizing n with
  | case1 hidden depth s => cases h
  | case2 hidden depth limit => cases h
  | case3 limit hidden depth c r ih =>
    obtain ⟨⟨m, st⟩, hstop, heq⟩ := Option.map_eq_some_iff.1 h
    cases heq
    exact ih hstop
  | case4 limit depth c r hsemicolon =>
    cases h
    exact Or.inl (congrArg some hsemicolon.2.1)
  | case5 limit depth c r hsemicolon hmarkup =>
    cases h
    exact Or.inr (congrArg some hmarkup.2.1)
  | case6 limit depth c r hsemicolon hmarkup ih =>
    obtain ⟨⟨m, st⟩, hstop, heq⟩ := Option.map_eq_some_iff.1 h
    cases heq
    exact ih hstop

/-- The part of a text that the header of a continuation with this stop takes. -/
def ContinuationStop.part (s : Text) : Option (Nat × ContinuationStop) → Text
  | some (n, .semicolon) => s.take (n + 1)
  | some (n, .markup) => Text.dropEndWhile Text.isAsciiBlank (s.take n)
  | none => header s

theorem continuationHeader_eq (isLoopTail : Bool) (s : Text) :
    continuationHeader isLoopTail s =
      ContinuationStop.part s (continuationStop? isLoopTail (header s).length 0 0 s) := by
  rw [continuationHeader]
  rcases continuationStop? isLoopTail (header s).length 0 0 s with _ | ⟨n, _ | _⟩ <;> rfl

theorem ContinuationStop.part_slash {u : Text} (w : Text) {n : Nat} (hn : n < u.length)
    (stop : ContinuationStop) :
    part (u ++ '/' :: '>' :: w) (some (n, stop)) = part (u ++ '>' :: w) (some (n, stop)) := by
  cases stop with
  | semicolon =>
    rw [part, part, List.take_append_of_le_length hn, List.take_append_of_le_length hn]
  | markup =>
    rw [part, part, List.take_append_of_le_length hn.le, List.take_append_of_le_length hn.le]

/-- The header of a continuation that ends in front of the slash stays as it is. -/
theorem continuationHeader_slash (isLoopTail : Bool) {u : Text} (hlast : u.getLast? ≠ some '<')
    (w : Text) (hfits : (continuationHeader isLoopTail (u ++ '>' :: w)).length ≤ u.length) :
    continuationHeader isLoopTail (u ++ '/' :: '>' :: w) =
      continuationHeader isLoopTail (u ++ '>' :: w) := by
  have hstops : ∀ {limit : Nat}, limit ≤ u.length →
      continuationStop? isLoopTail limit 0 0 (u ++ '/' :: '>' :: w) =
        continuationStop? isLoopTail limit 0 0 (u ++ '>' :: w) := by
    intro limit hlimit
    rw [← continuationStop?_slash isLoopTail hlast w hlimit, shift_zero]
  rw [continuationHeader_eq] at hfits
  rw [continuationHeader_eq, continuationHeader_eq]
  by_cases hlong : u.length < (header (u ++ '>' :: w)).length
  · -- the header goes past the slash, so a stop in front of it ends the continuation
    have hlong' := lt_length_header_slash hlast w hlong
    cases hstop : continuationStop? isLoopTail (header (u ++ '>' :: w)).length 0 0
        (u ++ '>' :: w) with
    | none =>
      rw [hstop, ContinuationStop.part] at hfits
      omega
    | some found =>
      obtain ⟨n, stop⟩ := found
      have hn : n < u.length := by
        by_contra hle
        rcases Nat.eq_or_lt_of_le (Nat.le_of_not_lt hle) with heq | hlt
        · -- what stands there is neither a semicolon nor an angle bracket
          have hchar := getElem?_of_continuationStop? isLoopTail hstop
          rw [← heq] at hchar
          simp at hchar
        · obtain ⟨m, rfl⟩ : ∃ m, n = u.length + (m + 1) := ⟨n - u.length - 1, by omega⟩
          rw [hstop] at hfits
          cases stop with
          | semicolon =>
            rw [ContinuationStop.part, Nat.add_assoc, List.take_length_add_append,
              List.length_append] at hfits
            simp only [List.take_succ_cons, List.length_cons] at hfits
            omega
          | markup =>
            rw [ContinuationStop.part, List.take_length_add_append] at hfits
            have hpast := lt_length_dropEndWhile (p := Text.isAsciiBlank) (c := '>') (by decide) u
              (w.take m)
            exact absurd hfits (by simpa using hpast)
      have hshort := (continuationStop?_limit isLoopTail hlong.le 0 0 _).2 ⟨hn, hstop⟩
      rw [← hstops le_rfl] at hshort
      rw [((continuationStop?_limit isLoopTail hlong'.le 0 0 _).1 hshort).2]
      exact ContinuationStop.part_slash w hn stop
  · have hheader := header_slash hlast w (Nat.le_of_not_lt hlong)
    rw [hheader, hstops (Nat.le_of_not_lt hlong)]
    cases hstop : continuationStop? isLoopTail (header (u ++ '>' :: w)).length 0 0
        (u ++ '>' :: w) with
    | none => exact hheader
    | some found =>
      obtain ⟨n, stop⟩ := found
      have hn := ((continuationStop?_limit isLoopTail le_rfl 0 0 _).1 hstop).1
      exact ContinuationStop.part_slash w (by omega) stop

/-! ## Expressions -/

theorem takeWhile_mark {p : Char → Bool} (u : Text) {c : Char} (hc : p c = false) (t : Text) :
    (u ++ c :: t).takeWhile p = u.takeWhile p := by
  induction u with
  | nil => exact List.takeWhile_cons_of_neg (by simp [hc])
  | cons d u ih => rw [List.cons_append, List.takeWhile_cons, List.takeWhile_cons, ih]

theorem leadingWord_mark (u : Text) {c : Char} (hc : Text.isWordChar c = false) (t : Text) :
    Text.leadingWord (u ++ c :: t) = Text.leadingWord u := takeWhile_mark u hc t

theorem leadingWord_slash (u w : Text) :
    Text.leadingWord (u ++ '/' :: '>' :: w) = Text.leadingWord (u ++ '>' :: w) := by
  rw [leadingWord_mark u (by decide), leadingWord_mark u (by decide)]

theorem length_leadingWord_le (u w : Text) :
    (Text.leadingWord (u ++ '>' :: w)).length ≤ u.length := by
  rw [leadingWord_mark u (by decide)]
  exact (List.takeWhile_prefix _).length_le

theorem startsWord_mark (u : Text) {c : Char} (hc : Text.isWordStart c = false) (t : Text) :
    Text.startsWord (u ++ c :: t) = Text.startsWord u := by
  cases u with
  | nil => exact hc
  | cons d u => rfl

theorem startsWord_slash (u w : Text) :
    Text.startsWord (u ++ '/' :: '>' :: w) = Text.startsWord (u ++ '>' :: w) := by
  rw [startsWord_mark u (by decide), startsWord_mark u (by decide)]

theorem chainLength_slash (u w : Text) (inside : Nat) :
    chainLength (shift u.length inside) (u ++ '/' :: '>' :: w) =
      shift u.length (chainLength inside (u ++ '>' :: w)) := by
  induction u generalizing inside with
  | nil =>
    cases inside with
    | zero => simp [chainLength, bracketGroup?]
    | succ inside => simp [chainLength]
  | cons c u ih =>
    have hgroup := bracketGroup?_slash (c :: u) w
    rw [List.cons_append, List.cons_append, List.length_cons] at hgroup ⊢
    cases inside with
    | zero =>
      rw [shift_zero, chainLength, chainLength, startsWord_slash, leadingWord_slash, hgroup]
      split
      · split
        · rw [shift_succ_succ, ← ih, shift_of_le (length_leadingWord_le u w)]
        · rw [shift_zero]
      · cases bracketGroup? (c :: (u ++ '>' :: w)) with
        | none => simp
        | some n =>
          cases n with
          | zero =>
            simp only [Option.map_some, shift_zero, shift_succ_succ]
            rw [← ih, shift_zero]
          | succ n =>
            simp only [Option.map_some, shift_succ_succ, Nat.add_sub_cancel]
            rw [← ih]
    | succ inside => rw [shift_succ_succ, chainLength, chainLength, ih, shift_succ_succ]

theorem operandLength_le (s : Text) : operandLength s ≤ s.length := by
  have hgap := (List.takeWhile_prefix (l := s) fun c => c == ' ' || c == '\t').length_le
  have hword := (List.takeWhile_prefix (l := s.drop
    (s.takeWhile fun c => c == ' ' || c == '\t').length) Text.isWordChar).length_le
  rw [List.length_drop] at hword
  unfold operandLength
  dsimp only
  split
  · exact Nat.zero_le _
  · rw [Text.leadingWord]
    omega

theorem operandLength_mark (u : Text) {c : Char} (hblank : c ≠ ' ' ∧ c ≠ '\t')
    (hword : Text.isWordChar c = false) (t : Text) :
    operandLength (u ++ c :: t) = operandLength u := by
  have hstart : Text.isWordStart c = false := by
    rw [← Bool.not_eq_true]
    intro hstart
    rw [Text.isWordChar_of_isWordStart hstart] at hword
    cases hword
  have hgap : (u ++ c :: t).takeWhile (fun c => c == ' ' || c == '\t') =
      u.takeWhile fun c => c == ' ' || c == '\t' := takeWhile_mark u (by simp [hblank]) t
  have hle := (List.takeWhile_prefix (l := u) fun c => c == ' ' || c == '\t').length_le
  unfold operandLength
  dsimp only
  rw [hgap, List.drop_append_of_le_length hle, startsWord_mark _ hstart, leadingWord_mark _ hword]

theorem operandLength_slash (u w : Text) :
    operandLength (u ++ '/' :: '>' :: w) = operandLength (u ++ '>' :: w) := by
  rw [operandLength_mark u (by decide) (by decide), operandLength_mark u (by decide) (by decide)]

theorem shift_add (m k n : Nat) : shift (m + k) (m + n) = m + shift k n := by
  unfold shift
  split <;> split <;> omega

theorem expressionRest_slash (isAwait : Bool) (u w : Text) :
    expressionRest isAwait (u ++ '/' :: '>' :: w) =
      shift u.length (expressionRest isAwait (u ++ '>' :: w)) := by
  have hle : (if isAwait then operandLength (u ++ '>' :: w) else 0) ≤ u.length := by
    split
    · rw [operandLength_mark u (by decide) (by decide)]
      exact operandLength_le u
    · exact Nat.zero_le _
  unfold expressionRest
  dsimp only
  rw [operandLength_slash]
  generalize (if isAwait then operandLength (u ++ '>' :: w) else 0) = n at hle ⊢
  have hchain := chainLength_slash (u.drop n) w 0
  rw [shift_zero, List.length_drop] at hchain
  rw [List.drop_append_of_le_length hle, List.drop_append_of_le_length hle, hchain, ← shift_add]
  congr 1
  omega

end RazorTidy
