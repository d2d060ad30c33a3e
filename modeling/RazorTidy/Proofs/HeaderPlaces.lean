import Mathlib.Data.List.DropRight
import RazorTidy.Proofs.Lookahead
import RazorTidy.Proofs.OpenComments

/-!
# Places where a header ends

A place of a header is outside if it stands neither in a literal nor between brackets (`outside`). A
header ends at the first outside place where something ends it (`headerStop?_eq_some_iff`), and a
continuation stops at the first outside place with a stop (`continuationStop?_eq_some_iff`).

Which places are outside is seen from the text up to any outside place: literals and brackets are
closed there (`outside_append`), and what stands behind it makes no difference. The blanks at the end
of a header neither close a literal nor a bracket. So a header, cut out of its text, is the header of
itself (`header_header`), and so is that of a continuation (`continuationHeader_alone`). The one
exception is a header whose brackets stay open and that ends with its line for this reason only.
-/

set_option autoImplicit false

namespace RazorTidy

/-! ## Outside of literals and brackets -/

/-- Whether the place after the first `n` characters of a text is outside, if `hidden` characters
at the start of the text belong to a literal and `depth` brackets are open there. -/
def outside : (hidden depth : Nat) → Text → (n : Nat) → Bool
  | hidden, depth, _, 0 => hidden == 0 && depth == 0
  | _, _, [], _ + 1 => false
  | hidden + 1, depth, _ :: r, n + 1 => outside hidden depth r n
  | 0, depth, c :: r, n + 1 => outside (hiddenAfter c r) (bracketDepth depth c) r n

attribute [local simp] outside in
theorem outside_zero (hidden depth : Nat) (s : Text) :
    outside hidden depth s 0 = (hidden == 0 && depth == 0) := by
  simp

/-- A literal ends in front of an outside place. -/
theorem hidden_le_of_outside {hidden depth n : Nat} {s : Text}
    (h : outside hidden depth s n = true) : hidden ≤ n := by
  fun_induction outside hidden depth s n with
  | case1 hidden depth s => simp_all
  | case2 => cases h
  | case3 hidden depth c r n ih => exact Nat.succ_le_succ (ih h)
  | case4 => exact Nat.zero_le _

theorem le_length_of_outside {hidden depth n : Nat} {s : Text}
    (h : outside hidden depth s n = true) : n ≤ s.length := by
  fun_induction outside hidden depth s n with
  | case1 => exact Nat.zero_le _
  | case2 => cases h
  | case3 hidden depth c r n ih => exact Nat.succ_le_succ (ih h)
  | case4 depth c r n ih => exact Nat.succ_le_succ (ih h)

theorem hiddenAfter_le (c : Char) (r : Text) : hiddenAfter c r ≤ r.length :=
  (hiddenAfter_take c r List.nil_prefix).2

/-- A literal that ends in a text is seen without what comes after the text. -/
theorem hiddenAfter_of_le {c : Char} {u t : Text} (h : hiddenAfter c (u ++ t) ≤ u.length) :
    hiddenAfter c u = hiddenAfter c (u ++ t) := by
  have hprefix : u.drop (hiddenAfter c (u ++ t)) <+: (u ++ t).drop (hiddenAfter c (u ++ t)) := by
    rw [List.drop_append_of_le_length h]
    exact List.prefix_append _ t
  have htake := (hiddenAfter_take c (u ++ t) hprefix).1
  rwa [List.take_append_of_le_length h, List.take_append_drop] at htake

/-- Up to an outside place, what comes after it decides nothing. -/
theorem outside_append {hidden depth : Nat} {u t : Text}
    (h : outside hidden depth (u ++ t) u.length = true) :
    ∀ m ≤ u.length, outside hidden depth u m = outside hidden depth (u ++ t) m := by
  induction u generalizing hidden depth with
  | nil =>
    intro m hm
    rw [Nat.le_zero.1 hm, outside_zero, outside_zero]
  | cons c u ih =>
    intro m hm
    cases m with
    | zero => rw [outside_zero, outside_zero]
    | succ m =>
      have hm' : m ≤ u.length := Nat.le_of_succ_le_succ hm
      cases hidden with
      | zero =>
        have hliteral := hiddenAfter_of_le (hidden_le_of_outside h)
        rw [List.cons_append, outside, outside, hliteral]
        exact ih h m hm'
      | succ hidden => exact ih h m hm'

/-- One character further on from an outside place. -/
theorem outside_succ {hidden depth n : Nat} {s r : Text} {c : Char}
    (h : outside hidden depth s n = true) (hrest : s.drop n = c :: r) :
    outside hidden depth s (n + 1) = outside 0 0 (c :: r) 1 := by
  fun_induction outside hidden depth s n with
  | case1 hidden depth s =>
    simp only [Bool.and_eq_true, beq_iff_eq] at h
    obtain ⟨rfl, rfl⟩ := h
    rw [← hrest, List.drop_zero]
  | case2 => cases h
  | case3 hidden depth d s n ih => exact ih h hrest
  | case4 depth d s n ih => exact ih h hrest

/-! ## Blanks in front of an outside place -/

/-- A literal ends with its quote. -/
theorem getElem?_literalRest? {q : Char} {s : Text} {n : Nat} (h : literalRest? q s = some n) :
    ∃ k, n = k + 1 ∧ s[k]? = some q := by
  fun_induction literalRest? q s generalizing n with
  | case1 => cases h
  | case2 => cases h
  | case3 c r ih =>
    obtain ⟨m, hm, rfl⟩ := Option.map_eq_some_iff.1 h
    obtain ⟨k, rfl, hk⟩ := ih hm
    exact ⟨k + 2, rfl, hk⟩
  | case4 => cases h
  | case5 => exact ⟨0, (Option.some.inj h).symm, rfl⟩
  | case6 c r hlast hescape hline hc ih =>
    obtain ⟨m, hm, rfl⟩ := Option.map_eq_some_iff.1 h
    obtain ⟨k, rfl, hk⟩ := ih hm
    exact ⟨k + 1, rfl, hk⟩

theorem getElem?_hiddenAfter {c : Char} {r : Text} {k : Nat} (h : hiddenAfter c r = k + 1) :
    ∃ q, isQuote q = true ∧ r[k]? = some q := by
  rw [hiddenAfter] at h
  split at h
  · rename_i hc
    cases hrest : literalRest? c r with
    | none =>
      rw [hrest] at h
      cases h
    | some n =>
      obtain ⟨k', rfl, hk⟩ := getElem?_literalRest? hrest
      rw [hrest] at h
      cases h
      exact ⟨c, hc, hk⟩
  · cases h

theorem isAsciiBlank_not_code {c : Char} (h : Text.isAsciiBlank c = true) :
    isQuote c = false ∧ ∀ depth, bracketDepth depth c = depth := by
  simp only [Text.isAsciiBlank, Bool.or_eq_true, beq_iff_eq] at h
  rcases h with (((rfl | rfl) | rfl) | rfl) | rfl <;> exact ⟨rfl, fun depth => rfl⟩

/-- If a blank stands in front of an outside place, the place in front of the blank is outside, too:
a literal ends with a quote, and a blank closes no bracket. -/
theorem outside_blank {hidden depth : Nat} {u t : Text} {c : Char}
    (hc : Text.isAsciiBlank c = true)
    (hquote : ∀ k, hidden = k + 1 → ∃ q, isQuote q = true ∧ (u ++ c :: t)[k]? = some q)
    (h : outside hidden depth (u ++ c :: t) (u.length + 1) = true) :
    outside hidden depth (u ++ c :: t) u.length = true := by
  induction u generalizing hidden depth with
  | nil =>
    obtain ⟨hplain, hdepth⟩ := isAsciiBlank_not_code hc
    cases hidden with
    | zero =>
      have hnone : hiddenAfter c t = 0 := hiddenAfter_of_not_isQuote (by simp [hplain]) t
      rw [List.nil_append, List.length_nil, outside, hnone, hdepth, outside_zero] at h
      rw [List.length_nil, outside_zero, h]
    | succ hidden =>
      -- the blank would be the quote at the end of the literal
      have hend : hidden = 0 := Nat.le_zero.1 (Nat.le_of_succ_le_succ (hidden_le_of_outside h))
      obtain ⟨q, hq, hget⟩ := hquote 0 (by rw [hend])
      cases hget
      rw [hplain] at hq
      cases hq
  | cons d u ih =>
    cases hidden with
    | zero => exact ih (fun k hk => getElem?_hiddenAfter hk) h
    | succ hidden => exact ih (fun k hk => hquote (k + 1) (by rw [hk])) h

/-- Trimming the blanks in front of an outside place leads to an outside place. -/
theorem outside_trimmed {s : Text} {n : Nat} (h : outside 0 0 s n = true) :
    outside 0 0 s (Text.dropEndWhile Text.isAsciiBlank (s.take n)).length = true := by
  induction n with
  | zero => rw [List.take_zero]; exact h
  | succ n ih =>
    have hn : n < s.length := le_length_of_outside h
    have hcut : s.take n ++ s[n] :: s.drop (n + 1) = s := by
      rw [List.getElem_cons_drop, List.take_append_drop]
    have hlength : (s.take n).length = n := List.length_take_of_le hn.le
    have htake : s.take (n + 1) = s.take n ++ [s[n]] := (List.take_append_getElem hn).symm
    rw [htake]
    cases hblank : Text.isAsciiBlank s[n] with
    | true =>
      rw [Text.dropEndWhile, ← List.rdropWhile, List.rdropWhile_concat_pos _ _ _ hblank]
      refine ih ?_
      have hbefore := @outside_blank 0 0 (s.take n) (s.drop (n + 1)) _ hblank
        fun k hk => by cases hk
      rw [hcut, hlength] at hbefore
      exact hbefore h
    | false =>
      rw [Text.dropEndWhile, ← List.rdropWhile,
        List.rdropWhile_concat_neg _ _ _ (by simp [hblank]), ← htake,
        List.length_take_of_le (le_length_of_outside h)]
      exact h

/-! ## The first outside place -/

/-- The place after the first `n` characters is the first outside place of a text that is followed
by a text with the property `p`. -/
structure FirstOutside (p : Text → Bool) (hidden depth : Nat) (s : Text) (n : Nat) : Prop where
  isOutside : outside hidden depth s n = true
  holds : p (s.drop n) = true
  first : ∀ m < n, outside hidden depth s m = true → p (s.drop m) = false

section FirstOutside

variable {p : Text → Bool} {hidden depth n : Nat} {s r : Text} {c : Char}

theorem firstOutside_nil : FirstOutside p 0 depth [] n ↔ depth = 0 ∧ p [] = true ∧ n = 0 := by
  constructor
  · rintro ⟨hout, hp, -⟩
    obtain rfl : n = 0 := Nat.le_zero.1 (le_length_of_outside hout)
    rw [outside_zero] at hout
    exact ⟨by simpa using hout, hp, rfl⟩
  · rintro ⟨rfl, hp, rfl⟩
    exact ⟨rfl, hp, fun m hm => absurd hm (Nat.not_lt_zero m)⟩

theorem firstOutside_hidden :
    FirstOutside p (hidden + 1) depth (c :: r) n ↔
      ∃ m, n = m + 1 ∧ FirstOutside p hidden depth r m := by
  constructor
  · rintro ⟨hout, hp, hfirst⟩
    cases n with
    | zero => cases hout
    | succ n => exact ⟨n, rfl, hout, hp, fun m hm => hfirst (m + 1) (Nat.succ_lt_succ hm)⟩
  · rintro ⟨m, rfl, hout, hp, hfirst⟩
    refine ⟨hout, hp, ?_⟩
    intro k hk hout'
    cases k with
    | zero => cases hout'
    | succ k => exact hfirst k (Nat.lt_of_succ_lt_succ hk) hout'

theorem firstOutside_here (hp : p (c :: r) = true) :
    FirstOutside p 0 0 (c :: r) n ↔ n = 0 := by
  constructor
  · rintro ⟨-, -, hfirst⟩
    by_contra hn
    have hnot := hfirst 0 (Nat.pos_of_ne_zero hn) rfl
    rw [List.drop_zero, hp] at hnot
    cases hnot
  · rintro rfl
    exact ⟨rfl, hp, fun m hm => absurd hm (Nat.not_lt_zero m)⟩

theorem firstOutside_further (hp : ¬ (depth = 0 ∧ p (c :: r) = true)) :
    FirstOutside p 0 depth (c :: r) n ↔
      ∃ m, n = m + 1 ∧ FirstOutside p (hiddenAfter c r) (bracketDepth depth c) r m := by
  constructor
  · rintro ⟨hout, hn, hfirst⟩
    cases n with
    | zero =>
      rw [outside_zero] at hout
      exact absurd ⟨by simpa using hout, hn⟩ hp
    | succ n => exact ⟨n, rfl, hout, hn, fun m hm => hfirst (m + 1) (Nat.succ_lt_succ hm)⟩
  · rintro ⟨m, rfl, hout, hn, hfirst⟩
    refine ⟨hout, hn, ?_⟩
    intro k hk hout'
    cases k with
    | zero =>
      rw [outside_zero] at hout'
      exact Bool.eq_false_iff.2 fun hhere => hp ⟨by simpa using hout', hhere⟩
    | succ k => exact hfirst k (Nat.lt_of_succ_lt_succ hk) hout'

/-- If some outside place is followed by a text with the property, there is a first one. -/
theorem exists_firstOutside (hout : outside hidden depth s n = true) (hp : p (s.drop n) = true) :
    ∃ m ≤ n, FirstOutside p hidden depth s m := by
  induction n using Nat.strongRecOn with
  | ind n ih =>
    by_cases hfirst : ∃ m < n, outside hidden depth s m = true ∧ p (s.drop m) = true
    · obtain ⟨m, hm, hout', hp'⟩ := hfirst
      obtain ⟨k, hk, hplace⟩ := ih m hm hout' hp'
      exact ⟨k, hk.trans hm.le, hplace⟩
    · refine ⟨n, le_rfl, hout, hp, ?_⟩
      exact fun m hm hout' => Bool.eq_false_iff.2 fun hp' => hfirst ⟨m, hm, hout', hp'⟩

end FirstOutside

/-! ## The ends of headers -/

/-- Whether a text after a place outside of brackets ends the header in front of it. -/
def headerEnds : Text → Bool
  | [] => true
  | c :: r => endsHeader c r

theorem map_succ_eq_some_iff {found : Option Nat} {n : Nat} :
    found.map (· + 1) = some n ↔ ∃ m, n = m + 1 ∧ found = some m := by
  rw [Option.map_eq_some_iff]
  exact exists_congr fun m => ⟨fun h => ⟨h.2.symm, h.1⟩, fun h => ⟨h.2, h.1.symm⟩⟩

/-- A header ends at the first outside place where its end follows. -/
theorem headerStop?_eq_some_iff {hidden depth n : Nat} {s : Text} (hhidden : hidden ≤ s.length) :
    headerStop? hidden depth s = some n ↔ FirstOutside headerEnds hidden depth s n := by
  fun_induction headerStop? hidden depth s generalizing n with
  | case1 hidden =>
    obtain rfl : hidden = 0 := Nat.le_zero.1 hhidden
    rw [firstOutside_nil, Option.some.injEq]
    exact ⟨fun h => ⟨rfl, rfl, h.symm⟩, fun h => h.2.2.symm⟩
  | case2 hidden depth hdepth =>
    obtain rfl : hidden = 0 := Nat.le_zero.1 hhidden
    rw [firstOutside_nil]
    exact ⟨fun h => (by cases h), fun h => absurd h.1 hdepth⟩
  | case3 hidden depth c r ih =>
    rw [map_succ_eq_some_iff, firstOutside_hidden]
    exact exists_congr fun m => and_congr_right fun _ => ih (Nat.le_of_succ_le_succ hhidden)
  | case4 depth c r hend =>
    obtain ⟨rfl, hend⟩ := hend
    rw [firstOutside_here hend, Option.some.injEq, eq_comm]
  | case5 depth c r hend ih =>
    rw [map_succ_eq_some_iff, firstOutside_further hend]
    exact exists_congr fun m => and_congr_right fun _ => ih (hiddenAfter_le c r)

/-- No end of a header follows an outside place in the part that the header is cut from. -/
theorem headerEnds_of_lt {s : Text} {m : Nat} (hm : m < (headerPart s).length)
    (hout : outside 0 0 s m = true) : headerEnds (s.drop m) = false := by
  rw [headerPart] at hm
  cases hstop : headerStop? 0 0 s with
  | some n =>
    rw [hstop, List.length_take] at hm
    exact ((headerStop?_eq_some_iff (Nat.zero_le _)).1 hstop).first m (by omega) hout
  | none =>
    -- without an end the header takes a line, and no outside place ends it
    rw [Bool.eq_false_iff]
    intro hend
    obtain ⟨k, -, hfirst⟩ := exists_firstOutside hout hend
    rw [← headerStop?_eq_some_iff (Nat.zero_le _), hstop] at hfirst
    cases hfirst

theorem endsHeader_append {c : Char} {u : Text} (t : Text) (h : endsHeader c u = true) :
    endsHeader c (u ++ t) = true := by
  cases u with
  | nil =>
    simp only [endsHeader, List.head?_nil, Bool.or_eq_true, Bool.and_eq_true] at h ⊢
    exact h.imp_right fun h => absurd h.2 (by decide)
  | cons d u => exact h

theorem header_of_stop {s : Text} {n : Nat} (h : headerStop? 0 0 s = some n) :
    header s = Text.dropEndWhile Text.isAsciiBlank (s.take n) := by
  rw [header, h]

theorem length_header_le (s : Text) : (header s).length ≤ (headerPart s).length := by
  have hsplit := congrArg List.length (Text.dropEndWhile_append Text.isAsciiBlank (headerPart s))
  rw [List.length_append] at hsplit
  rw [header_eq]
  omega

/-- A text that a header is cut from, up to an outside place and without blanks at its end, is the
header of itself. -/
theorem header_eq_self {u t : Text} (hout : outside 0 0 (u ++ t) u.length = true)
    (hlength : u.length ≤ (headerPart (u ++ t)).length)
    (htrim : Text.dropEndWhile Text.isAsciiBlank u = u) : header u = u := by
  have halone := outside_append hout
  have hstop : headerStop? 0 0 u = some u.length := by
    rw [headerStop?_eq_some_iff (Nat.zero_le _)]
    refine ⟨by rw [halone _ le_rfl, hout], by rw [List.drop_length]; rfl, ?_⟩
    intro m hm hm'
    rw [halone m hm.le] at hm'
    have hgoes := headerEnds_of_lt (hm.trans_le hlength) hm'
    rw [List.drop_append_of_le_length hm.le] at hgoes
    cases hrest : u.drop m with
    | nil => exact absurd (List.drop_eq_nil_iff.1 hrest) (Nat.not_le.2 hm)
    | cons c r =>
      rw [hrest] at hgoes
      rw [Bool.eq_false_iff] at hgoes ⊢
      exact fun hend => hgoes (endsHeader_append t hend)
  rw [header_of_stop hstop, List.take_length, htrim]

theorem dropEndWhile_dropEndWhile (p : Char → Bool) (s : Text) :
    Text.dropEndWhile p (Text.dropEndWhile p s) = Text.dropEndWhile p s :=
  List.rdropWhile_idempotent p s

theorem outside_header {s : Text} (h : headerStop? 0 0 s ≠ none) :
    outside 0 0 s (header s).length = true := by
  obtain ⟨n, hstop⟩ := Option.ne_none_iff_exists'.1 h
  have hfirst := (headerStop?_eq_some_iff (Nat.zero_le _)).1 hstop
  rw [header_of_stop hstop]
  exact outside_trimmed hfirst.isOutside

/-- A header that ends outside of brackets is the header of itself. -/
theorem header_header {s : Text} (h : headerStop? 0 0 s ≠ none) : header (header s) = header s := by
  obtain ⟨t, ht⟩ := header_isPrefix s
  refine @header_eq_self _ t ?_ ?_ ?_
  · rw [ht]
    exact outside_header h
  · rw [ht]
    exact length_header_le s
  · rw [header_eq, dropEndWhile_dropEndWhile]

/-! ## The stops of continuations -/

/-- The stop of a continuation in front of a text, outside of brackets. -/
def stopAt? (isLoopTail : Bool) : Text → Option ContinuationStop
  | [] => none
  | c :: r =>
    if c = ';' ∧ isLoopTail then some .semicolon
    else if c = '<' ∧ startsMarkup r then some .markup
    else none

/-- Whether a continuation stops in front of a text, outside of brackets. -/
def stops (isLoopTail : Bool) (s : Text) : Bool := (stopAt? isLoopTail s).isSome

theorem stops_of_stopAt? {isLoopTail : Bool} {s : Text} {stop : ContinuationStop}
    (h : stopAt? isLoopTail s = some stop) : stops isLoopTail s = true := by
  rw [stops, h]
  rfl

theorem eq_cons_of_stopAt? {isLoopTail : Bool} {s : Text}
    (h : stopAt? isLoopTail s = some .semicolon) : isLoopTail = true ∧ ∃ r, s = ';' :: r := by
  cases s with
  | nil => cases h
  | cons c r =>
    rw [stopAt?] at h
    split at h
    · rename_i hsemicolon
      exact ⟨hsemicolon.2, r, by rw [hsemicolon.1]⟩
    · split at h <;> cases h

theorem stopAt?_eq_none_iff {isLoopTail : Bool} {s : Text} :
    stopAt? isLoopTail s = none ↔ stops isLoopTail s = false := by
  rw [stops, Option.isSome_eq_false_iff, Option.isNone_iff_eq_none]

theorem map_stop_eq_some_iff {found : Option (Nat × ContinuationStop)} {n : Nat}
    {stop : ContinuationStop} :
    found.map (fun place => (place.1 + 1, place.2)) = some (n, stop) ↔
      ∃ m, n = m + 1 ∧ found = some (m, stop) := by
  rw [Option.map_eq_some_iff]
  constructor
  · rintro ⟨⟨m, stop'⟩, rfl, heq⟩
    cases heq
    exact ⟨m, rfl, rfl⟩
  · rintro ⟨m, rfl, rfl⟩
    exact ⟨(m, stop), rfl, rfl⟩

/-- A continuation stops at the first outside place with a stop, among the characters of its
header. -/
theorem continuationStop?_eq_some_iff {isLoopTail : Bool} {limit hidden depth n : Nat} {s : Text}
    {stop : ContinuationStop} :
    continuationStop? isLoopTail limit hidden depth s = some (n, stop) ↔
      n < limit ∧ FirstOutside (stops isLoopTail) hidden depth s n ∧
        stopAt? isLoopTail (s.drop n) = some stop := by
  -- one character further on, the limit and the place are one less
  have hstep : ∀ {limit n : Nat} {c : Char} {r : Text} {q : Nat → Prop},
      (∃ m, n = m + 1 ∧ m < limit ∧ q m ∧ stopAt? isLoopTail (r.drop m) = some stop) ↔
        n < limit + 1 ∧ (∃ m, n = m + 1 ∧ q m) ∧
          stopAt? isLoopTail ((c :: r).drop n) = some stop := by
    intro limit n c r q
    constructor
    · rintro ⟨m, rfl, hm, hq, hstop⟩
      exact ⟨Nat.succ_lt_succ hm, ⟨m, rfl, hq⟩, hstop⟩
    · rintro ⟨hn, ⟨m, rfl, hq⟩, hstop⟩
      exact ⟨m, rfl, Nat.lt_of_succ_lt_succ hn, hq, hstop⟩
  have hhere : ∀ {limit n : Nat} {c : Char} {r : Text} {found : ContinuationStop},
      stopAt? isLoopTail (c :: r) = some found →
      (some (0, found) = some (n, stop) ↔
        n < limit + 1 ∧ FirstOutside (stops isLoopTail) 0 0 (c :: r) n ∧
          stopAt? isLoopTail ((c :: r).drop n) = some stop) := by
    intro limit n c r found hfound
    rw [firstOutside_here (stops_of_stopAt? hfound), Option.some.injEq, Prod.mk.injEq]
    constructor
    · rintro ⟨rfl, rfl⟩
      exact ⟨Nat.succ_pos _, rfl, hfound⟩
    · rintro ⟨-, rfl, hstop⟩
      exact ⟨rfl, Option.some.inj (hfound.symm.trans hstop)⟩
  fun_induction continuationStop? isLoopTail limit hidden depth s generalizing n with
  | case1 hidden depth s => exact ⟨fun h => (by cases h), fun h => absurd h.1 (Nat.not_lt_zero n)⟩
  | case2 hidden depth limit =>
    refine ⟨fun h => (by cases h), fun h => ?_⟩
    rw [List.drop_nil] at h
    cases h.2.2
  | case3 limit hidden depth c r ih =>
    refine map_stop_eq_some_iff.trans ?_
    simp only [ih, firstOutside_hidden]
    exact hstep
  | case4 limit depth c r hsemicolon =>
    obtain ⟨rfl, hc⟩ := hsemicolon
    exact hhere (if_pos hc)
  | case5 limit depth c r hsemicolon hmarkup =>
    obtain ⟨rfl, hc⟩ := hmarkup
    have hnot : ¬ (c = ';' ∧ isLoopTail = true) := fun h => hsemicolon ⟨rfl, h⟩
    exact hhere ((if_neg hnot).trans (if_pos hc))
  | case6 limit depth c r hsemicolon hmarkup ih =>
    have hnone : ¬ (depth = 0 ∧ stops isLoopTail (c :: r) = true) := by
      rintro ⟨hdepth, hstops⟩
      rw [stops, stopAt?, if_neg fun h => hsemicolon ⟨hdepth, h⟩,
        if_neg fun h => hmarkup ⟨hdepth, h⟩] at hstops
      cases hstops
    refine map_stop_eq_some_iff.trans ?_
    simp only [ih, firstOutside_further hnone]
    exact hstep

/-- A continuation has no stop if and only if there is none at any outside place of its header. -/
theorem continuationStop?_eq_none_iff {isLoopTail : Bool} {limit : Nat} {s : Text} :
    continuationStop? isLoopTail limit 0 0 s = none ↔
      ∀ m < limit, outside 0 0 s m = true → stopAt? isLoopTail (s.drop m) = none := by
  constructor
  · intro hnone m hm hout
    rw [Option.eq_none_iff_forall_ne_some]
    intro stop hstop
    -- the first stop up to there would be found
    obtain ⟨k, hk, hfirst⟩ := exists_firstOutside hout (stops_of_stopAt? hstop)
    obtain ⟨found, hfound⟩ := Option.isSome_iff_exists.1 hfirst.holds
    rw [continuationStop?_eq_some_iff.2 ⟨hk.trans_lt hm, hfirst, hfound⟩] at hnone
    cases hnone
  · intro hnone
    rw [Option.eq_none_iff_forall_ne_some]
    rintro ⟨n, stop⟩ hstop
    obtain ⟨hn, hfirst, hfound⟩ := continuationStop?_eq_some_iff.1 hstop
    rw [hnone n hn hfirst.isOutside] at hfound
    cases hfound

/-- Text after the header of a continuation takes no stop away. -/
theorem stopAt?_append {isLoopTail : Bool} {u : Text} (hne : u ≠ []) (t : Text)
    (h : stopAt? isLoopTail (u ++ t) = none) : stopAt? isLoopTail u = none := by
  cases u with
  | nil => exact absurd rfl hne
  | cons c u =>
    rw [List.cons_append, stopAt?] at h
    rw [stopAt?]
    split
    · rename_i hsemicolon
      rw [if_pos hsemicolon] at h
      cases h
    · rename_i hsemicolon
      rw [if_neg hsemicolon] at h
      rw [if_neg]
      rintro ⟨hc, hmarkup⟩
      have hmarkup' : startsMarkup (u ++ t) = true := by
        cases u with
        | nil => cases hmarkup
        | cons d u => exact hmarkup
      rw [if_pos ⟨hc, hmarkup'⟩] at h
      cases h

section Alone

variable {isLoopTail : Bool} {u t : Text}

/-- Up to an outside place, a continuation that stops nowhere does so without the text behind it. -/
theorem stopAt?_alone (hout : outside 0 0 (u ++ t) u.length = true) {n : Nat} (hn : n ≤ u.length)
    (hnone : ∀ m < n, outside 0 0 (u ++ t) m = true → stopAt? isLoopTail ((u ++ t).drop m) = none) :
    ∀ m < n, outside 0 0 u m = true → stopAt? isLoopTail (u.drop m) = none := by
  intro m hm hm'
  have hlt : m < u.length := hm.trans_le hn
  rw [outside_append hout m hlt.le] at hm'
  have hstop := hnone m hm hm'
  rw [List.drop_append_of_le_length hlt.le] at hstop
  exact stopAt?_append (by simpa using hlt) t hstop

/-- A header without a stop is the header of itself as that of a continuation. -/
theorem continuationHeader_of_none (hout : outside 0 0 (u ++ t) u.length = true)
    (hheader : header u = u)
    (hnone : ∀ m < u.length, outside 0 0 (u ++ t) m = true →
      stopAt? isLoopTail ((u ++ t).drop m) = none) :
    continuationHeader isLoopTail u = u := by
  rw [continuationHeader_eq, hheader,
    continuationStop?_eq_none_iff.2 (stopAt?_alone hout le_rfl hnone), ContinuationStop.part, hheader]

/-- The header of a continuation in front of markup. -/
theorem continuationHeader_markup {s : Text} {n : Nat}
    (h : continuationStop? isLoopTail (header s).length 0 0 s = some (n, .markup)) :
    continuationHeader isLoopTail (Text.dropEndWhile Text.isAsciiBlank (s.take n)) =
      Text.dropEndWhile Text.isAsciiBlank (s.take n) := by
  obtain ⟨hn, hfirst, -⟩ := continuationStop?_eq_some_iff.1 h
  have hout := outside_trimmed hfirst.isOutside
  have htrim := dropEndWhile_dropEndWhile Text.isAsciiBlank (s.take n)
  have hsplit := Text.dropEndWhile_append Text.isAsciiBlank (s.take n)
  generalize Text.dropEndWhile Text.isAsciiBlank (s.take n) = u at hout htrim hsplit ⊢
  have hle : u.length ≤ n := by
    have hlength := congrArg List.length hsplit
    rw [List.length_append, List.length_take] at hlength
    omega
  obtain ⟨t, rfl⟩ : ∃ t, u ++ t = s :=
    ⟨_, by rw [← List.append_assoc, hsplit, List.take_append_drop]⟩
  have hheader : header u = u :=
    header_eq_self hout (hle.trans (hn.le.trans (length_header_le _))) htrim
  exact continuationHeader_of_none hout hheader fun m hm hm' =>
    stopAt?_eq_none_iff.2 (hfirst.first m (hm.trans_le hle) hm')

/-- The header of a continuation that ends with its semicolon. -/
theorem continuationHeader_semicolon {s : Text} {n : Nat}
    (h : continuationStop? isLoopTail (header s).length 0 0 s = some (n, .semicolon)) :
    continuationHeader isLoopTail (s.take (n + 1)) = s.take (n + 1) := by
  obtain ⟨hn, hfirst, hfound⟩ := continuationStop?_eq_some_iff.1 h
  obtain ⟨hloop, r, hrest⟩ := eq_cons_of_stopAt? hfound
  have hlt : n < s.length := by
    by_contra hle
    rw [List.drop_eq_nil_of_le (Nat.le_of_not_lt hle)] at hrest
    cases hrest
  have hout : outside 0 0 s (n + 1) = true := by
    rw [outside_succ hfirst.isOutside hrest, outside, outside_zero,
      hiddenAfter_of_not_isQuote (by decide)]
    rfl
  have htake : s.take (n + 1) = s.take n ++ [';'] := by
    rw [List.take_add_one, ← List.head?_drop, hrest]
    rfl
  have htrim : Text.dropEndWhile Text.isAsciiBlank (s.take (n + 1)) = s.take (n + 1) := by
    rw [htake]
    exact List.rdropWhile_concat_neg _ _ _ (by decide)
  have hlast : (s.take (n + 1)).drop n = [';'] := by
    rw [htake, List.drop_left' (List.length_take_of_le hlt.le)]
  have hlength : (s.take (n + 1)).length = n + 1 := List.length_take_of_le hlt
  have hsplit := List.take_append_drop (n + 1) s
  generalize s.take (n + 1) = u at htrim hlast hlength hsplit ⊢
  generalize s.drop (n + 1) = t at hsplit
  subst hsplit
  have hout' : outside 0 0 (u ++ t) u.length = true := by rw [hlength]; exact hout
  have hheader : header u = u :=
    header_eq_self hout' (by rw [hlength]; exact hn.trans_le (length_header_le _)) htrim
  have hstop : continuationStop? isLoopTail u.length 0 0 u = some (n, .semicolon) := by
    rw [continuationStop?_eq_some_iff, hlast]
    have hsemicolon : stopAt? isLoopTail [';'] = some .semicolon := if_pos ⟨rfl, hloop⟩
    refine ⟨by omega, ⟨?_, ?_, ?_⟩, hsemicolon⟩
    · rw [outside_append hout' n (by omega)]
      exact hfirst.isOutside
    · rw [hlast]
      exact stops_of_stopAt? hsemicolon
    · intro m hm hm'
      rw [← stopAt?_eq_none_iff]
      exact stopAt?_alone hout' (by omega)
        (fun m hm hm' => stopAt?_eq_none_iff.2 (hfirst.first m hm hm')) m hm hm'
  rw [continuationHeader_eq, hheader, hstop, ContinuationStop.part, ← hlength, List.take_length]

/-- The header of a continuation is the header of itself, unless its brackets stay open and no stop
ends it. -/
theorem continuationHeader_alone {s : Text}
    (h : headerStop? 0 0 s ≠ none ∨ continuationStop? isLoopTail (header s).length 0 0 s ≠ none) :
    continuationHeader isLoopTail (continuationHeader isLoopTail s) =
      continuationHeader isLoopTail s := by
  rw [continuationHeader_eq isLoopTail s]
  rcases hstop : continuationStop? isLoopTail (header s).length 0 0 s with _ | ⟨n, _ | _⟩
  · have hclosed := h.resolve_right fun hne => hne hstop
    obtain ⟨t, ht⟩ := header_isPrefix s
    have hnone := continuationStop?_eq_none_iff.1 hstop
    have hout := outside_header hclosed
    rw [ContinuationStop.part]
    refine @continuationHeader_of_none isLoopTail _ t ?_ (header_header hclosed) ?_
    · rw [ht]
      exact hout
    · rw [ht]
      exact hnone
  · exact continuationHeader_semicolon hstop
  · exact continuationHeader_markup hstop

end Alone

end RazorTidy
