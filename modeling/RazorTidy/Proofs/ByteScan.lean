import RazorTidy.Proofs.Octets

/-!
# Scanning by byte offsets

`Segmentation.segment` walks a template character by character. This module finds the same tokens
with offsets into the encoded template: literals, brackets, headers and ASCII blanks are searched
byte by byte (`octetsFrom`), and everything else looks at a slice of the template (`after?`,
`before?`, `Span.slice?`). A slice at an offset past the end or inside a character is no text, and
then the scan as a whole gives nothing; so it does when it runs out of steps.

None of this happens. `Agrees` says which place of a template a state of the scanner stands for, and
from such a state each rule gives the offset that the rule for characters gives, which lies between
two characters: `Agrees.token?` for tokens, `Agrees.textEnd?` and `rawTextEnd?_eq` for the text
between them.
-/

set_option autoImplicit false

namespace RazorTidy.ByteScan

open Text (octets offset byteLength isAscii)

/-! ## The scanner -/

section Scanner

variable (source : Text)

/-- The slice of the source from an offset on. -/
def after? (i : Nat) : Option Text := (Text.cut? i source).map Prod.snd

/-- The slice of the source up to an offset. -/
def before? (i : Nat) : Option Text := (Text.cut? i source).map Prod.fst

/-- The bytes of the source from an offset on. -/
def octetsFrom (i : Nat) : Text := (octets source).drop i

/-- The byte offset of the first occurrence of `pattern` in a text. -/
def find? (pattern s : Text) : Option Nat := (Text.indexOf? pattern s).map (offset · s)

/-- The end of the part that `opening` starts at an offset, if `closing` stands somewhere after
it. -/
def closedEnd? (opening closing : Text) (i : Nat) : Option (Option Nat) :=
  (after? source (i + opening.length)).map fun body =>
    (find? closing body).map (i + opening.length + · + closing.length)

/-- The end of the comment at an offset, if there is one. -/
def commentEnd? (i : Nat) : Option (Option Nat) :=
  match octetsFrom source i with
  | '<' :: '!' :: '-' :: '-' :: _ => closedEnd? source ['<', '!', '-', '-'] ['-', '-', '>'] i
  | '@' :: '*' :: _ => closedEnd? source ['@', '*'] ['*', '@'] i
  | _ => some none

/-- The end of the `n` bytes from an offset on, without the ASCII blanks before it. -/
def trimmedEnd (i n : Nat) : Nat :=
  i + (Text.dropEndWhile Text.isAsciiBlank ((octetsFrom source i).take n)).length

/-- The end of the header at an offset. -/
def headerEnd? (i : Nat) : Option Nat :=
  match headerStop? 0 0 (octetsFrom source i) with
  | some n => some (trimmedEnd source i n)
  | none =>
    (after? source i).map fun rest =>
      trimmedEnd source i (byteLength (rest.takeWhile (· != '\n')))

/-- The end of the continuation header at an offset. -/
def continuationEnd? (isLoopTail : Bool) (i : Nat) : Option Nat :=
  (headerEnd? source i).map fun stop =>
    match continuationStop? isLoopTail (stop - i) 0 0 (octetsFrom source i) with
    | some (n, .semicolon) => i + n + 1
    | some (n, .markup) => trimmedEnd source i n
    | none => stop

/-- The end of the operand after an `await`; the offset itself if there is none. -/
def operandEnd? (i : Nat) : Option Nat := do
  let rest ← after? source i
  let gap := rest.takeWhile fun c => c == ' ' || c == '\t'
  let operand ← after? source (i + byteLength gap)
  if gap.isEmpty || !Text.startsWord operand then pure i
  else pure (i + byteLength gap + byteLength (Text.leadingWord operand))

/-- The end of the chain of members, calls and indices at an offset. -/
def chainEnd? : (steps i : Nat) → Option Nat
  | 0, _ => none
  | steps + 1, i =>
    if (octetsFrom source i).head? = some '.' then do
      let member ← after? source (i + 1)
      if Text.startsWord member then chainEnd? steps (i + 1 + byteLength (Text.leadingWord member))
      else pure i
    else
      match bracketGroup? (octetsFrom source i) with
      | some n => chainEnd? steps (i + n)
      | none => some i

/-- The end of what an expression takes after its first word. -/
def expressionEnd? (isAwait : Bool) (i : Nat) : Option Nat := do
  let start ← if isAwait then operandEnd? source i else pure i
  chainEnd? source (byteLength source + 1) start

/-- What the scanner keeps between two places. -/
structure State where
  /-- The offset of the place. -/
  position : Nat
  /-- The last token's kind and end. -/
  previous : Option (TokenKind × Nat)
  /-- The modes that are open. -/
  modes : List Mode

/-- The state at the start of a source. -/
def State.start : State := ⟨0, none, []⟩

variable (state : State)

/-- Whether the character before the place satisfies `p`. -/
def follows? (p : Char → Bool) : Option Bool :=
  (before? source state.position).map fun front => front.getLast?.any p

/-- Whether only blanks stand between the last token and the place, and the token is a brace. -/
def afterBrace? : Option Bool :=
  match state.previous with
  | some (kind, stop) =>
    if kind = .braceClose then (Text.Span.slice? ⟨stop, state.position⟩ source).map Text.allBlank
    else some false
  | none => some false

/-- The tag at a place. -/
def tag? : Option (Option (TokenKind × Nat)) :=
  if (octetsFrom source state.position).head? = some '<' then do
    let isComparison ←
      if Mode.inCode state.modes then follows? source state Text.isWordChar else pure false
    if isComparison then pure none
    else do
      let rest ← after? source state.position
      pure ((RazorTidy.tag? rest).map fun (kind, n) => (kind, state.position + offset n rest))
  else some none

/-- The token that the `@` at a place starts. -/
def transition? : Option (Option (TokenKind × Nat)) := do
  if ← follows? source state Text.isLetterOrNumeral then pure none
  else if (octetsFrom source (state.position + 1)).head? = some '{' then
    pure (some (.braceOpen, state.position + 2))
  else do
    let rest ← after? source (state.position + 1)
    let word := Text.leadingWord rest
    let start := state.position + 1 + byteLength word
    if !Text.startsWord rest then pure none
    else if isDirectiveWord word then
      (headerEnd? source start).map fun stop => some (.directive, stop)
    else
      (expressionEnd? source (word == "await".toList) start).map fun stop =>
        some (.expression, stop)

/-- The continuation at a place. -/
def continuation? : Option (Option (TokenKind × Nat)) := do
  if ← afterBrace? source state then do
    let rest ← after? source state.position
    let word := Text.leadingWord rest
    if isContinuationWord word then
      (continuationEnd? source (Text.sameName word "while".toList)
        (state.position + byteLength word)).map fun stop => some (.continuation, stop)
    else pure none
  else pure none

/-- The code token at a place. -/
def code? : Option (Option (TokenKind × Nat)) :=
  match octetsFrom source state.position with
  | [] => some none
  | '{' :: _ => some (some (.braceOpen, state.position + 1))
  | '}' :: _ => some (some (.braceClose, state.position + 1))
  | '@' :: _ => transition? source state
  | _ => continuation? source state

/-- The kind and the end of the token at a place. -/
def token? : Option (Option (TokenKind × Nat)) := do
  match ← commentEnd? source state.position with
  | some stop => pure (some (.comment, stop))
  | none =>
    match ← tag? source state with
    | some found => pure (some found)
    | none => code? source state

/-- The end of the code comment at an offset, if there is one. -/
def codeCommentEnd? (i : Nat) : Option (Option Nat) := do
  let rest ← after? source i
  if ['/', '/'].isPrefixOf rest then pure (some (i + byteLength (rest.takeWhile (· != '\n'))))
  else if ['/', '*'].isPrefixOf rest then closedEnd? source ['/', '*'] ['*', '/'] i
  else pure none

/-- The end of the piece of text whose first byte is `c`: in code a literal or a comment, else one
character. -/
def pieceEnd? (c : Char) : Option Nat :=
  let i := state.position
  if Mode.inCode state.modes ∧ isQuote c then
    some (i + 1 + hiddenAfter c (octetsFrom source (i + 1)))
  else if Mode.inCode state.modes ∧ c = '/' then
    (codeCommentEnd? source i).map (·.getD (i + 1))
  else (after? source i).map fun rest => i + offset 1 rest

/-- The end of the text to pass over at a place without a token. -/
def textEnd? : Option Nat :=
  let i := state.position
  match octetsFrom source i with
  | '@' :: '@' :: _ => some (i + 2)
  | '@' :: '(' :: _ => some (i + 1 + (bracketGroup? (octetsFrom source (i + 1))).getD 0)
  | c :: _ => pieceEnd? source state c
  | [] => some i

/-- The end of the raw text after a token that ends at an offset. -/
def rawTextEnd? (token : Token) (i : Nat) : Option Nat :=
  let name := tagName token.text
  if token.kind = .openTag ∧ isRawTextName name then
    (after? source i).map fun rest =>
      match find? ('<' :: '/' :: Text.lower name) (Text.lower rest) with
      | some n => i + n
      | none => byteLength source
  else some i

/-- The tokens from a place on with the byte ranges they take. -/
def scan? : (steps : Nat) → State → Option (List (Token × Nat × Nat))
  | 0, _ => none
  | steps + 1, state =>
    if byteLength source ≤ state.position then some []
    else do
      match ← token? source state with
      | some (kind, stop) =>
        let text ← Text.Span.slice? ⟨state.position, stop⟩ source
        let next ← rawTextEnd? source ⟨kind, text⟩ stop
        let rest ← scan? steps ⟨next, some (kind, stop), Mode.after state.modes ⟨kind, text⟩⟩
        pure ((⟨kind, text⟩, state.position, stop) :: rest)
      | none =>
        let next ← textEnd? source state
        scan? steps { state with position := next }

end Scanner

/-! ## Slices -/

section Slices

variable {source s : Text} {i : Nat}

theorem after?_append (front back : Text) :
    after? (front ++ back) (byteLength front) = some back := by
  rw [after?, cut?_byteLength]
  rfl

/-- The place after some characters of a slice is a place of the source. -/
theorem after?_offset (h : after? source i = some s) (n : Nat) :
    after? source (i + offset n s) = some (s.drop n) := by
  obtain ⟨⟨front, back⟩, hcut, rfl⟩ := Option.map_eq_some_iff.1 h
  obtain ⟨happ, hlength⟩ := Text.cut?_append hcut
  have hsource : source = (front ++ back.take n) ++ back.drop n := by
    rw [List.append_assoc, List.take_append_drop, happ]
  rw [hsource, ← hlength, offset, ← Text.byteLength_append]
  exact after?_append _ _

theorem octetsFrom_eq (h : after? source i = some s) : octetsFrom source i = octets s := by
  obtain ⟨⟨front, back⟩, hcut, rfl⟩ := Option.map_eq_some_iff.1 h
  obtain ⟨happ, hlength⟩ := Text.cut?_append hcut
  rw [octetsFrom, ← happ, ← hlength, Text.drop_octets]

theorem add_byteLength (h : after? source i = some s) : i + byteLength s = byteLength source := by
  obtain ⟨⟨front, back⟩, hcut, rfl⟩ := Option.map_eq_some_iff.1 h
  obtain ⟨happ, hlength⟩ := Text.cut?_append hcut
  rw [← happ, Text.byteLength_append, hlength]

end Slices

/-! ## Comments and headers -/

section Rules

variable {source s : Text} {i : Nat}

/-- Where a pattern is found it stands. -/
theorem drop_indexOf? {pattern s : Text} {n : Nat} (h : Text.indexOf? pattern s = some n) :
    pattern <+: s.drop n := by
  induction s generalizing n with
  | nil =>
    rw [Text.indexOf?] at h
    split at h
    · rename_i hempty
      rw [List.isEmpty_iff.1 hempty]
      exact List.nil_prefix
    · cases h
  | cons c r ih =>
    rw [Text.indexOf?] at h
    split at h
    · rename_i hprefix
      cases h
      exact List.isPrefixOf_iff_prefix.1 hprefix
    · obtain ⟨m, hm, rfl⟩ := Option.map_eq_some_iff.1 h
      exact ih hm

/-- The offset after a pattern that is found. -/
theorem offset_indexOf? {pattern s : Text} {n : Nat} (h : Text.indexOf? pattern s = some n) :
    offset (n + pattern.length) s = offset n s + byteLength pattern := by
  rw [Text.offset_add, Text.offset_of_isPrefix (drop_indexOf? h)]

/-- A part between two ASCII marks ends at the same place, by bytes or by characters. -/
theorem closedEnd?_eq {opening closing r : Text} (h : after? source i = some (opening ++ r))
    (hopening : byteLength opening = opening.length)
    (hclosing : byteLength closing = closing.length) :
    closedEnd? source opening closing i =
      some (((Text.indexOf? closing r).map (· + (opening.length + closing.length))).map
        (i + offset · (opening ++ r))) := by
  have hoffset : offset opening.length (opening ++ r) = opening.length := by
    rw [Text.offset_of_isPrefix (List.prefix_append opening r), hopening]
  have hafter := after?_offset h opening.length
  rw [hoffset, List.drop_left] at hafter
  rw [closedEnd?, hafter, Option.map_some, find?]
  cases hfind : Text.indexOf? closing r with
  | none => rfl
  | some n =>
    have hstop : offset (n + (opening.length + closing.length)) (opening ++ r) =
        opening.length + (offset n r + closing.length) := by
      rw [show n + (opening.length + closing.length) = opening.length + (n + closing.length)
        by omega, Text.offset_add, hoffset, List.drop_left, offset_indexOf? hfind, hclosing]
    simp only [Option.map_some, hstop]
    congr 2
    omega

theorem commentEnd?_eq (h : after? source i = some s) :
    commentEnd? source i = some ((comment? s).map (i + offset · s)) := by
  rw [commentEnd?, octetsFrom_eq h]
  split
  · rename_i t hoctets
    obtain ⟨r₁, hr₁, h₁⟩ := Text.exists_cons_of_octets rfl hoctets
    obtain ⟨r₂, hr₂, h₂⟩ := Text.exists_cons_of_octets rfl h₁.symm
    obtain ⟨r₃, hr₃, h₃⟩ := Text.exists_cons_of_octets rfl h₂.symm
    obtain ⟨r₄, hr₄, h₄⟩ := Text.exists_cons_of_octets rfl h₃.symm
    subst hr₄ hr₃ hr₂ hr₁
    exact closedEnd?_eq h rfl rfl
  · rename_i t hoctets
    obtain ⟨r₁, hr₁, h₁⟩ := Text.exists_cons_of_octets rfl hoctets
    obtain ⟨r₂, hr₂, h₂⟩ := Text.exists_cons_of_octets rfl h₁.symm
    subst hr₂ hr₁
    exact closedEnd?_eq h rfl rfl
  · rename_i hmarkup htemplate
    have hnone : comment? s = none := by
      unfold comment?
      split
      · simp only [Text.octets_cons_of_isAscii (show isAscii '<' = true from rfl),
          Text.octets_cons_of_isAscii (show isAscii '!' = true from rfl),
          Text.octets_cons_of_isAscii (show isAscii '-' = true from rfl)] at hmarkup
        exact absurd rfl (hmarkup _)
      · simp only [Text.octets_cons_of_isAscii (show isAscii '@' = true from rfl),
          Text.octets_cons_of_isAscii (show isAscii '*' = true from rfl)] at htemplate
        exact absurd rfl (htemplate _)
      · rfl
    rw [hnone]
    rfl

/-- Trimming by bytes ends where trimming by characters does. -/
theorem trimmedEnd_eq (h : after? source i = some s) (n : Nat) :
    trimmedEnd source i (offset n s) =
      i + byteLength (Text.dropEndWhile Text.isAsciiBlank (s.take n)) := by
  rw [trimmedEnd, octetsFrom_eq h, Text.take_octets,
    Text.dropEndWhile_octets fun c hc => isAscii_of_isAsciiBlank hc, Text.length_octets]

theorem headerEnd?_eq (h : after? source i = some s) :
    headerEnd? source i = some (i + byteLength (header s)) := by
  have hstop := headerStop?_octets 0 0 s
  rw [Text.offset_zero] at hstop
  rw [headerEnd?, octetsFrom_eq h, hstop, header]
  cases headerStop? 0 0 s with
  | some n => exact congrArg some (trimmedEnd_eq h n)
  | none =>
    have hline := List.takeWhile_prefix (l := s) (· != '\n')
    simp only [Option.map_none, h, Option.map_some, ← Text.offset_of_isPrefix hline,
      trimmedEnd_eq h, ← List.prefix_iff_eq_take.1 hline]

/-- A continuation that stops at a semicolon has one there. -/
theorem head?_of_continuationStop? {isLoopTail : Bool} {limit hidden depth n : Nat} {s : Text}
    (h : continuationStop? isLoopTail limit hidden depth s = some (n, .semicolon)) :
    (s.drop n).head? = some ';' := by
  fun_induction continuationStop? isLoopTail limit hidden depth s generalizing n with
  | case1 => cases h
  | case2 => cases h
  | case3 limit hidden depth c r ih =>
    obtain ⟨⟨m, stop⟩, hm, heq⟩ := Option.map_eq_some_iff.1 h
    cases heq
    exact ih hm
  | case4 limit depth c r hend =>
    cases h
    rw [hend.2.1]
    rfl
  | case5 limit depth c r hend hmarkup => cases h
  | case6 limit depth c r hend hmarkup ih =>
    obtain ⟨⟨m, stop⟩, hm, heq⟩ := Option.map_eq_some_iff.1 h
    cases heq
    exact ih hm

theorem continuationEnd?_eq (h : after? source i = some s) (isLoopTail : Bool) :
    continuationEnd? source isLoopTail i =
      some (i + byteLength (continuationHeader isLoopTail s)) := by
  have hstop := @continuationStop?_octets isLoopTail (header s).length 0 0 s
  rw [Text.offset_of_isPrefix (header_isPrefix s), Text.offset_zero] at hstop
  rw [continuationEnd?, headerEnd?_eq h, Option.map_some, Nat.add_sub_cancel_left, octetsFrom_eq h,
    hstop, continuationHeader]
  rcases hplace : continuationStop? isLoopTail (header s).length 0 0 s with _ | ⟨n, stop⟩
  · rfl
  · cases stop with
    | markup => exact congrArg some (trimmedEnd_eq h n)
    | semicolon =>
      have hhead := head?_of_continuationStop? hplace
      have hmark : offset 1 (s.drop n) = 1 := by
        obtain ⟨r, hr⟩ := List.head?_eq_some_iff.1 hhead
        rw [hr]
        rfl
      have htake : byteLength (s.take (n + 1)) = offset n s + 1 := by
        have hadd := Text.offset_add n 1 s
        rw [hmark] at hadd
        exact hadd
      simp only [Option.map_some, htake]
      rfl

/-! ## Expressions -/

theorem balanced?_bounds {opening closing : Char} {hidden depth n : Nat} {s : Text}
    (h : balanced? opening closing hidden depth s = some n) : 0 < n ∧ n ≤ s.length := by
  -- each step but the last counts one character and goes on behind it
  have hstep : ∀ {c : Char} {r : Text} {found : Option Nat} {n : Nat},
      (∀ {m : Nat}, found = some m → 0 < m ∧ m ≤ r.length) → found.map (· + 1) = some n →
      0 < n ∧ n ≤ (c :: r).length := by
    intro c r found n ih h
    obtain ⟨m, hm, rfl⟩ := Option.map_eq_some_iff.1 h
    have hbounds := ih hm
    rw [List.length_cons]
    omega
  fun_induction balanced? opening closing hidden depth s generalizing n with
  | case1 => cases h
  | case2 hidden depth c r ih => exact hstep ih h
  | case3 depth r ih => exact hstep ih h
  | case4 depth r hne hdepth =>
    cases h
    rw [List.length_cons]
    omega
  | case5 depth r hne hdepth ih => exact hstep ih h
  | case6 depth c r hopening hclosing ih => exact hstep ih h

theorem bracketGroup?_bounds {n : Nat} (h : bracketGroup? s = some n) : 0 < n ∧ n ≤ s.length := by
  unfold bracketGroup? at h
  split at h
  · obtain ⟨m, hm, rfl⟩ := Option.map_eq_some_iff.1 h
    have hbounds := balanced?_bounds hm
    rw [List.length_cons]
    omega
  · obtain ⟨m, hm, rfl⟩ := Option.map_eq_some_iff.1 h
    have hbounds := balanced?_bounds hm
    rw [List.length_cons]
    omega
  · cases h

theorem leadingWord_isPrefix (s : Text) : Text.leadingWord s <+: s := List.takeWhile_prefix _

attribute [local simp] chainLength in
/-- A chain goes on behind the link that it has reached. -/
theorem chainLength_inside {inside : Nat} {s : Text} (h : inside ≤ s.length) :
    chainLength inside s = inside + chainLength 0 (s.drop inside) := by
  induction inside generalizing s with
  | zero => rw [List.drop_zero, Nat.zero_add]
  | succ inside ih =>
    cases s with
    | nil => cases h
    | cons c r =>
      have hlink : chainLength (inside + 1) (c :: r) = chainLength inside r + 1 := by simp
      rw [hlink, ih (Nat.le_of_succ_le_succ h), List.drop_succ_cons]
      omega

theorem chainLength_member (r : Text) :
    chainLength 0 ('.' :: r) =
      if Text.startsWord r then
        1 + (Text.leadingWord r).length +
          chainLength 0 (('.' :: r).drop (1 + (Text.leadingWord r).length))
      else 0 := by
  rw [chainLength, if_pos rfl]
  split
  · rw [chainLength_inside (leadingWord_isPrefix r).length_le, Nat.add_comm 1,
      List.drop_succ_cons]
    omega
  · rfl

theorem chainLength_group {n : Nat} (hdot : s.head? ≠ some '.') (h : bracketGroup? s = some n) :
    chainLength 0 s = n + chainLength 0 (s.drop n) := by
  obtain ⟨hpos, hle⟩ := bracketGroup?_bounds h
  cases s with
  | nil => cases h
  | cons c r =>
    rw [chainLength, if_neg fun hc => hdot (by rw [hc]; rfl), h]
    obtain ⟨m, rfl⟩ : ∃ m, n = m + 1 := ⟨n - 1, by omega⟩
    simp only [Nat.add_sub_cancel, List.drop_succ_cons,
      chainLength_inside (Nat.le_of_succ_le_succ hle)]
    omega

theorem chainLength_end (hdot : s.head? ≠ some '.') (h : bracketGroup? s = none) :
    chainLength 0 s = 0 := by
  cases s with
  | nil => rfl
  | cons c r => rw [chainLength, if_neg fun hc => hdot (by rw [hc]; rfl), h]

/-- Each link of a chain takes a step and at least one byte, so there are steps enough. -/
theorem chainEnd?_eq {steps : Nat} (h : after? source i = some s) (hsteps : byteLength s < steps) :
    chainEnd? source steps i = some (i + offset (chainLength 0 s) s) := by
  induction steps generalizing i s with
  | zero => cases hsteps
  | succ steps ih =>
    -- a link of `n` characters, and the chain behind it
    have hlink : ∀ n : Nat, 0 < n → s ≠ [] →
        chainEnd? source steps (i + offset n s) =
          some (i + offset (n + chainLength 0 (s.drop n)) s) := by
      intro n hn hs
      have hlength := Text.byteLength_drop n s
      have hpos := Text.offset_pos hn hs
      rw [ih (after?_offset h n) (by omega), Text.offset_add, Nat.add_assoc]
    rw [chainEnd?, octetsFrom_eq h, if_congr (Text.head?_octets rfl s) rfl rfl]
    split
    · rename_i hdot
      obtain ⟨r, rfl⟩ := List.head?_eq_some_iff.1 hdot
      have hmember : after? source (i + 1) = some r := after?_offset h 1
      have hword : offset (1 + (Text.leadingWord r).length) ('.' :: r) =
          1 + byteLength (Text.leadingWord r) := by
        rw [Nat.add_comm 1, Text.offset_cons_of_isAscii rfl,
          Text.offset_of_isPrefix (leadingWord_isPrefix r), Nat.add_comm]
      rw [hmember, chainLength_member]
      simp only [Option.bind_eq_bind, Option.bind_some]
      split
      · rw [Nat.add_assoc, ← hword]
        exact hlink _ (by omega) (List.cons_ne_nil _ _)
      · rfl
    · rename_i hdot
      rw [bracketGroup?_octets]
      cases hgroup : bracketGroup? s with
      | none => rw [chainLength_end hdot hgroup]; rfl
      | some n =>
        have hs : s ≠ [] := by
          rintro rfl
          cases hgroup
        rw [chainLength_group hdot hgroup]
        exact hlink n (bracketGroup?_bounds hgroup).1 hs

theorem operandEnd?_eq (h : after? source i = some s) :
    operandEnd? source i = some (i + offset (operandLength s) s) := by
  have hgap := List.takeWhile_prefix (l := s) fun c => c == ' ' || c == '\t'
  have hoperand := after?_offset h (s.takeWhile fun c => c == ' ' || c == '\t').length
  rw [operandEnd?, h, operandLength]
  simp only [Option.bind_eq_bind, Option.bind_some]
  rw [← Text.offset_of_isPrefix hgap, hoperand, Option.bind_some]
  split
  · rfl
  · rw [Text.offset_add, Text.offset_of_isPrefix (leadingWord_isPrefix _), Nat.add_assoc]
    rfl

theorem expressionEnd?_eq (h : after? source i = some s) (isAwait : Bool) :
    expressionEnd? source isAwait i = some (i + offset (expressionRest isAwait s) s) := by
  have hchain : ∀ n : Nat, chainEnd? source (byteLength source + 1) (i + offset n s) =
      some (i + offset (n + chainLength 0 (s.drop n)) s) := by
    intro n
    have hrest := after?_offset h n
    have hlength := add_byteLength hrest
    rw [chainEnd?_eq hrest (by omega), Text.offset_add, Nat.add_assoc]
  rw [expressionEnd?]
  cases isAwait with
  | true =>
    rw [if_pos rfl, operandEnd?_eq h]
    exact hchain (operandLength s)
  | false =>
    rw [if_neg Bool.false_ne_true]
    exact hchain 0

end Rules

/-! ## Tokens -/

/-- The state of the scanner after the text `front` of a source stands for a place of the template,
with the text `rest` still to be scanned. -/
structure Agrees (front rest : Text) (state : State) (place : Place) : Prop where
  position : state.position = byteLength front
  previous : place.previous = front.getLast?
  modes : state.modes = place.modes
  afterBrace : afterBrace? (front ++ rest) state = some place.afterBrace

theorem agrees_start (source : Text) : Agrees [] source State.start Place.start :=
  ⟨rfl, rfl, rfl, rfl⟩

section Tokens

variable {front rest : Text} {state : State} {place : Place}

theorem Agrees.after? (h : Agrees front rest state place) :
    after? (front ++ rest) state.position = some rest := by
  rw [h.position]
  exact after?_append front rest

theorem Agrees.follows? (h : Agrees front rest state place) (p : Char → Bool) :
    follows? (front ++ rest) state p = some (place.follows p) := by
  rw [ByteScan.follows?, before?, h.position, cut?_byteLength, Place.follows, h.previous]
  rfl

theorem tag?_of_head? {s : Text} (h : s.head? ≠ some '<') : RazorTidy.tag? s = none := by
  unfold RazorTidy.tag?
  split
  · exact absurd rfl h
  · exact absurd rfl h
  · exact absurd rfl h
  · rfl

theorem Agrees.tag? (h : Agrees front rest state place) :
    tag? (front ++ rest) state =
      some ((place.tag? rest).map fun (kind, n) => (kind, state.position + offset n rest)) := by
  rw [ByteScan.tag?, octetsFrom_eq h.after?, if_congr (Text.head?_octets rfl rest) rfl rfl,
    h.follows?, h.after?, h.modes, Place.tag?]
  split
  · cases Mode.inCode place.modes with
    | false => rfl
    | true => cases place.follows Text.isWordChar <;> rfl
  · rename_i hhead
    rw [tag?_of_head? hhead, ite_self]
    rfl

theorem Agrees.transition? {r : Text} (h : Agrees front ('@' :: r) state place) :
    transition? (front ++ '@' :: r) state =
      some ((place.transition? r).map fun (kind, n) =>
        (kind, state.position + offset n ('@' :: r))) := by
  have hafter : ByteScan.after? (front ++ '@' :: r) (state.position + 1) = some r :=
    after?_offset h.after? 1
  have hword := Text.offset_of_isPrefix (leadingWord_isPrefix r)
  have hstart : ByteScan.after? (front ++ '@' :: r)
      (state.position + 1 + byteLength (Text.leadingWord r)) =
        some (r.drop (Text.leadingWord r).length) := by
    rw [← hword]
    exact after?_offset hafter _
  -- a token of the `@`, the word and `n` more characters
  have hoffset : ∀ n : Nat, offset (1 + (Text.leadingWord r).length + n) ('@' :: r) =
      1 + byteLength (Text.leadingWord r) + offset n (r.drop (Text.leadingWord r).length) := by
    intro n
    rw [Nat.add_assoc, Nat.add_comm 1, Text.offset_cons_of_isAscii rfl, Text.offset_add, hword]
    omega
  rw [ByteScan.transition?, Place.transition?, h.follows?, octetsFrom_eq hafter, hafter,
    if_congr (Text.head?_octets rfl r) rfl rfl]
  simp only [Option.bind_eq_bind, Option.bind_some, headerEnd?_eq hstart, expressionEnd?_eq hstart]
  split
  · rfl
  split
  · rename_i hbrace
    obtain ⟨r', rfl⟩ := List.head?_eq_some_iff.1 hbrace
    rfl
  by_cases hstarts : Text.startsWord r = true
  · simp only [hstarts, Bool.not_true, Bool.false_eq_true, if_false, if_true]
    split
    · rw [Option.map_some, Option.map_some, hoffset,
        Text.offset_of_isPrefix (header_isPrefix _), ← Nat.add_assoc, ← Nat.add_assoc]
    · rw [Option.map_some, Option.map_some, hoffset, ← Nat.add_assoc, ← Nat.add_assoc]
  · simp only [hstarts, Bool.not_false, if_true, Bool.false_eq_true, if_false]
    rfl

theorem continuationHeader_isPrefix (isLoopTail : Bool) (s : Text) :
    continuationHeader isLoopTail s <+: s := by
  rw [continuationHeader]
  split
  · exact List.take_prefix _ s
  · exact (show Text.dropEndWhile Text.isAsciiBlank _ <+: _ from
      ⟨_, Text.dropEndWhile_append Text.isAsciiBlank _⟩).trans (List.take_prefix _ s)
  · exact header_isPrefix s

theorem Agrees.continuation? (h : Agrees front rest state place) :
    continuation? (front ++ rest) state =
      some ((place.continuation? rest).map fun (kind, n) =>
        (kind, state.position + offset n rest)) := by
  have hword := Text.offset_of_isPrefix (leadingWord_isPrefix rest)
  have hstart := after?_offset h.after? (Text.leadingWord rest).length
  rw [hword] at hstart
  rw [ByteScan.continuation?, Place.continuation?, h.afterBrace, h.after?]
  simp only [Option.bind_eq_bind, Option.bind_some]
  cases place.afterBrace with
  | false => rfl
  | true =>
    rw [if_pos rfl, Bool.true_and]
    split
    · rw [continuationEnd?_eq hstart, Option.map_some, Option.map_some, Text.offset_add, hword,
        Text.offset_of_isPrefix (continuationHeader_isPrefix _ _), Nat.add_assoc]
    · rfl

theorem Agrees.code? (h : Agrees front rest state place) :
    code? (front ++ rest) state =
      some ((place.code? rest).map fun (kind, n) => (kind, state.position + offset n rest)) := by
  rw [ByteScan.code?, octetsFrom_eq h.after?]
  split
  · rename_i hnil
    cases rest with
    | nil => rfl
    | cons c r => exact absurd hnil (Text.octets_ne_nil (List.cons_ne_nil c r))
  · rename_i hoctets
    obtain ⟨r, rfl, -⟩ := Text.exists_cons_of_octets rfl hoctets
    rfl
  · rename_i hoctets
    obtain ⟨r, rfl, -⟩ := Text.exists_cons_of_octets rfl hoctets
    rfl
  · rename_i hoctets
    obtain ⟨r, rfl, -⟩ := Text.exists_cons_of_octets rfl hoctets
    exact h.transition?
  · rename_i hnil hopen hclose hat
    rw [h.continuation?]
    congr 2
    unfold Place.code?
    split
    · exact absurd rfl hnil
    · exact absurd (Text.octets_cons_of_isAscii rfl _) (hopen _)
    · exact absurd (Text.octets_cons_of_isAscii rfl _) (hclose _)
    · exact absurd (Text.octets_cons_of_isAscii rfl _) (hat _)
    · rfl

/-- The scanner finds the token that stands at the place. -/
theorem Agrees.token? (h : Agrees front rest state place) :
    token? (front ++ rest) state =
      some ((place.token? rest).map fun (kind, n) => (kind, state.position + offset n rest)) := by
  rw [ByteScan.token?, commentEnd?_eq h.after?, h.tag?, h.code?, Place.token?]
  cases comment? rest with
  | some n => rfl
  | none => cases place.tag? rest <;> rfl

/-! ## Text between the tokens -/

theorem codeComment?_of_ne {c : Char} (h : c ≠ '/') (r : Text) : codeComment? (c :: r) = none := by
  unfold codeComment?
  split
  · rename_i heq
    cases heq
    exact absurd rfl h
  · rename_i heq
    cases heq
    exact absurd rfl h
  · rfl

theorem codeCommentEnd?_eq {source s : Text} {i : Nat} (h : ByteScan.after? source i = some s) :
    codeCommentEnd? source i = some ((codeComment? s).map (i + offset · s)) := by
  rw [codeCommentEnd?, h, Option.bind_eq_bind, Option.bind_some]
  split
  · rename_i hline
    obtain ⟨r, rfl⟩ := List.isPrefixOf_iff_prefix.1 hline
    have hrest := Text.offset_of_isPrefix (List.takeWhile_prefix (l := r) (· != '\n'))
    have hstart : byteLength (('/' :: '/' :: r).takeWhile (· != '\n')) =
        byteLength (r.takeWhile (· != '\n')) + 1 + 1 := by
      rw [List.takeWhile_cons_of_pos rfl, List.takeWhile_cons_of_pos rfl, byteLength, byteLength,
        Text.utf8Size_of_isAscii (c := '/') rfl]
      omega
    simp only [codeComment?, List.cons_append, List.nil_append, Option.map_some, hstart,
      Text.offset_cons_of_isAscii (show isAscii '/' = true from rfl), hrest]
    rfl
  split
  · rename_i hblock
    obtain ⟨r, rfl⟩ := List.isPrefixOf_iff_prefix.1 hblock
    exact closedEnd?_eq h rfl rfl
  · rename_i hline hblock
    have hnone : codeComment? s = none := by
      unfold codeComment?
      split
      · exact absurd rfl hline
      · exact absurd rfl hblock
      · rfl
    rw [hnone]
    rfl

/-- The scanner passes over the literal, the comment or the character at a place. -/
theorem Agrees.pieceEnd? {c d : Char} {r t : Text} (h : Agrees front (c :: r) state place)
    (hoctets : octets (c :: r) = d :: t) :
    pieceEnd? (front ++ c :: r) state d =
      some (state.position + offset
        (if Mode.inCode place.modes then (codeComment? (c :: r)).getD (hiddenAfter c r + 1) else 1)
        (c :: r)) := by
  rw [ByteScan.pieceEnd?]
  simp only [isQuote_octet hoctets, Text.octet_eq_iff hoctets (show isAscii '/' = true from rfl),
    h.modes]
  cases Mode.inCode place.modes with
  | false =>
    simp only [Bool.false_eq_true, false_and, if_false, h.after?]
    rfl
  | true =>
    by_cases hc : isQuote c = true
    · have hascii := isAscii_of_isQuote hc
      have hafter : ByteScan.after? (front ++ c :: r) (state.position + 1) = some r := by
        have hnext := after?_offset h.after? 1
        rw [Text.offset_succ, Text.utf8Size_of_isAscii hascii] at hnext
        exact hnext
      have hslash : c ≠ '/' := by
        rintro rfl
        cases hc
      rw [if_pos ⟨rfl, hc⟩, if_pos rfl, codeComment?_of_ne hslash,
        (Text.octet_eq_iff hoctets hascii).2 rfl, octetsFrom_eq hafter, hiddenAfter_octets,
        Option.getD_none, Text.offset_cons_of_isAscii hascii]
      congr 1
      omega
    · rw [if_neg fun hcode => hc hcode.2, if_pos rfl, hiddenAfter_of_not_isQuote hc]
      by_cases hslash : c = '/'
      · subst hslash
        rw [if_pos ⟨rfl, rfl⟩, codeCommentEnd?_eq h.after?]
        cases codeComment? ('/' :: r) <;> rfl
      · rw [if_neg fun hcode => hslash hcode.2, codeComment?_of_ne hslash, h.after?]
        rfl

/-- The length of the text to pass over, away from an escaped `@` and an explicit expression. -/
theorem textLength_cons {c : Char} {r : Text} (hat : ∀ t, c :: r ≠ '@' :: '@' :: t)
    (hgroup : ∀ t, c :: r ≠ '@' :: '(' :: t) :
    place.textLength (c :: r) =
      if Mode.inCode place.modes then (codeComment? (c :: r)).getD (hiddenAfter c r + 1)
      else 1 := by
  unfold Place.textLength
  split
  · rename_i heq
    exact absurd heq (hat _)
  · rename_i heq
    exact absurd heq (hgroup _)
  · rename_i heq
    cases heq
    rfl
  · rename_i heq
    cases heq

/-- The scanner passes over the text that the place passes over. -/
theorem Agrees.textEnd? (h : Agrees front rest state place) :
    textEnd? (front ++ rest) state =
      some (state.position + offset (place.textLength rest) rest) := by
  rw [ByteScan.textEnd?]
  simp only [octetsFrom_eq h.after?]
  split
  · rename_i hoctets
    obtain ⟨r₁, hr₁, h₁⟩ := Text.exists_cons_of_octets rfl hoctets
    obtain ⟨r₂, hr₂, -⟩ := Text.exists_cons_of_octets rfl h₁.symm
    subst hr₂ hr₁
    rfl
  · rename_i hoctets
    obtain ⟨r₁, hr₁, h₁⟩ := Text.exists_cons_of_octets rfl hoctets
    obtain ⟨r₂, hr₂, -⟩ := Text.exists_cons_of_octets rfl h₁.symm
    subst hr₂ hr₁
    have hafter : ByteScan.after? (front ++ '@' :: '(' :: r₂) (state.position + 1) =
        some ('(' :: r₂) := after?_offset h.after? 1
    rw [octetsFrom_eq hafter, bracketGroup?_octets, Place.textLength,
      Text.offset_cons_of_isAscii rfl]
    cases bracketGroup? ('(' :: r₂) with
    | none => rfl
    | some n =>
      simp only [Option.map_some, Option.getD_some]
      congr 1
      omega
  · rename_i d t hat hgroup hoctets
    cases rest with
    | nil => cases hoctets
    | cons c r =>
      -- a text that starts with one of the two pairs has it in its bytes too
      have hpair : ∀ (mark : Char) (u : Text), isAscii mark = true → c :: r = '@' :: mark :: u →
          d = '@' ∧ t = mark :: octets u := by
        intro mark u hmark heq
        rw [heq, Text.octets_cons_of_isAscii rfl, Text.octets_cons_of_isAscii hmark] at hoctets
        exact ⟨(List.cons.inj hoctets).1.symm, (List.cons.inj hoctets).2.symm⟩
      rw [h.pieceEnd? hoctets, textLength_cons]
      · intro u hu
        exact hat _ (hpair '@' u rfl hu).1 (hpair '@' u rfl hu).2
      · intro u hu
        exact hgroup _ (hpair '(' u rfl hu).1 (hpair '(' u rfl hu).2
  · rename_i hnil
    cases rest with
    | nil => rfl
    | cons c r => exact absurd hnil (Text.octets_ne_nil (List.cons_ne_nil c r))

theorem rawTextEnd?_eq {source s : Text} {i : Nat} (h : ByteScan.after? source i = some s)
    (token : Token) :
    rawTextEnd? source token i = some (i + offset (rawTextLength token s) s) := by
  rw [rawTextEnd?, rawTextLength, h]
  simp only [Option.map_some, find?]
  split
  · cases Text.indexOf? ('<' :: '/' :: Text.lower (tagName token.text)) (Text.lower s) with
    | none =>
      rw [Option.map_none, Option.getD_none, Text.offset_length, add_byteLength h]
    | some n => rw [Option.map_some, Option.getD_some, Text.offset_lower]
  · rfl

end Tokens

end RazorTidy.ByteScan
