import RazorTidy.Proofs.PlainTokens
import Mathlib.Data.List.Induction

/-!
# Texts byte by byte

A rule that looks at single bytes sees a text as `Text.octets`: each byte of its encoding as a
character of its own. An ASCII character is one byte and stays what it is, and the bytes of any
other character are no ASCII characters. So a search for ASCII marks, run over the bytes, finds the
place that it finds over the characters, and this place lies between two characters. This holds for
literals (`literalRest?_octets`), brackets (`bracketGroup?_octets`) and the ends of headers
(`headerStop?_octets`, `continuationStop?_octets`); `Text.offset` says where in the bytes a place
is. A backslash hides one byte where it hides one character, and the other bytes of that character
are passed over one by one.
-/

set_option autoImplicit false

namespace RazorTidy

namespace Text

/-- The bytes of a text, each as a character of its own. -/
def octets (s : Text) : Text := (bytes s).map Char.ofUInt8

/-- Whether a character is an ASCII character. -/
def isAscii (c : Char) : Bool := c.toNat < 128

/-- The byte offset of the place after the first `n` characters. -/
def offset (n : Nat) (s : Text) : Nat := byteLength (s.take n)

/-! ## Bytes of single characters -/

theorem octets_append (s t : Text) : octets (s ++ t) = octets s ++ octets t := by
  simp [octets, bytes]

theorem octets_cons (c : Char) (r : Text) : octets (c :: r) = octets [c] ++ octets r :=
  octets_append [c] r

/-- An ASCII character is its own byte. -/
theorem octets_singleton {c : Char} (h : isAscii c = true) : octets [c] = [c] := by
  rw [isAscii, decide_eq_true_eq] at h
  have hle : c.val.toNat ≤ 127 := Nat.le_of_lt_succ h
  have hchar : Char.ofUInt8 (UInt8.ofNat c.val.toNat) = c := by
    apply Char.ext
    apply UInt32.toNat.inj
    show (UInt8.ofNat c.val.toNat).toUInt32.toNat = c.val.toNat
    rw [UInt8.toNat_toUInt32, UInt8.toNat_ofNat']
    omega
  simp only [octets, bytes, List.flatMap_cons, List.flatMap_nil, List.append_nil,
    String.utf8EncodeChar, hle, if_true, List.map_cons, List.map_nil, hchar]

/-- The bytes of a character that is not ASCII are not ASCII. -/
theorem isAscii_of_mem_octets {c d : Char} (h : isAscii c = false) (hd : d ∈ octets [c]) :
    isAscii d = false := by
  rw [isAscii, decide_eq_false_iff_not] at h
  have hle : ¬ c.val.toNat ≤ 127 := fun hle => h (Nat.lt_succ_of_le hle)
  have hbytes : ∀ b ∈ String.utf8EncodeChar c, 128 ≤ b.toNat := by
    intro b hb
    simp only [String.utf8EncodeChar, hle, if_false] at hb
    -- the leading byte has its high bits set, and so has each that follows
    split at hb
    · simp only [List.mem_cons, List.not_mem_nil, or_false] at hb
      rcases hb with rfl | rfl <;> simp only [UInt8.toNat_ofNat'] <;> omega
    split at hb
    · simp only [List.mem_cons, List.not_mem_nil, or_false] at hb
      rcases hb with rfl | rfl | rfl <;> simp only [UInt8.toNat_ofNat'] <;> omega
    · simp only [List.mem_cons, List.not_mem_nil, or_false] at hb
      rcases hb with rfl | rfl | rfl | rfl <;> simp only [UInt8.toNat_ofNat'] <;> omega
  simp only [octets, bytes, List.flatMap_cons, List.flatMap_nil, List.append_nil,
    List.mem_map] at hd
  obtain ⟨b, hb, rfl⟩ := hd
  have hnat : (Char.ofUInt8 b).toNat = b.toNat := UInt8.toNat_toUInt32 b
  rw [isAscii, hnat, decide_eq_false_iff_not]
  have hge := hbytes b hb
  omega

theorem length_octets (s : Text) : (octets s).length = byteLength s := by
  induction s with
  | nil => rfl
  | cons c r ih =>
    rw [octets_cons, List.length_append, ih, byteLength]
    simp [octets, bytes, String.length_utf8EncodeChar]

theorem byteLength_singleton (c : Char) : byteLength [c] = c.utf8Size := rfl

theorem utf8Size_of_isAscii {c : Char} (h : isAscii c = true) : c.utf8Size = 1 := by
  rw [← byteLength_singleton, ← length_octets, octets_singleton h]
  rfl

theorem octets_cons_of_isAscii {c : Char} (h : isAscii c = true) (r : Text) :
    octets (c :: r) = c :: octets r := by
  rw [octets_cons, octets_singleton h]
  rfl

/-- The bytes of a text start with an ASCII character or with the bytes of another one. -/
theorem octets_cases (c : Char) (r : Text) :
    (isAscii c = true ∧ c.utf8Size = 1 ∧ octets (c :: r) = c :: octets r) ∨
      (isAscii c = false ∧ ∃ (d : Char) (wide : Text), (∀ e ∈ d :: wide, isAscii e = false) ∧
        (d :: wide).length = c.utf8Size ∧ octets (c :: r) = d :: wide ++ octets r) := by
  cases hc : isAscii c with
  | true =>
    exact Or.inl ⟨rfl, utf8Size_of_isAscii hc, octets_cons_of_isAscii hc r⟩
  | false =>
    have hlength : (octets [c]).length = c.utf8Size := length_octets [c]
    have happ := octets_cons c r
    cases hwide : octets [c] with
    | nil =>
      rw [hwide, List.length_nil] at hlength
      exact absurd hlength (Nat.ne_of_lt c.utf8Size_pos)
    | cons d wide =>
      rw [hwide] at hlength happ
      exact Or.inr ⟨rfl, d, wide, fun e he => isAscii_of_mem_octets hc (hwide ▸ he), hlength, happ⟩

theorem ne_of_isAscii {c d : Char} (hc : isAscii c = false) (hd : isAscii d = true) : c ≠ d := by
  rintro rfl
  rw [hc] at hd
  cases hd

/-- The bytes of a text start with an ASCII mark exactly where the text does. -/
theorem head?_octets {c : Char} (hc : isAscii c = true) (s : Text) :
    (octets s).head? = some c ↔ s.head? = some c := by
  cases s with
  | nil => rfl
  | cons d r =>
    rcases octets_cases d r with ⟨-, -, heq⟩ | ⟨hd, e, wide, hwide, -, heq⟩
    · rw [heq]
      rfl
    · have he := hwide e List.mem_cons_self
      rw [heq]
      simp only [List.cons_append, List.head?_cons, Option.some.injEq]
      exact ⟨fun h => absurd h (ne_of_isAscii he hc), fun h => absurd h (ne_of_isAscii hd hc)⟩

/-- A text whose bytes start with an ASCII mark starts with this mark. -/
theorem exists_cons_of_octets {c : Char} (hc : isAscii c = true) {s t : Text}
    (h : octets s = c :: t) : ∃ r, s = c :: r ∧ t = octets r := by
  have hhead : s.head? = some c := (head?_octets hc s).1 (by rw [h]; rfl)
  cases s with
  | nil => cases hhead
  | cons d r =>
    cases hhead
    rw [octets_cons_of_isAscii hc] at h
    exact ⟨r, rfl, (List.cons.inj h).2.symm⟩

/-- The first byte of a text is an ASCII mark exactly if its first character is. -/
theorem octet_eq_iff {c d : Char} {r t : Text} (h : octets (c :: r) = d :: t) {mark : Char}
    (hmark : isAscii mark = true) : d = mark ↔ c = mark := by
  have hhead := head?_octets hmark (c :: r)
  rw [h, List.head?_cons, List.head?_cons, Option.some.injEq, Option.some.injEq] at hhead
  exact hhead

theorem byteLength_pos {s : Text} (h : s ≠ []) : 0 < byteLength s := by
  cases s with
  | nil => exact absurd rfl h
  | cons c r => exact Nat.add_pos_left c.utf8Size_pos _

theorem octets_ne_nil {s : Text} (hs : s ≠ []) : octets s ≠ [] := by
  intro h
  have hpos := byteLength_pos hs
  rw [← length_octets, h] at hpos
  exact absurd hpos (by decide)

/-! ## Offsets -/

@[simp] theorem offset_zero (s : Text) : offset 0 s = 0 := rfl

@[simp] theorem offset_nil (n : Nat) : offset n [] = 0 := by
  rw [offset, List.take_nil]
  rfl

@[simp] theorem offset_succ (n : Nat) (c : Char) (r : Text) :
    offset (n + 1) (c :: r) = c.utf8Size + offset n r := rfl

theorem offset_cons_of_isAscii {c : Char} (hc : isAscii c = true) (n : Nat) (r : Text) :
    offset (n + 1) (c :: r) = offset n r + 1 := by
  rw [offset_succ, utf8Size_of_isAscii hc, Nat.add_comm]

theorem offset_length (s : Text) : offset s.length s = byteLength s := by
  rw [offset, List.take_length]

theorem offset_pos {n : Nat} (hn : 0 < n) {s : Text} (hs : s ≠ []) : 0 < offset n s := by
  apply byteLength_pos
  rw [ne_eq, List.take_eq_nil_iff, not_or]
  exact ⟨Nat.ne_of_gt hn, hs⟩

/-- What is left after some characters is shorter by their bytes. -/
theorem byteLength_drop (n : Nat) (s : Text) :
    byteLength (s.drop n) + offset n s = byteLength s := by
  rw [offset, Nat.add_comm, ← byteLength_append, List.take_append_drop]

/-- A place further on by one character is further on by all its bytes. -/
theorem map_offset_succ (c : Char) (r : Text) (place : Option Nat) :
    (place.map (offset · r)).map (· + c.utf8Size) =
      (place.map (· + 1)).map (offset · (c :: r)) := by
  cases place with
  | none => rfl
  | some n => simp [Nat.add_comm]

theorem offset_add (m n : Nat) (s : Text) :
    offset (m + n) s = offset m s + offset n (s.drop m) := by
  rw [offset, offset, offset, ← byteLength_append, ← List.take_add]

theorem offset_of_isPrefix {t s : Text} (h : t <+: s) : offset t.length s = byteLength t := by
  rw [offset, List.prefix_iff_eq_take.1 h, List.length_take]
  congr 2
  have hle := h.length_le
  omega

theorem take_octets (n : Nat) (s : Text) : (octets s).take (offset n s) = octets (s.take n) := by
  conv => lhs; rw [← List.take_append_drop n s, octets_append]
  rw [List.take_append_drop, offset, ← length_octets]
  exact List.take_left

theorem drop_octets (front back : Text) :
    (octets (front ++ back)).drop (byteLength front) = octets back := by
  rw [octets_append, ← length_octets]
  exact List.drop_left

/-- Trimming ASCII characters off the end is the same for bytes and for characters. -/
theorem dropEndWhile_octets {p : Char → Bool} (hp : ∀ c, p c = true → isAscii c = true) (s : Text) :
    dropEndWhile p (octets s) = octets (dropEndWhile p s) := by
  induction s using List.reverseRecOn with
  | nil => rfl
  | append_singleton t c ih =>
    rw [octets_append]
    cases hpc : p c with
    | true =>
      rw [octets_singleton (hp c hpc), dropEndWhile, dropEndWhile, List.reverse_append,
        List.reverse_append, List.reverse_singleton, List.singleton_append, List.singleton_append,
        List.dropWhile_cons, List.dropWhile_cons, hpc]
      exact ih
    | false =>
      -- the last byte stays, whether it is the character or the last one of several
      have hkeep : ∀ (u : Text) (d : Char), p d = false → dropEndWhile p (u ++ [d]) = u ++ [d] := by
        intro u d hd
        rw [dropEndWhile, List.reverse_append, List.reverse_singleton, List.singleton_append,
          List.dropWhile_cons, hd]
        simp
      rw [hkeep t c hpc, octets_append]
      rcases octets_cases c [] with ⟨hc, -, -⟩ | ⟨-, d, wide, hwide, -, heq⟩
      · rw [octets_singleton hc]
        exact hkeep _ _ hpc
      · rcases List.eq_nil_or_concat (d :: wide) with hnil | ⟨wide', e, hlast⟩
        · cases hnil
        · rw [hlast, List.concat_eq_append] at hwide heq
          rw [heq, show octets [] = [] from rfl, List.append_nil, ← List.append_assoc]
          apply hkeep
          have he := hwide e (by simp)
          by_contra hpe
          rw [Bool.not_eq_false] at hpe
          rw [hp e hpe] at he
          cases he

/-- Lowering the case changes no length in bytes. -/
theorem utf8Size_toLower (c : Char) : c.toLower.utf8Size = c.utf8Size := by
  rcases toLower_cases c with ⟨-, hle, hlower⟩ | hsame
  · -- a capital and its small letter are both ASCII
    have hc : isAscii c = true := decide_eq_true (show c.toNat < 128 by omega)
    have hl : isAscii c.toLower = true := decide_eq_true (show c.toLower.toNat < 128 by omega)
    rw [utf8Size_of_isAscii hc, utf8Size_of_isAscii hl]
  · rw [hsame]

theorem offset_lower (n : Nat) (s : Text) : offset n (lower s) = offset n s := by
  induction s generalizing n with
  | nil => rfl
  | cons c r ih =>
    cases n with
    | zero => rfl
    | succ n =>
      rw [offset_succ, ← ih, ← utf8Size_toLower]
      rfl

end Text

open Text (octets offset isAscii)

theorem isAscii_of_isAsciiBlank {c : Char} (h : Text.isAsciiBlank c = true) : isAscii c = true := by
  simp only [Text.isAsciiBlank, Bool.or_eq_true, beq_iff_eq] at h
  rcases h with (((rfl | rfl) | rfl) | rfl) | rfl <;> rfl

theorem isAscii_of_isQuote {c : Char} (h : isQuote c = true) : isAscii c = true := by
  simp only [isQuote, Bool.or_eq_true, beq_iff_eq] at h
  rcases h with rfl | rfl <;> rfl

theorem isQuote_octet {c d : Char} {r t : Text} (h : octets (c :: r) = d :: t) :
    isQuote d = isQuote c := by
  rw [isQuote, isQuote, Bool.eq_iff_iff, Bool.or_eq_true, Bool.or_eq_true, beq_iff_eq, beq_iff_eq,
    beq_iff_eq, beq_iff_eq, Text.octet_eq_iff h rfl, Text.octet_eq_iff h rfl]

/-! ## Literals -/

/-- Bytes that are not ASCII do not end a literal. -/
theorem literalRest?_wide {q : Char} (hq : isQuote q = true) {wide : Text}
    (h : ∀ d ∈ wide, isAscii d = false) (r : Text) :
    literalRest? q (wide ++ r) = (literalRest? q r).map (· + wide.length) := by
  induction wide with
  | nil => simp
  | cons d wide' ih =>
    have hd := h d List.mem_cons_self
    rw [List.cons_append, literalRest?_of_ne (Text.ne_of_isAscii hd (isAscii_of_isQuote hq))
      (Text.ne_of_isAscii hd rfl) (Text.ne_of_isAscii hd rfl),
      ih fun e he => h e (List.mem_cons_of_mem d he), Option.map_map]
    rfl

/-- A literal ends at the same place, searched by bytes or by characters. -/
theorem literalRest?_octets {q : Char} (hq : isQuote q = true) (s : Text) :
    literalRest? q (octets s) = (literalRest? q s).map (offset · s) := by
  fun_induction literalRest? q s with
  | case1 => rfl
  | case2 => rfl
  | case3 d r ih =>
    have hresult : (literalRest? q (octets r)).map (· + d.utf8Size + 1) =
        ((literalRest? q r).map (· + 2)).map (offset · ('\\' :: d :: r)) := by
      rw [ih]
      cases literalRest? q r with
      | none => rfl
      | some n => simp [Text.utf8Size_of_isAscii (c := '\\') rfl, Nat.add_comm]
    rw [Text.octets_cons_of_isAscii rfl, ← hresult]
    -- the backslash hides the first byte of the next character, which may have more
    rcases Text.octets_cases d r with ⟨-, hsize, heq⟩ | ⟨-, e, wide, hwide, hlength, heq⟩
    · rw [heq, literalRest?, hsize]
    · rw [heq, List.cons_append, literalRest?,
        literalRest?_wide hq fun f hf => hwide f (List.mem_cons_of_mem e hf), Option.map_map,
        ← hlength]
      rfl
  | case4 r =>
    rw [Text.octets_cons_of_isAscii rfl, literalRest?]
    rfl
  | case5 r hescape hpair hline =>
    rw [Text.octets_cons_of_isAscii (isAscii_of_isQuote hq), literalRest?_close hq]
    simp [Text.utf8Size_of_isAscii (isAscii_of_isQuote hq)]
  | case6 c r hescape hpair hline hc ih =>
    rcases Text.octets_cases c r with ⟨-, hsize, heq⟩ | ⟨-, d, wide, hwide, hlength, heq⟩
    · have hslash : c ≠ '\\' := by
        intro hslash
        cases r with
        | nil => exact hescape hslash rfl
        | cons d r' => exact hpair d r' hslash rfl
      rw [heq, literalRest?_of_ne hc hslash hline, ih, ← Text.map_offset_succ, hsize]
    · rw [heq, literalRest?_wide hq hwide, ih, hlength, Text.map_offset_succ]

/-- A quote hides the same part of a text, by bytes or by characters. -/
theorem hiddenAfter_octets (c : Char) (r : Text) :
    hiddenAfter c (octets r) = offset (hiddenAfter c r) r := by
  rw [hiddenAfter, hiddenAfter]
  split
  · rename_i hc
    rw [literalRest?_octets hc]
    cases literalRest? c r <;> rfl
  · rfl

theorem hiddenAfter_of_not_isQuote {c : Char} (h : ¬ isQuote c = true) (r : Text) :
    hiddenAfter c r = 0 := by
  rw [hiddenAfter, if_neg h]

theorem hiddenAfter_wide {c : Char} (h : isAscii c = false) (r : Text) : hiddenAfter c r = 0 := by
  apply hiddenAfter_of_not_isQuote
  intro hc
  rw [isAscii_of_isQuote hc] at h
  cases h

/-! ## Brackets -/

section Brackets

variable {opening closing : Char}

attribute [local simp] balanced? in
/-- Hidden characters are passed over. -/
theorem balanced?_skip (skipped : Text) (hidden depth : Nat) (r : Text) :
    balanced? opening closing (skipped.length + hidden) depth (skipped ++ r) =
      (balanced? opening closing hidden depth r).map (· + skipped.length) := by
  induction skipped with
  | nil => simp
  | cons c skipped' ih =>
    rw [List.length_cons, show skipped'.length + 1 + hidden = skipped'.length + hidden + 1 by omega]
    simp [ih, Function.comp_def, Nat.add_assoc]

/-- Bytes that are not ASCII are no brackets and hide nothing. -/
theorem balanced?_wide (hopening : isAscii opening = true) (hclosing : isAscii closing = true)
    {wide : Text} (h : ∀ d ∈ wide, isAscii d = false) (depth : Nat) (r : Text) :
    balanced? opening closing 0 depth (wide ++ r) =
      (balanced? opening closing 0 depth r).map (· + wide.length) := by
  induction wide with
  | nil => simp
  | cons d wide' ih =>
    have hd := h d List.mem_cons_self
    rw [List.cons_append, balanced?, if_neg (Text.ne_of_isAscii hd hopening),
      if_neg (Text.ne_of_isAscii hd hclosing), hiddenAfter_wide hd,
      ih fun e he => h e (List.mem_cons_of_mem d he), Option.map_map]
    rfl

/-- A group of brackets ends at the same place, searched by bytes or by characters. -/
theorem balanced?_octets (hopening : isAscii opening = true) (hclosing : isAscii closing = true)
    (hidden depth : Nat) (s : Text) :
    balanced? opening closing (offset hidden s) depth (octets s) =
      (balanced? opening closing hidden depth s).map (offset · s) := by
  induction s generalizing hidden depth with
  | nil => cases hidden <;> rfl
  | cons c r ih =>
    have hmap := Text.map_offset_succ c r
    cases hidden with
    | succ hidden' =>
      rw [Text.offset_succ, ← Text.byteLength_singleton, ← Text.length_octets,
        Text.octets_cons c r, balanced?_skip, Text.length_octets, Text.byteLength_singleton, ih,
        balanced?, hmap]
    | zero =>
      rw [Text.offset_zero]
      rcases Text.octets_cases c r with ⟨-, hsize, heq⟩ | ⟨hc, d, wide, hwide, hlength, heq⟩
      · have hdeeper := fun depth' => ih 0 depth'
        simp only [Text.offset_zero] at hdeeper
        rw [hsize] at hmap
        rw [heq, balanced?, balanced?]
        split
        · rw [hdeeper, hmap]
        split
        · split
          · simp [hsize]
          · rw [hdeeper, hmap]
        · rw [hiddenAfter_octets, ih, hmap]
      · have hrest := ih 0 depth
        rw [Text.offset_zero] at hrest
        rw [heq, balanced?_wide hopening hclosing hwide, hrest, hlength, hmap, balanced?,
          if_neg (Text.ne_of_isAscii hc hopening), if_neg (Text.ne_of_isAscii hc hclosing),
          hiddenAfter_wide hc]

end Brackets

theorem bracketGroup?_of_ne {c : Char} (hround : c ≠ '(') (hsquare : c ≠ '[') (r : Text) :
    bracketGroup? (c :: r) = none := by
  unfold bracketGroup?
  split
  · rename_i heq
    cases heq
    exact absurd rfl hround
  · rename_i heq
    cases heq
    exact absurd rfl hsquare
  · rfl

/-- The group of brackets at the start of a text is the same, by bytes or by characters. -/
theorem bracketGroup?_octets (s : Text) :
    bracketGroup? (octets s) = (bracketGroup? s).map (offset · s) := by
  have hgroup : ∀ opening closing : Char, isAscii opening = true → isAscii closing = true →
      ∀ r : Text, (balanced? opening closing 0 1 (octets r)).map (· + 1) =
        ((balanced? opening closing 0 1 r).map (· + 1)).map (offset · (opening :: r)) := by
    intro opening closing hopening hclosing r
    have hbalanced := balanced?_octets hopening hclosing 0 1 r
    rw [Text.offset_zero] at hbalanced
    rw [hbalanced]
    cases balanced? opening closing 0 1 r with
    | none => rfl
    | some n => simp [Text.utf8Size_of_isAscii hopening, Nat.add_comm]
  cases s with
  | nil => rfl
  | cons c r =>
    by_cases hround : c = '('
    · subst hround
      rw [Text.octets_cons_of_isAscii rfl]
      exact hgroup '(' ')' rfl rfl r
    by_cases hsquare : c = '['
    · subst hsquare
      rw [Text.octets_cons_of_isAscii rfl]
      exact hgroup '[' ']' rfl rfl r
    -- neither the character nor its first byte is a bracket
    rw [bracketGroup?_of_ne hround hsquare]
    have hhead : ∀ d : Char, isAscii d = true → d ≠ c → (octets (c :: r)).head? ≠ some d := by
      intro d hd hne hhead
      rw [Text.head?_octets hd] at hhead
      exact hne (Option.some.inj hhead).symm
    cases hoctets : octets (c :: r) with
    | nil => rfl
    | cons d u =>
      rw [hoctets] at hhead
      exact bracketGroup?_of_ne
        (fun hd => hhead '(' rfl (fun h => hround h.symm) (by rw [hd]; rfl))
        (fun hd => hhead '[' rfl (fun h => hsquare h.symm) (by rw [hd]; rfl)) u

/-! ## Headers -/

theorem bracketDepth_wide {c : Char} (h : isAscii c = false) (depth : Nat) :
    bracketDepth depth c = depth := by
  rw [bracketDepth, if_neg, if_neg]
  · rintro (rfl | rfl) <;> cases h
  · rintro (rfl | rfl) <;> cases h

theorem endsHeader_wide {c : Char} (h : isAscii c = false) (r : Text) : endsHeader c r = false := by
  have hne : ∀ d : Char, isAscii d = true → c ≠ d := fun d hd => Text.ne_of_isAscii h hd
  simp [endsHeader, hne '{' rfl, hne '}' rfl, hne '\n' rfl, hne '<' rfl]

/-- Whether a character ends a header does not depend on how wide the next one is. -/
theorem endsHeader_octets (c : Char) (r : Text) : endsHeader c (octets r) = endsHeader c r := by
  have hslash : ((octets r).head? == some '/') = (r.head? == some '/') := by
    rw [Bool.eq_iff_iff, beq_iff_eq, beq_iff_eq]
    exact Text.head?_octets rfl r
  rw [endsHeader, endsHeader, hslash]

attribute [local simp] headerStop? in
theorem headerStop?_skip (skipped : Text) (hidden depth : Nat) (r : Text) :
    headerStop? (skipped.length + hidden) depth (skipped ++ r) =
      (headerStop? hidden depth r).map (· + skipped.length) := by
  induction skipped with
  | nil => simp
  | cons c skipped' ih =>
    rw [List.length_cons, show skipped'.length + 1 + hidden = skipped'.length + hidden + 1 by omega]
    simp [ih, Function.comp_def, Nat.add_assoc]

theorem headerStop?_wide {wide : Text} (h : ∀ d ∈ wide, isAscii d = false) (depth : Nat)
    (r : Text) :
    headerStop? 0 depth (wide ++ r) = (headerStop? 0 depth r).map (· + wide.length) := by
  induction wide with
  | nil => simp
  | cons d wide' ih =>
    have hd := h d List.mem_cons_self
    rw [List.cons_append, headerStop?, endsHeader_wide hd, if_neg (fun hend => by cases hend.2),
      hiddenAfter_wide hd, bracketDepth_wide hd, ih fun e he => h e (List.mem_cons_of_mem d he),
      Option.map_map]
    rfl

/-- A header ends at the same place, searched by bytes or by characters. -/
theorem headerStop?_octets (hidden depth : Nat) (s : Text) :
    headerStop? (offset hidden s) depth (octets s) =
      (headerStop? hidden depth s).map (offset · s) := by
  induction s generalizing hidden depth with
  | nil =>
    rw [Text.offset_nil]
    cases hidden <;> simp only [headerStop?, show octets [] = [] from rfl] <;> split <;> rfl
  | cons c r ih =>
    have hmap := Text.map_offset_succ c r
    cases hidden with
    | succ hidden' =>
      rw [Text.offset_succ, ← Text.byteLength_singleton, ← Text.length_octets,
        Text.octets_cons c r, headerStop?_skip, Text.length_octets, Text.byteLength_singleton, ih,
        headerStop?, hmap]
    | zero =>
      rw [Text.offset_zero]
      rcases Text.octets_cases c r with ⟨-, hsize, heq⟩ | ⟨hc, d, wide, hwide, hlength, heq⟩
      · rw [heq, headerStop?, headerStop?, endsHeader_octets]
        split
        · rfl
        · rw [hiddenAfter_octets, ih, ← hmap, hsize]
      · have hrest := ih 0 depth
        rw [Text.offset_zero] at hrest
        rw [heq, headerStop?_wide hwide, hrest, hlength, hmap, headerStop?, endsHeader_wide hc,
          if_neg (fun hend => by cases hend.2), hiddenAfter_wide hc, bracketDepth_wide hc]

/-- A header is a prefix of the text it is read from. -/
theorem header_isPrefix (s : Text) : header s <+: s := by
  have htrim : ∀ t : Text, Text.dropEndWhile Text.isAsciiBlank t <+: t := fun t =>
    ⟨_, Text.dropEndWhile_append Text.isAsciiBlank t⟩
  rw [header]
  split
  · exact (htrim _).trans (List.take_prefix _ s)
  · exact (htrim _).trans (List.takeWhile_prefix _)

/-! ## Continuations -/

theorem isAscii_of_isAsciiLetter {c : Char} (h : Text.isAsciiLetter c = true) :
    isAscii c = true := by
  simp only [Text.isAsciiLetter, Bool.or_eq_true, Bool.and_eq_true, decide_eq_true_eq, Char.le_def,
    UInt32.le_iff_toNat_le] at h
  have hrange : (97 ≤ c.toNat ∧ c.toNat ≤ 122) ∨ (65 ≤ c.toNat ∧ c.toNat ≤ 90) := h
  rw [isAscii, decide_eq_true_eq]
  omega

theorem startsMarkup_wide {c : Char} (h : isAscii c = false) (r : Text) :
    startsMarkup (c :: r) = false := by
  have hletter : Text.isAsciiLetter c = false := by
    by_contra hletter
    rw [Bool.not_eq_false] at hletter
    rw [isAscii_of_isAsciiLetter hletter] at h
    cases h
  have hne : ∀ d : Char, isAscii d = true → c ≠ d := fun d hd => Text.ne_of_isAscii h hd
  simp [startsMarkup, hletter, hne '/' rfl, hne '!' rfl]

theorem startsMarkup_octets (r : Text) : startsMarkup (octets r) = startsMarkup r := by
  cases r with
  | nil => rfl
  | cons c r' =>
    rcases Text.octets_cases c r' with ⟨-, -, heq⟩ | ⟨hc, d, wide, hwide, -, heq⟩
    · rw [heq]
      rfl
    · rw [heq, List.cons_append, startsMarkup_wide (hwide d List.mem_cons_self),
        startsMarkup_wide hc]

section Continuation

variable {isLoopTail : Bool}

attribute [local simp] continuationStop? in
theorem continuationStop?_skip (skipped : Text) (limit hidden depth : Nat) (r : Text) :
    continuationStop? isLoopTail (skipped.length + limit) (skipped.length + hidden) depth
        (skipped ++ r) =
      (continuationStop? isLoopTail limit hidden depth r).map
        fun (n, stop) => (n + skipped.length, stop) := by
  induction skipped with
  | nil => simp
  | cons c skipped' ih =>
    rw [List.length_cons, show skipped'.length + 1 + limit = skipped'.length + limit + 1 by omega,
      show skipped'.length + 1 + hidden = skipped'.length + hidden + 1 by omega]
    simp [ih, Function.comp_def, Nat.add_assoc]

theorem continuationStop?_wide {wide : Text} (h : ∀ d ∈ wide, isAscii d = false)
    (limit depth : Nat) (r : Text) :
    continuationStop? isLoopTail (wide.length + limit) 0 depth (wide ++ r) =
      (continuationStop? isLoopTail limit 0 depth r).map
        fun (n, stop) => (n + wide.length, stop) := by
  induction wide with
  | nil => simp
  | cons d wide' ih =>
    have hd := h d List.mem_cons_self
    rw [List.length_cons, show wide'.length + 1 + limit = wide'.length + limit + 1 by omega,
      List.cons_append, continuationStop?,
      if_neg (fun hend => Text.ne_of_isAscii hd (d := ';') rfl hend.2.1),
      if_neg (fun hend => Text.ne_of_isAscii hd (d := '<') rfl hend.2.1), hiddenAfter_wide hd,
      bracketDepth_wide hd, ih fun e he => h e (List.mem_cons_of_mem d he), Option.map_map]
    rfl

/-- A stop further on by one character is further on by all its bytes. -/
theorem map_stop_succ (c : Char) (r : Text) (place : Option (Nat × ContinuationStop)) :
    (place.map fun (n, stop) => (offset n r, stop)).map
        (fun (n, stop) => (n + c.utf8Size, stop)) =
      (place.map fun (n, stop) => (n + 1, stop)).map
        fun (n, stop) => (offset n (c :: r), stop) := by
  rcases place with _ | ⟨n, stop⟩
  · rfl
  · simp [Nat.add_comm]

/-- A continuation stops at the same place, searched by bytes or by characters. -/
theorem continuationStop?_octets (limit hidden depth : Nat) (s : Text) :
    continuationStop? isLoopTail (offset limit s) (offset hidden s) depth (octets s) =
      (continuationStop? isLoopTail limit hidden depth s).map
        fun (n, stop) => (offset n s, stop) := by
  induction s generalizing limit hidden depth with
  | nil =>
    cases limit <;> cases hidden <;> rfl
  | cons c r ih =>
    have hmap := map_stop_succ c r
    cases limit with
    | zero =>
      rw [Text.offset_zero, continuationStop?, continuationStop?]
      rfl
    | succ limit' =>
      rw [Text.offset_succ]
      cases hidden with
      | succ hidden' =>
        rw [Text.offset_succ, ← Text.byteLength_singleton, ← Text.length_octets,
          Text.octets_cons c r, continuationStop?_skip, Text.length_octets,
          Text.byteLength_singleton, ih, continuationStop?, hmap]
      | zero =>
        rw [Text.offset_zero]
        rcases Text.octets_cases c r with ⟨-, hsize, heq⟩ | ⟨hc, d, wide, hwide, hlength, heq⟩
        · rw [heq, hsize, Nat.add_comm 1, continuationStop?, continuationStop?,
            startsMarkup_octets]
          split
          · rfl
          split
          · rfl
          · rw [hiddenAfter_octets, ih, ← hmap, hsize]
        · have hrest := ih limit' 0 depth
          rw [Text.offset_zero] at hrest
          rw [heq, ← hlength, continuationStop?_wide hwide, hrest, hlength, hmap,
            continuationStop?, if_neg (fun hend => Text.ne_of_isAscii hc (d := ';') rfl hend.2.1),
            if_neg (fun hend => Text.ne_of_isAscii hc (d := '<') rfl hend.2.1),
            hiddenAfter_wide hc, bracketDepth_wide hc]

end Continuation

end RazorTidy
