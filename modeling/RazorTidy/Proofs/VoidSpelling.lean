import RazorTidy.Proofs.Openers
import RazorTidy.Proofs.PlainPlaces
import RazorTidy.Proofs.UnnoticedModes

/-!
# The void spelling of elements

An element that is configured to be void may be written with a slash, `<name/>`, or without one. The
reading makes the same node of both, but the cut does not know the configured names: after `<name>`
it is in the mode of an element, and after `<name/>` it is in the mode it was in before.

The slash changes nothing in front of it (`Segmentation.segmentFrom_voidSpelling`). So the two
spellings read the same wherever the mode of the element goes unnoticed
(`Template.parse_voidSpelling`), and they may not where the element stands in code and a literal
follows it (`parse_slotLiteral`).
-/

set_option autoImplicit false

namespace RazorTidy

/-! ## Cuts around a token -/

namespace Segmentation

/-- The cut of a text that goes on with a token and the cut `back`. -/
def join (front : Segmentation) (token : Token) (back : Segmentation) : Segmentation :=
  ⟨front.segments ++ ⟨front.tail, token⟩ :: back.segments, back.tail⟩

variable {front back cut : Segmentation} {token : Token}

theorem text_join (front : Segmentation) (token : Token) (back : Segmentation) :
    (join front token back).text = front.text ++ (token.text ++ back.text) := by
  simp [join, text]

theorem mem_join (front : Segmentation) (token : Token) (back : Segmentation) :
    ⟨front.tail, token⟩ ∈ (join front token back).segments :=
  List.mem_append_right front.segments List.mem_cons_self

theorem join_consText (piece : Text) (front : Segmentation) (token : Token) (back : Segmentation) :
    join (consText piece front) token back = consText piece (join front token back) := by
  rcases front with ⟨_ | ⟨first, rest⟩, tail⟩ <;> rfl

theorem consText_eq_join {piece : Text} (h : consText piece cut = join front token back) :
    ∃ front', front = consText piece front' ∧ cut = join front' token back := by
  rcases cut with ⟨_ | ⟨⟨gap, first⟩, rest⟩, tail⟩
  · rcases front with ⟨_ | ⟨first, rest⟩, gap⟩ <;> simp [consText, join] at h
  · rcases front with ⟨_ | ⟨⟨gap', first'⟩, rest'⟩, tail'⟩
    · simp only [consText, join, List.nil_append, mk.injEq, List.cons.injEq, Segment.mk.injEq] at h
      obtain ⟨⟨⟨rfl, rfl⟩, rfl⟩, rfl⟩ := h
      exact ⟨⟨[], gap⟩, rfl, rfl⟩
    · simp only [consText, join, List.cons_append, mk.injEq, List.cons.injEq, Segment.mk.injEq] at h
      obtain ⟨⟨⟨rfl, rfl⟩, rfl⟩, rfl⟩ := h
      exact ⟨⟨⟨gap, first⟩ :: rest', tail'⟩, rfl, rfl⟩

theorem consToken_eq_join {first : Token} (h : consToken first cut = join front token back) :
    (front = ⟨[], []⟩ ∧ first = token ∧ cut = back) ∨
      ∃ front', front = consToken first front' ∧ cut = join front' token back := by
  rcases front with ⟨_ | ⟨⟨gap, first'⟩, rest⟩, tail⟩
  · simp only [consToken, join, List.nil_append, mk.injEq, List.cons.injEq, Segment.mk.injEq] at h
    obtain ⟨⟨⟨rfl, rfl⟩, hsegments⟩, htail⟩ := h
    left
    rcases cut with ⟨segments, tail⟩
    rcases back with ⟨segments', tail'⟩
    simp_all
  · simp only [consToken, join, List.cons_append, mk.injEq, List.cons.injEq, Segment.mk.injEq] at h
    obtain ⟨⟨⟨rfl, rfl⟩, hsegments⟩, htail⟩ := h
    right
    refine ⟨⟨rest, tail⟩, rfl, ?_⟩
    rcases cut with ⟨segments, tail⟩
    simp_all [join]

/-- A token with the raw text after it is cut off. -/
theorem segmentFrom_rawToken {place : Place} {kind : TokenKind} {s raw rest : Text} (hne : s ≠ [])
    (htoken : place.token? (s ++ (raw ++ rest)) = some (kind, s.length))
    (hraw : rawTextLength ⟨kind, s⟩ (raw ++ rest) = raw.length) :
    segmentFrom place (s ++ (raw ++ rest)) =
      consToken ⟨kind, s⟩
        (consText raw (segmentFrom ((place.passToken ⟨kind, s⟩).passText raw) rest)) := by
  rw [segmentFrom_of_token (by simp [hne]) htoken]
  simp only [List.take_left, List.drop_left, hraw]

end Segmentation

/-! ## The two spellings of a tag -/

/-- The tag of an element without attributes. -/
def openSpelling (name : Text) : Text := '<' :: (name ++ ['>'])

/-- The tag of an element without attributes that closes itself. -/
def voidSpelling (name : Text) : Text := '<' :: (name ++ ['/', '>'])

/-- Whether a text is the name of the element that its tag opens. A star at the end would make the
end of a comment of the slash behind it. -/
structure ElementName (name : Text) : Prop where
  chars : ∀ c ∈ name, Text.isBlank c = false ∧ c ≠ '/' ∧ c ≠ '>'
  last : name.getLast? ≠ some '*'

theorem elementName_iff {name : Text} :
    ElementName name ↔ name.all (fun c => !Text.isBlank c && c != '/' && c != '>') = true ∧
      name.getLast? ≠ some '*' := by
  rw [List.all_eq_true]
  constructor
  · intro h
    refine ⟨?_, h.last⟩
    intro c hc
    obtain ⟨hblank, hslash, hend⟩ := h.chars c hc
    simp [hblank, hslash, hend]
  · rintro ⟨hchars, hlast⟩
    refine ⟨?_, hlast⟩
    intro c hc
    simpa [and_assoc] using hchars c hc

instance : DecidablePred ElementName := fun _ => decidable_of_iff _ elementName_iff.symm

/-- What stands in a tag in front of its `>` does not end with an angle bracket. -/
theorem tagRest?_spec {quote? : Option Char} (hquote : quote?.all isQuote = true) {s : Text}
    {n : Nat} (h : tagRest? quote? s = some n) :
    ∃ front back, s = front ++ '>' :: back ∧ n = front.length + 1 ∧
      front.getLast? ≠ some '<' ∧ (quote?.isSome = true → front ≠ []) := by
  induction s generalizing quote? n with
  | nil => cases quote? <;> cases h
  | cons c r ih =>
    -- a character in front of the rest of the tag
    have hcons : ∀ {quote' : Option Char}, quote'.all isQuote = true →
        c ≠ '<' ∨ quote'.isSome = true → (tagRest? quote' r).map (· + 1) = some n →
        ∃ front back, c :: r = front ++ '>' :: back ∧ n = front.length + 1 ∧
          front.getLast? ≠ some '<' ∧ front ≠ [] := by
      intro quote' hquote' hc hrest
      obtain ⟨m, hm, rfl⟩ := Option.map_eq_some_iff.1 hrest
      obtain ⟨front, back, rfl, rfl, hlast, hne⟩ := ih hquote' hm
      refine ⟨c :: front, back, rfl, rfl, ?_, List.cons_ne_nil _ _⟩
      cases front with
      | nil =>
        rcases hc with hc | hsome
        · simpa using hc
        · exact absurd rfl (hne hsome)
      | cons d front => exact hlast
    cases quote? with
    | none =>
      rw [tagRest?] at h
      split at h
      · rename_i hend
        cases h
        exact ⟨[], r, by rw [hend]; rfl, rfl, by simp, by simp⟩
      · split at h
        · cases h
        · rename_i hopen
          obtain ⟨front, back, heq, hn, hlast, -⟩ := hcons (by split <;> simp [*]) (Or.inl hopen) h
          exact ⟨front, back, heq, hn, hlast, by simp⟩
    | some q =>
      rw [tagRest?] at h
      by_cases hc : c = q
      · rw [if_pos hc] at h
        have hopen : c ≠ '<' := by
          rintro rfl
          rw [← hc] at hquote
          revert hquote
          decide
        obtain ⟨front, back, heq, hn, hlast, hne⟩ := hcons rfl (Or.inl hopen) h
        exact ⟨front, back, heq, hn, hlast, fun _ => hne⟩
      · rw [if_neg hc] at h
        obtain ⟨front, back, heq, hn, hlast, hne⟩ := hcons hquote (Or.inr rfl) h
        exact ⟨front, back, heq, hn, hlast, fun _ => hne⟩

theorem Place.tag?_of_openTag {place : Place} {s : Text} {n : Nat}
    (h : place.token? s = some (.openTag, n)) : place.tag? s = some (.openTag, n) := by
  rw [token?] at h
  cases hcomment : comment? s with
  | some m =>
    rw [hcomment] at h
    cases h
  | none =>
    rw [hcomment] at h
    cases htag : place.tag? s with
    | some found =>
      rw [htag] at h
      exact h
    | none =>
      rw [htag] at h
      rcases Place.code?_kind h with hkind | hkind <;> cases hkind

/-- The name in an opening tag without attributes. -/
theorem exists_name_of_openTag {place : Place} {s : Text} {n : Nat} {name : Text}
    (h : place.token? s = some (.openTag, n)) (htext : s.take n = openSpelling name) :
    ∃ c r w, name = c :: r ∧ Text.isAsciiLetter c = true ∧ name.getLast? ≠ some '<' ∧
      s = openSpelling name ++ w ∧ tagRest? none (r ++ '>' :: w) = some (r.length + 1) := by
  have htag := Place.tag?_of_openTag h
  rw [Place.tag?] at htag
  split at htag
  · cases htag
  obtain ⟨c, rest, rfl, hletter, -⟩ := tag?_openTag htag
  rw [tag?_of_letter hletter] at htag
  obtain ⟨m, hrest, hm⟩ := Option.map_eq_some_iff.1 htag
  rw [Prod.mk.injEq] at hm
  obtain ⟨r, w, rfl, rfl, hlast, -⟩ := tagRest?_spec rfl hrest
  have hname : name = c :: r := by
    rw [← hm.2, openSpelling] at htext
    simp only [List.take_succ_cons, List.take_length_add_append, List.take_zero, List.cons.injEq,
      true_and] at htext
    have hconcat : (c :: r) ++ ['>'] = name ++ ['>'] := htext
    exact (List.append_cancel_right hconcat).symm
  subst hname
  refine ⟨c, r, w, rfl, hletter, ?_, by simp [openSpelling], hrest⟩
  cases r with
  | nil =>
    intro hc
    cases hc
    revert hletter
    decide
  | cons d r => exact hlast

/-- A tag that opens an element closes itself with a slash. -/
theorem Place.token?_voidSpelling {place : Place} {name w : Text} {n : Nat}
    (h : place.token? (openSpelling name ++ w) = some (.openTag, n))
    (htext : (openSpelling name ++ w).take n = openSpelling name) :
    place.token? (voidSpelling name ++ w) = some (.voidTag, (voidSpelling name).length) := by
  obtain ⟨c, r, w', rfl, hletter, -, hw, hrest⟩ := exists_name_of_openTag h htext
  obtain rfl : w = w' := List.append_cancel_left hw
  have hmarks : c ≠ '!' := by
    rintro rfl
    revert hletter
    decide
  have hshape : voidSpelling (c :: r) ++ w = '<' :: c :: (r ++ '/' :: '>' :: w) := by
    simp [voidSpelling]
  have hcomment : comment? (voidSpelling (c :: r) ++ w) = none := by
    rw [hshape]
    apply comment?_eq_none
    · rw [List.cons_prefix_cons, List.cons_prefix_cons]
      exact fun h => hmarks h.2.1.symm
    · rw [List.cons_prefix_cons]
      exact fun h => absurd h.1 (by decide)
  have hslash := tagRest?_slash (show (none : Option Char).all isQuote = true from rfl) r w
  rw [hrest, Option.map_some, shift_of_lt (Nat.lt_succ_self _)] at hslash
  have htag : RazorTidy.tag? (voidSpelling (c :: r) ++ w) =
      some (.voidTag, (voidSpelling (c :: r)).length) := by
    have htake : (r ++ '/' :: '>' :: w).take (r.length + 1) = r ++ ['/'] := by
      rw [List.take_length_add_append]
      rfl
    rw [hshape, tag?_of_letter hletter, hslash, Option.map_some, Nat.add_sub_cancel, htake,
      List.getLast?_concat, if_pos rfl]
    simp [voidSpelling]
  have hplace := Place.tag?_of_openTag h
  rw [Place.tag?] at hplace
  split at hplace
  · cases hplace
  · rename_i hcode
    exact Place.token?_tag hcomment htag (by rwa [Bool.not_eq_true] at hcode)

section Spelling

variable {name : Text} {c : Char} {r : Text}

theorem tagName_spelling (hname : ElementName (c :: r)) (hletter : Text.isAsciiLetter c = true)
    {ending : Text} (hending : ending = ['>'] ∨ ending = ['/', '>']) :
    tagName ('<' :: (c :: r ++ ending)) = c :: r := by
  have hopen : c ≠ '<' := by
    rintro rfl
    revert hletter
    decide
  have hdrop : ('<' :: (c :: r ++ ending)).dropWhile (· == '<') = c :: r ++ ending := by
    simp [hopen]
  have hstrip : Text.stripFirst '/' (c :: r ++ ending) = c :: r ++ ending := by
    rw [List.cons_append, Text.stripFirst, if_neg (hname.chars c List.mem_cons_self).2.1]
  rw [tagName, hdrop, hstrip]
  apply Text.takeWhile_append
  · rw [List.all_eq_true]
    intro d hd
    obtain ⟨hblank, hslash, hend⟩ := hname.chars d hd
    simp [hblank, hslash, hend]
  · rcases hending with rfl | rfl <;> rfl

theorem attributeRegion_spelling (hname : ElementName (c :: r))
    (hletter : Text.isAsciiLetter c = true) {ending : Text}
    (hending : ending = ['>'] ∨ ending = ['/', '>']) :
    Event.attributeRegion ('<' :: (c :: r ++ ending)) = [] := by
  have hlast : (c :: r).getLast? ≠ some '/' := by
    intro hlast
    exact (hname.chars '/' (List.mem_of_getLast? hlast)).2.1 rfl
  have hinner : Text.stripLast '/' (Text.stripLast '>'
      (Text.stripFirst '<' ('<' :: (c :: r ++ ending)))) = c :: r := by
    rw [Text.stripFirst, if_pos rfl]
    rcases hending with rfl | rfl
    · rw [stripLast_concat, stripLast_of_ne hlast]
    · rw [show c :: r ++ ['/', '>'] = (c :: r ++ ['/']) ++ ['>'] by simp, stripLast_concat,
        stripLast_concat]
  have hcut := cut?_byteLength (c :: r) []
  rw [List.append_nil] at hcut
  rw [Event.attributeRegion, tagName_spelling hname hletter hending, hinner, hcut]

/-- Both spellings of an element that is configured to be void make the same node. -/
theorem ofToken_voidSpelling {extra : List Text} (hname : ElementName (c :: r))
    (hletter : Text.isAsciiLetter c = true) (hextra : c :: r ∈ extra) (beforeBlock : Bool) :
    Event.ofToken extra ⟨.voidTag, voidSpelling (c :: r)⟩ beforeBlock =
      Event.ofToken extra ⟨.openTag, openSpelling (c :: r)⟩ beforeBlock := by
  have hvoid : isVoidWith extra (c :: r) = true := by
    have hnamed : isNamedIn extra (c :: r) = true :=
      List.any_eq_true.2 ⟨_, hextra, Text.sameName_refl _⟩
    rw [isVoidWith, hnamed, Bool.or_true]
  simp only [Event.ofToken, Event.element, openSpelling, voidSpelling,
    tagName_spelling hname hletter (Or.inl rfl), tagName_spelling hname hletter (Or.inr rfl),
    attributeRegion_spelling hname hletter (Or.inl rfl),
    attributeRegion_spelling hname hletter (Or.inr rfl), hvoid, Bool.or_true]

end Spelling

/-! ## The cut of the two spellings -/

namespace Segmentation

/-- A piece taken from a text that ends before some rest of it. -/
theorem take_of_eq_append {s front rest more : Text} {n : Nat} (hs : s = front ++ rest)
    (hrest : rest ≠ []) (hfront : front = s.take n ++ more) :
    (s.take n).length = n ∧ s.drop n = more ++ rest := by
  constructor
  · have hlength := congrArg List.length hfront
    have hpos := List.length_pos_of_ne_nil hrest
    have htotal := congrArg List.length hs
    rw [List.length_append] at hlength htotal
    rw [List.length_take] at hlength ⊢
    omega
  · have hsplit : s.take n ++ s.drop n = s.take n ++ (more ++ rest) := by
      rw [List.take_append_drop, ← List.append_assoc, ← hfront, ← hs]
    exact List.append_cancel_left hsplit

theorem drop_of_take_append {t w : Text} {n : Nat} (h : (t ++ w).take n = t) :
    (t ++ w).drop n = w := by
  have hsplit : (t ++ w).take n ++ (t ++ w).drop n = t ++ w := List.take_append_drop n _
  rw [h] at hsplit
  exact List.append_cancel_left hsplit

section InFront

variable {name : Text} (hne : name ≠ []) (hlast : ∀ c ∈ ['<', '/', '*'], name.getLast? ≠ some c)

theorem append_openSpelling (t name w : Text) :
    t ++ (openSpelling name ++ w) = t ++ '<' :: name ++ '>' :: w := by
  simp [openSpelling]

theorem append_voidSpelling (t name w : Text) :
    t ++ (voidSpelling name ++ w) = t ++ '<' :: name ++ '/' :: '>' :: w := by
  simp [voidSpelling]

include hne hlast

theorem getLast?_in_front (t : Text) {c : Char} (hc : c ∈ ['<', '/', '*']) :
    (t ++ '<' :: name).getLast? ≠ some c := by
  obtain ⟨d, r, rfl⟩ := List.exists_cons_of_ne_nil hne
  rw [List.getLast?_append_of_ne_nil _ (List.cons_ne_nil _ _)]
  exact hlast c hc

/-- A token in front of the tag stays as it is, and none comes into being. -/
theorem token?_in_front (place : Place) (t w : Text)
    (hfits : ∀ kind n, place.token? (t ++ (openSpelling name ++ w)) = some (kind, n) →
      n ≤ t.length) :
    place.token? (t ++ (voidSpelling name ++ w)) =
      place.token? (t ++ (openSpelling name ++ w)) := by
  rw [append_openSpelling] at hfits ⊢
  rw [append_voidSpelling]
  apply place.token?_slash (by simp) (getLast?_in_front hne hlast t (by simp))
  intro kind n hn
  have hle := hfits kind n hn
  rw [List.length_append]
  omega

theorem textLength_in_front (place : Place) (t w : Text)
    (hfits : place.textLength (t ++ (openSpelling name ++ w)) ≤ t.length) :
    place.textLength (t ++ (voidSpelling name ++ w)) =
      place.textLength (t ++ (openSpelling name ++ w)) := by
  rw [append_openSpelling] at hfits ⊢
  rw [append_voidSpelling]
  apply place.textLength_slash (by simp) (getLast?_in_front hne hlast t (by simp))
    (getLast?_in_front hne hlast t (by simp))
  rw [List.length_append]
  omega

theorem rawTextLength_in_front (token : Token) (t w : Text)
    (hfits : rawTextLength token (t ++ (openSpelling name ++ w)) ≤ t.length) :
    rawTextLength token (t ++ (voidSpelling name ++ w)) =
      rawTextLength token (t ++ (openSpelling name ++ w)) := by
  rw [append_openSpelling] at hfits ⊢
  rw [append_voidSpelling]
  apply rawTextLength_slash token (getLast?_in_front hne hlast t (by simp))
  rw [List.length_append]
  omega

omit hne hlast

/-- Whether a cut with `front` in front of a tag and `back` behind it is the same with a slash in
the tag, up to what the tag opens for the text `w` behind it. -/
def CutsAlike (name w : Text) (place : Place) (front back : Segmentation) : Prop :=
  ∃ place' : Place, place'.modes = front.tokens.foldl Mode.after place.modes ∧
    segmentFrom (place'.passToken ⟨.openTag, openSpelling name⟩) w = back ∧
    segmentFrom place (front.text ++ (voidSpelling name ++ w)) =
      join front ⟨.voidTag, voidSpelling name⟩
        (segmentFrom (place'.passToken ⟨.voidTag, voidSpelling name⟩) w)

theorem cutsAlike_tag {w : Text} {place : Place} {n : Nat} {back : Segmentation}
    (htoken : place.token? (openSpelling name ++ w) = some (.openTag, n))
    (htext : (openSpelling name ++ w).take n = openSpelling name)
    (hback : segmentFrom (place.passToken ⟨.openTag, openSpelling name⟩) w = back) :
    CutsAlike name w place ⟨[], []⟩ back := by
  refine ⟨place, rfl, hback, ?_⟩
  have hvoid := Place.token?_voidSpelling htoken htext
  have hraw : rawTextLength ⟨.voidTag, voidSpelling name⟩ w = 0 := by simp [rawTextLength]
  exact segmentFrom_token (by simp [voidSpelling]) hvoid hraw

include hne hlast

theorem cutsAlike_consText {w piece : Text} {place : Place} {front back : Segmentation}
    (hpiece : piece ≠ [])
    (htoken : place.token? (piece ++ front.text ++ (openSpelling name ++ w)) = none)
    (hlength : place.textLength (piece ++ front.text ++ (openSpelling name ++ w)) = piece.length)
    (h : CutsAlike name w (place.passText piece) front back) :
    CutsAlike name w place (consText piece front) back := by
  obtain ⟨place', hmodes, hback, hcut⟩ := h
  have htoken' := token?_in_front hne hlast place (piece ++ front.text) w (by rw [htoken]; simp)
  have hlength' := textLength_in_front hne hlast place (piece ++ front.text) w (by
    rw [hlength, List.length_append]
    omega)
  rw [htoken, List.append_assoc] at htoken'
  rw [hlength, List.append_assoc] at hlength'
  refine ⟨place', ?_, hback, ?_⟩
  · rw [hmodes, tokens_consText]
    rfl
  · rw [text_consText, List.append_assoc, segmentFrom_text hpiece htoken' hlength', hcut,
      join_consText]

theorem cutsAlike_consToken {w s raw : Text} {kind : TokenKind} {place : Place}
    {front back : Segmentation} (hs : s ≠ [])
    (htoken : place.token? (s ++ (raw ++ front.text) ++ (openSpelling name ++ w)) =
      some (kind, s.length))
    (hraw : rawTextLength ⟨kind, s⟩ (raw ++ front.text ++ (openSpelling name ++ w)) = raw.length)
    (h : CutsAlike name w ((place.passToken ⟨kind, s⟩).passText raw) front back) :
    CutsAlike name w place (consToken ⟨kind, s⟩ (consText raw front)) back := by
  obtain ⟨place', hmodes, hback, hcut⟩ := h
  have htoken' := token?_in_front hne hlast place (s ++ (raw ++ front.text)) w (by
    intro kind' n hn
    rw [htoken] at hn
    cases hn
    rw [List.length_append]
    omega)
  have hraw' := rawTextLength_in_front hne hlast ⟨kind, s⟩ (raw ++ front.text) w (by
    rw [hraw, List.length_append]
    omega)
  rw [htoken, List.append_assoc, List.append_assoc] at htoken'
  rw [hraw, List.append_assoc] at hraw'
  refine ⟨place', ?_, hback, ?_⟩
  · rw [hmodes, tokens_consToken, tokens_consText]
    rfl
  · rw [text_consToken, text_consText, List.append_assoc, List.append_assoc,
      segmentFrom_rawToken hs htoken' hraw', hcut, ← join_consText]
    rfl

/-- The cut in front of a tag stays the same when a slash is put into the tag, and behind the tag it
goes on from the same place but for what the tag opens. -/
theorem segmentFrom_voidSpelling (hraw : isRawTextName (tagName (openSpelling name)) = false)
    (w : Text) (place : Place) (front back : Segmentation)
    (h : segmentFrom place (front.text ++ (openSpelling name ++ w)) =
      join front ⟨.openTag, openSpelling name⟩ back) :
    CutsAlike name w place front back := by
  have hrest : openSpelling name ++ w ≠ [] := by simp [openSpelling]
  induction hn : front.text.length using Nat.strong_induction_on generalizing place front with
  | _ n ih =>
    subst hn
    have hs : front.text ++ (openSpelling name ++ w) ≠ [] := by simp [hrest]
    cases htoken : place.token? (front.text ++ (openSpelling name ++ w)) with
    | none =>
      -- a piece of text comes first
      have hpos := place.textLength_pos hs
      rw [segmentFrom_of_none hs htoken] at h
      obtain ⟨front', hfront, hcut⟩ := consText_eq_join h
      have htext := congrArg text hfront
      rw [text_consText] at htext
      obtain ⟨hlength, hdrop⟩ := take_of_eq_append rfl hrest htext
      rw [hdrop] at hcut
      rw [← hlength] at hpos
      generalize (front.text ++ (openSpelling name ++ w)).take _ = piece at *
      rw [htext] at htoken hlength ih
      rw [hfront]
      apply cutsAlike_consText hne hlast (List.ne_nil_of_length_pos hpos) htoken hlength.symm
      exact ih _ (by rw [List.length_append]; omega) _ front' hcut rfl
    | some found =>
      obtain ⟨kind, m⟩ := found
      have hpos := Place.token?_pos htoken
      rw [segmentFrom_of_token hs htoken] at h
      rcases consToken_eq_join h with ⟨hfront, hfirst, hcut⟩ | ⟨front₁, hfront, hcut⟩
      · -- this is the tag itself
        subst hfront
        obtain ⟨rfl, htake⟩ := Token.mk.inj hfirst
        change place.token? (openSpelling name ++ w) = _ at htoken
        change (openSpelling name ++ w).take m = _ at htake
        have hdrop := drop_of_take_append htake
        have hzero : ∀ t, rawTextLength ⟨.openTag, openSpelling name⟩ t = 0 := by
          intro t
          simp [rawTextLength, hraw]
        apply cutsAlike_tag htoken htake
        rw [← hcut]
        change _ = consText _ (segmentFrom _ (((openSpelling name ++ w).drop m).drop _))
        rw [hfirst, hzero, hdrop, List.take_zero, Place.passText_nil, consText_nil, List.drop_zero]
      · -- another token comes first, with the raw text after it
        obtain ⟨front₂, hfront₁, hcut₂⟩ := consText_eq_join hcut
        have htext := congrArg text hfront
        rw [text_consToken] at htext
        change _ = (front.text ++ (openSpelling name ++ w)).take m ++ front₁.text at htext
        obtain ⟨hlength, hdrop⟩ := take_of_eq_append rfl hrest htext
        have htext₁ := congrArg text hfront₁
        rw [text_consText] at htext₁
        obtain ⟨hlength₁, hdrop₁⟩ := take_of_eq_append hdrop hrest htext₁
        rw [hdrop₁] at hcut₂
        rw [← hlength] at hpos
        have hsum := congrArg List.length htext
        have hsum₁ := congrArg List.length htext₁
        rw [List.length_append] at hsum hsum₁
        rw [hfront, hfront₁]
        apply cutsAlike_consToken hne hlast (List.ne_nil_of_length_pos hpos)
        · rw [← htext₁, ← htext, hlength]
          exact htoken
        · rw [← htext₁, ← hdrop]
          exact hlength₁.symm
        · exact ih _ (by omega) _ front₂ hcut₂ rfl

end InFront

end Segmentation

/-! ## Code sections -/

/-- A slash in front of a `>` makes no opener and breaks none. -/
theorem CodeSection.occurs_slash_iff (u w : Text) :
    Occurs (u ++ '/' :: '>' :: w) ↔ Occurs (u ++ '>' :: w) := by
  have halike : Text.Alike ('/' :: '>' :: w) ('>' :: w) := by
    intro n
    have hslash : Foreign '/' := by decide
    have hend : Foreign '>' := by decide
    rw [progress, progress, List.foldl_cons, List.foldl_cons, List.foldl_cons,
      advance_of_foreign hslash, advance_of_foreign hend, advance_of_foreign hend]
    congr 1
    split <;> simp [*]
  exact (halike.append_left u).apart.occurs_iff

theorem CodeSection.split_slash {u v w : Text} {found : Option Text}
    (h : split (u ++ '>' :: w) = (u ++ '>' :: v, found)) :
    split (u ++ '/' :: '>' :: w) = (u ++ '/' :: '>' :: v, found) := by
  cases found with
  | none =>
    have hbody : v = w := by simpa using split_of_none h
    have hnone : (split (u ++ '/' :: '>' :: w)).2 = none := by
      rw [split_eq_none_iff_not_occurs, occurs_slash_iff, ← split_eq_none_iff_not_occurs, h]
    rcases hsplit : split (u ++ '/' :: '>' :: w) with ⟨body, found⟩
    rw [hsplit] at hnone
    cases hnone
    rw [split_of_none hsplit, hbody]
  | some codeSection =>
    obtain ⟨happend, hstarts, hforall⟩ := split_spec h
    have hbody : v ++ codeSection = w := by simpa using happend
    have hnot : ¬ Occurs (u ++ '/' :: '>' :: v) := by
      rw [occurs_slash_iff]
      rintro ⟨front, back, heq, hback⟩
      exact hforall front back heq hback
    have hsplit := split_append_of_not_occurs hnot hstarts
    rw [← hbody]
    simpa using hsplit

/-! ## Reading the two spellings -/

namespace Template

/-- Only inline expressions matter to the gap after them. -/
theorem build_previous (extra : List Text) {kind kind' : TokenKind} (h : kind ≠ .expression)
    (h' : kind' ≠ .expression) (segments : List Segment) (s : Scaffold) :
    build extra (some kind) segments s = build extra (some kind') segments s := by
  cases segments with
  | nil => rfl
  | cons segment rest =>
    have hkind : (some kind == some TokenKind.expression) = false := by simp [h]
    have hkind' : (some kind' == some TokenKind.expression) = false := by simp [h']
    rw [build, build, hkind, hkind']

variable {extra : List Text}

/-- Tags of an element that do the same to the tree may stand for each other. -/
theorem build_voidSpelling {tag tag' : Text}
    (hevent : ∀ beforeBlock, Event.ofToken extra ⟨.voidTag, tag'⟩ beforeBlock =
      Event.ofToken extra ⟨.openTag, tag⟩ beforeBlock)
    (front : List Segment) (gap : Text) (back : List Segment) (previous : Option TokenKind)
    (s : Scaffold) :
    build extra previous (front ++ ⟨gap, ⟨.voidTag, tag'⟩⟩ :: back) s =
      build extra previous (front ++ ⟨gap, ⟨.openTag, tag⟩⟩ :: back) s := by
  induction front generalizing previous s with
  | nil =>
    rw [List.nil_append, List.nil_append, build, build, hevent,
      build_previous extra (show TokenKind.voidTag ≠ .expression by simp)
        (show TokenKind.openTag ≠ .expression by simp)]
    rfl
  | cons segment rest ih =>
    have hblock : startsBlock (rest ++ ⟨gap, ⟨.voidTag, tag'⟩⟩ :: back) =
        startsBlock (rest ++ ⟨gap, ⟨.openTag, tag⟩⟩ :: back) := by
      cases rest <;> rfl
    rw [List.cons_append, List.cons_append, build, build, hblock, ih]

theorem listing_ne_nil {segments : List Segment} {segment : Segment} (h : segment ∈ segments)
    (hkind : segment.token.kind = .openTag) (previous : Option TokenKind) (tail : Text) :
    listing extra previous segments tail ≠ [] := by
  induction segments generalizing previous with
  | nil => cases h
  | cons first rest ih =>
    rcases first with ⟨gap, token⟩
    rw [listing]
    rcases List.mem_cons.1 h with rfl | h
    · have hnodes : tokenNodes extra token (startsBlock rest) ≠ [] := by
        change token.kind = .openTag at hkind
        simp [tokenNodes, hkind, Event.ofToken, Event.node?]
      simp [hnodes]
    · simp [ih h]

/-- A body with an opening tag is read as what its tokens build. -/
theorem parseBody_eq_of_build {body body' : Text} {segment : Segment}
    (h : segment ∈ (Segmentation.segment body).segments) (hkind : segment.token.kind = .openTag)
    (hbuild : build extra none (Segmentation.segment body').segments Scaffold.empty =
      build extra none (Segmentation.segment body).segments Scaffold.empty)
    (htail : (Segmentation.segment body').tail = (Segmentation.segment body).tail) :
    parseBody extra body' = parseBody extra body := by
  obtain ⟨hopen, hlisted⟩ := build_spec extra none (Segmentation.segment body).segments
    (Segmentation.segment body).tail Scaffold.openParents_empty
  have hne : ((build extra none (Segmentation.segment body).segments Scaffold.empty).addGap
      (Segmentation.segment body).tail false).finish ≠ [] := by
    intro hnil
    have hfinish := (Scaffold.preorderAll_finish hopen).trans hlisted
    rw [hnil] at hfinish
    exact listing_ne_nil h hkind none _ hfinish.symm
  have hread : ∀ {body : Text}, ((build extra none (Segmentation.segment body).segments
      Scaffold.empty).addGap (Segmentation.segment body).tail false).finish ≠ [] →
      parseBody extra body = ((build extra none (Segmentation.segment body).segments
        Scaffold.empty).addGap (Segmentation.segment body).tail false).finish := by
    intro body hbody
    simp only [parseBody]
  rw [hread hne, hread (by rwa [hbuild, htail]), hbuild, htail]

end Template

theorem Segmentation.exists_name_of_eq_join {body name : Text} {front back : Segmentation}
    (h : segment body = front.join ⟨.openTag, openSpelling name⟩ back) :
    ∃ c r, name = c :: r ∧ Text.isAsciiLetter c = true ∧ name.getLast? ≠ some '<' := by
  have hmem : ⟨.openTag, openSpelling name⟩ ∈ (segment body).tokens := by
    rw [h]
    exact List.mem_map_of_mem (mem_join front _ back)
  obtain ⟨place', d, rest, n, htoken, htext⟩ := exists_token?_of_mem_tokens hmem
  have htake : (d :: rest).take n = openSpelling name := by
    obtain ⟨m, rfl⟩ := Nat.exists_eq_succ_of_ne_zero (Place.token?_pos htoken).ne'
    exact htext.symm
  obtain ⟨c, r, -, hcons, hletter, hlast, -⟩ := exists_name_of_openTag htoken htake
  exact ⟨c, r, hcons, hletter, hlast⟩

/-- Behind a tag that opens no element that is noticed, the text is cut as behind one that opens
none. -/
theorem Segmentation.segmentFrom_behind_tag {name w : Text} {place : Place} {back : Segmentation}
    (hback : segmentFrom (place.passToken ⟨.openTag, openSpelling name⟩) w = back)
    (h : readsAlike back.tail (Mode.after place.modes ⟨.openTag, openSpelling name⟩) place.modes
      (some '>') back.segments = true) :
    segmentFrom (place.passToken ⟨.voidTag, voidSpelling name⟩) w = back := by
  have hopenEnd : (openSpelling name).getLast? = some '>' :=
    List.getLast?_append_of_ne_nil ('<' :: name) (List.cons_ne_nil '>' [])
  have hvoidEnd : (voidSpelling name).getLast? = some '>' :=
    List.getLast?_append_of_ne_nil ('<' :: name) (List.cons_ne_nil '/' ['>'])
  have hopen : place.passToken ⟨.openTag, openSpelling name⟩ =
      ⟨Mode.after place.modes ⟨.openTag, openSpelling name⟩, some '>', false⟩ := by
    simp [Place.passToken, hopenEnd]
  have hvoid : place.passToken ⟨.voidTag, voidSpelling name⟩ = ⟨place.modes, some '>', false⟩ := by
    simp [Place.passToken, hvoidEnd, Mode.after]
  rw [hopen] at hback
  rw [← hback] at h
  rw [hvoid, ← hback]
  exact segmentFrom_readsAlike ⟨_, some '>', false⟩ w place.modes h

section Unnoticed

variable {extra : List Text} {name : Text} {front back : Segmentation}

/-- Behind a tag the text reads as it does around the element, if the element is void, if it is not
directly in code and is not closed by its name, or if the modes that differ go unnoticed. -/
theorem readsAlike_behind_tag {modes : List Mode} (htagName : tagName (openSpelling name) = name)
    (hraw : isRawTextName name = false)
    (h : isVoidName name = true ∨
      (Mode.inCode modes = false ∧ ∀ segment ∈ back.segments, segment.token.kind = .closeTag →
        Text.sameName (tagName segment.token.text) name = false) ∨
      Segmentation.readsAlike back.tail (.markup (Text.lower name) :: modes) modes (some '>')
        back.segments = true) :
    Segmentation.readsAlike back.tail (Mode.after modes ⟨.openTag, openSpelling name⟩) modes
      (some '>') back.segments = true := by
  have hafter : Mode.after modes ⟨.openTag, openSpelling name⟩ =
      if isVoidName name = true then modes else .markup (Text.lower name) :: modes := by
    simp only [Mode.after, htagName, hraw, Bool.false_or]
  rw [hafter]
  split
  · exact Segmentation.readsAlike_self _ _ _ _
  · rename_i hnot
    rcases h with hvoid | ⟨hmarkup, hclose⟩ | halike
    · exact absurd hvoid hnot
    · exact Segmentation.readsAlike_of_markup back.tail hclose hmarkup [] _
    · exact halike

/-- A slash in the tag of an element that goes unnoticed changes nothing but the tag in the cut. -/
theorem Segmentation.segment_voidSpelling (hname : ElementName name)
    (hraw : isRawTextName (tagName (openSpelling name)) = false)
    (hcut : segment (front.text ++ (openSpelling name ++ back.text)) =
      front.join ⟨.openTag, openSpelling name⟩ back)
    (halike : readsAlike back.tail
      (Mode.after (Mode.afterAll front.tokens) ⟨.openTag, openSpelling name⟩)
      (Mode.afterAll front.tokens) (some '>') back.segments = true) :
    segment (front.text ++ (voidSpelling name ++ back.text)) =
      front.join ⟨.voidTag, voidSpelling name⟩ back := by
  obtain ⟨c, r, hcons, -, hopen⟩ := exists_name_of_eq_join hcut
  -- the name ends with nothing that a slash goes together with
  have hlast : ∀ d ∈ ['<', '/', '*'], name.getLast? ≠ some d := by
    intro d hd hlast
    simp only [List.mem_cons, List.not_mem_nil, or_false] at hd
    rcases hd with rfl | rfl | rfl
    · exact hopen hlast
    · exact (hname.chars '/' (List.mem_of_getLast? hlast)).2.1 rfl
    · exact hname.last hlast
  obtain ⟨place, hmodes, hback, hvoid⟩ := segmentFrom_voidSpelling
    (by rw [hcons]; exact List.cons_ne_nil c r) hlast hraw back.text Place.start front back hcut
  change place.modes = Mode.afterAll front.tokens at hmodes
  rw [segment, hvoid, segmentFrom_behind_tag hback (by rwa [hmodes])]

/-- Cuts that differ in the tag of an element that is configured to be void are read alike. -/
theorem Template.parseBody_voidSpelling (hextra : name ∈ extra) (hname : ElementName name)
    {body body' : Text}
    (hopen : Segmentation.segment body = front.join ⟨.openTag, openSpelling name⟩ back)
    (hvoid : Segmentation.segment body' = front.join ⟨.voidTag, voidSpelling name⟩ back) :
    parseBody extra body' = parseBody extra body := by
  obtain ⟨c, r, rfl, hletter, -⟩ := Segmentation.exists_name_of_eq_join hopen
  have htag : (⟨front.tail, ⟨.openTag, openSpelling (c :: r)⟩⟩ : Segment) ∈
      (Segmentation.segment body).segments := by
    rw [hopen]
    exact Segmentation.mem_join front _ back
  apply parseBody_eq_of_build htag rfl
  · rw [hopen, hvoid]
    exact build_voidSpelling (ofToken_voidSpelling hname hletter hextra) _ _ _ _ _
  · rw [hopen, hvoid]
    rfl

/-- An element that is configured to be void reads the same with a slash in its tag, if it is void
anyway, if it is not directly in code and is not closed by its name, or if what follows reads the
same in the element and around it. -/
theorem Template.parse_voidSpelling {pre post : Text} (hextra : name ∈ extra)
    (hname : ElementName name) (hraw : isRawTextName name = false) (hpre : front.text = pre)
    (hcut : Segmentation.segment (CodeSection.split (pre ++ (openSpelling name ++ post))).1 =
      front.join ⟨.openTag, openSpelling name⟩ back)
    (hunnoticed : isVoidName name = true ∨
      (Mode.inCode (Mode.afterAll front.tokens) = false ∧
        ∀ segment ∈ back.segments, segment.token.kind = .closeTag →
          Text.sameName (tagName segment.token.text) name = false) ∨
      Segmentation.readsAlike back.tail (.markup (Text.lower name) :: Mode.afterAll front.tokens)
        (Mode.afterAll front.tokens) (some '>') back.segments = true) :
    parse extra (pre ++ (openSpelling name ++ post)) =
      parse extra (pre ++ (voidSpelling name ++ post)) := by
  subst hpre
  rcases hsplit : CodeSection.split (front.text ++ (openSpelling name ++ post)) with ⟨body, found⟩
  rw [hsplit] at hcut
  change Segmentation.segment body = _ at hcut
  have hbody : body = front.text ++ (openSpelling name ++ back.text) := by
    rw [← Segmentation.text_segment body, hcut, Segmentation.text_join]
  subst hbody
  -- the slash is in the body
  have hsplit' : CodeSection.split (front.text ++ (voidSpelling name ++ post)) =
      (front.text ++ (voidSpelling name ++ back.text), found) := by
    rw [Segmentation.append_openSpelling, Segmentation.append_openSpelling] at hsplit
    rw [Segmentation.append_voidSpelling, Segmentation.append_voidSpelling]
    exact CodeSection.split_slash hsplit
  have htagName : tagName (openSpelling name) = name := by
    obtain ⟨c, r, rfl, hletter, -⟩ := Segmentation.exists_name_of_eq_join hcut
    exact tagName_spelling hname hletter (Or.inl rfl)
  have hvoid := Segmentation.segment_voidSpelling hname (by rwa [htagName]) hcut
    (readsAlike_behind_tag htagName hraw hunnoticed)
  rw [parse, parse, hsplit, hsplit']
  simp only [parseBody_voidSpelling hextra hname hcut hvoid]

end Unnoticed

/-- The cut of a block up to the tag of the element `slot` in it. -/
def slotFront : Segmentation :=
  ⟨[⟨[], ⟨.openTag, "<ul>".toList⟩⟩, ⟨[], ⟨.directive, "@if (x)".toList⟩⟩,
    ⟨" ".toList, ⟨.braceOpen, "\x7b".toList⟩⟩], " ".toList⟩

/-- The cut behind the tag, with a brace in an attribute and a quote after the block. -/
def slotBack : Segmentation :=
  ⟨[⟨" y ".toList, ⟨.openTag, "<p title=\"\x7d\">".toList⟩⟩,
    ⟨"\"z".toList, ⟨.closeTag, "</p>".toList⟩⟩, ⟨" ".toList, ⟨.braceClose, "\x7d".toList⟩⟩],
    " it's\n".toList⟩

theorem parse_voidSpelling_slot :
    let name := "slot".toList
    let post := slotBack.text ++ "@code \x7b int n; \x7d".toList
    Mode.inCode (Mode.afterAll slotFront.tokens) = true ∧ isVoidName name = false ∧
      Template.parse [name] (slotFront.text ++ (openSpelling name ++ post)) =
        Template.parse [name] (slotFront.text ++ (voidSpelling name ++ post)) := by
  intro name post
  refine ⟨by decide, by decide, ?_⟩
  apply Template.parse_voidSpelling List.mem_cons_self (by decide) (by decide) rfl
  · show _ = slotFront.join _ slotBack
    with_unfolding_all rfl
  · right
    right
    decide

/-- Behind an element in code, a literal with a brace in it closes the code unless the tag of the
element closes itself. -/
theorem parse_slotLiteral :
    ¬ ∀ (extra : List Text) (name pre post : Text) (front back : Segmentation),
      name ∈ extra → front.text = pre →
      Segmentation.segment (CodeSection.split (pre ++ (openSpelling name ++ post))).1 =
        front.join ⟨.openTag, openSpelling name⟩ back →
      Template.parse extra (pre ++ (openSpelling name ++ post)) =
        Template.parse extra (pre ++ (voidSpelling name ++ post)) := by
  intro h
  have hblock := h ["slot".toList] "slot".toList "@\x7b ".toList " \"\x7d\" \x7d".toList
    ⟨[⟨[], ⟨.braceOpen, "@\x7b".toList⟩⟩], " ".toList⟩
    ⟨[⟨" \"".toList, ⟨.braceClose, "\x7d".toList⟩⟩,
      ⟨"\" ".toList, ⟨.braceClose, "\x7d".toList⟩⟩], []⟩
    List.mem_cons_self rfl (by with_unfolding_all rfl)
  revert hblock
  decide +kernel

end RazorTidy
