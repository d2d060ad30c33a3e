import RazorTidy.Proofs.VoidSpelling

/-!
# Behind the tag of a raw text

After the tag of an element with raw text the cut goes on at the first `</` with the name of the
element, in any case, and nothing before it is read. There the usual rules apply again, and they
know nothing of the element: the closer is the next token if it is a tag, if no code hides it behind
a word, and it is the tag of this element if its name ends there (`Segmentation.next_behind_rawTag`).

None of the three is a matter of course. In a brace block the mode is still that of the code around
the element, so a word at the end of the raw text hides the closing tag, and the element takes in
the rest of the block (`Segmentation.next_behind_scriptInBlock`).
-/

set_option autoImplicit false

namespace RazorTidy

/-! ## Cuts around a token -/

namespace Segmentation

/-- The cut of a text goes through a place in front of each of its tokens, with the modes that the
tokens before it leave. Behind the token it goes on after the raw text. -/
theorem exists_place_of_eq_join (place : Place) (s : Text) :
    ∀ (front back : Segmentation) (token : Token), segmentFrom place s = join front token back →
      ∃ (place' : Place) (n : Nat), place'.modes = front.tokens.foldl Mode.after place.modes ∧
        place'.token? (token.text ++ back.text) = some (token.kind, n) ∧
        (token.text ++ back.text).take n = token.text ∧
        back =
          let raw := rawTextLength token back.text
          consText (back.text.take raw) (segmentFrom
            ((place'.passToken token).passText (back.text.take raw)) (back.text.drop raw)) := by
  fun_induction segmentFrom place s with
  | case1 place =>
    intro front back token hcut
    rcases front with ⟨_ | ⟨first, others⟩, tail⟩ <;> cases hcut
  | case2 place c r kind n htoken first rest raw next ih =>
    intro front back token hcut
    rcases consToken_eq_join hcut with ⟨rfl, rfl, hback⟩ | ⟨front', rfl, hfront'⟩
    · -- this is the token
      have hrest : back.text = rest := by
        rw [← hback, text_consText, text_segmentFrom, List.take_append_drop]
      have htext : first.text ++ back.text = c :: r := by
        rw [hrest]
        show c :: (r.take (n - 1) ++ r.drop (n - 1)) = c :: r
        rw [List.take_append_drop]
      refine ⟨place, n, rfl, by rw [htext]; exact htoken, ?_, ?_⟩
      · obtain ⟨m, rfl⟩ := Nat.exists_eq_succ_of_ne_zero (Place.token?_pos htoken).ne'
        rw [htext]
        rfl
      · rw [hrest]
        exact hback.symm
    · -- the token comes later, behind the raw text of this one
      obtain ⟨front'', rfl, hcut'⟩ := consText_eq_join hfront'
      obtain ⟨place', m, hmodes, hrest⟩ := ih _ _ _ hcut'
      refine ⟨place', m, ?_, hrest⟩
      rw [hmodes, tokens_consToken, tokens_consText]
      rfl
  | case3 place c r hnone piece ih =>
    intro front back token hcut
    obtain ⟨front', rfl, hcut'⟩ := consText_eq_join hcut
    obtain ⟨place', m, hmodes, hrest⟩ := ih _ _ _ hcut'
    refine ⟨place', m, ?_, hrest⟩
    rw [hmodes, tokens_consText]
    rfl

end Segmentation

/-! ## Names in tags -/

/-- Whether a character ends the name in a tag. -/
def endsName (c : Char) : Bool := Text.isBlank c || c == '/' || c == '>'

theorem tagName_closer (s : Text) :
    tagName ('<' :: '/' :: s) = s.takeWhile fun c => !endsName c := by
  rw [tagName]
  show s.takeWhile _ = _
  congr 1
  funext c
  rw [endsName, Bool.not_or, Bool.not_or]
  rfl

theorem endsName_of_mem_tagName {tag : Text} {c : Char} (h : c ∈ tagName tag) :
    endsName c = false := by
  have hc := List.mem_takeWhile_imp h
  simp only [Bool.and_eq_true, Bool.not_eq_true', bne_iff_ne] at hc
  simp [endsName, hc]

/-- The case of a letter does not matter for the end of a name. -/
theorem endsName_toLower (c : Char) : endsName c.toLower = endsName c := by
  have hletter : ∀ d : Char, 65 ≤ d.toNat → d.toNat ≤ 122 → endsName d = false := by
    intro d hlow hhigh
    have hslash : d ≠ '/' := by
      rintro rfl
      exact absurd hlow (by decide)
    have hend : d ≠ '>' := by
      rintro rfl
      exact absurd hlow (by decide)
    have hblank : Text.isBlank d = false := by
      simp [Text.isBlank, Text.blankRanges, Text.Ranges.contains]
      omega
    simp [endsName, hslash, hend, hblank]
  rcases Text.toLower_cases c with ⟨hge, hle, hlower⟩ | hsame
  · -- neither a capital nor its small letter ends a name
    rw [hletter c hge (by omega), hletter c.toLower (by omega) (by omega)]
  · rw [hsame]

/-- A name that starts with another one, in any case, is this name if it ends there. -/
theorem sameName_append_iff {spelled name more : Text}
    (hname : ∀ c ∈ name, endsName c = false) (hsame : Text.lower spelled = Text.lower name) :
    Text.sameName ((spelled ++ more).takeWhile fun c => !endsName c) name = true ↔
      more.head?.all endsName = true := by
  have hspelled : ∀ c ∈ spelled, (!endsName c) = true := by
    intro c hc
    have hlower : c.toLower ∈ Text.lower name := hsame ▸ List.mem_map_of_mem hc
    obtain ⟨d, hd, hcd⟩ := List.mem_map.1 hlower
    rw [← endsName_toLower, ← hcd, endsName_toLower, hname d hd]
    rfl
  rw [List.takeWhile_append_of_pos hspelled, Text.sameName_iff]
  have hlower : Text.lower (spelled ++ more.takeWhile fun c => !endsName c) =
      Text.lower name ++ Text.lower (more.takeWhile fun c => !endsName c) := by
    rw [← hsame, Text.lower, List.map_append]
    rfl
  rw [hlower, List.append_right_eq_self, Text.lower, List.map_eq_nil_iff]
  cases more with
  | nil => simp
  | cons c r => cases hc : endsName c <;> simp [hc]

/-! ## Closers -/

/-- What the search for the end of a raw text finds: an angle bracket, a slash, and the name in some
case. -/
theorem exists_closer {name s : Text} {n : Nat}
    (h : Text.indexOf? ('<' :: '/' :: Text.lower name) (Text.lower s) = some n) :
    ∃ spelled rest, s.drop n = '<' :: '/' :: (spelled ++ rest) ∧
      Text.lower spelled = Text.lower name := by
  have hprefix := ByteScan.drop_indexOf? h
  rw [Text.lower, Text.lower, ← List.map_drop] at hprefix
  obtain ⟨more, hmore⟩ := hprefix
  obtain ⟨closer, rest, hdrop, hcloser, -⟩ := List.map_eq_append_iff.1 hmore.symm
  obtain ⟨a, others, rfl, ha, hothers⟩ := List.map_eq_cons_iff.1 hcloser
  obtain ⟨b, spelled, rfl, hb, hspelled⟩ := List.map_eq_cons_iff.1 hothers
  rw [eq_of_toLower_eq (by decide) ha, eq_of_toLower_eq (by decide) hb] at hdrop
  exact ⟨spelled, rest, hdrop, hspelled⟩

/-- At a closer only the rule for tags may give a token, and code may hide it. -/
theorem Place.token?_closer (place : Place) (s : Text) :
    place.token? ('<' :: '/' :: s) =
      if Mode.inCode place.modes && place.follows Text.isWordChar then none
      else RazorTidy.tag? ('<' :: '/' :: s) := by
  have hword : Text.leadingWord ('<' :: '/' :: s) = [] := by
    have hmark : Text.isWordChar '<' = false := Text.isWordChar_eq_false_of_mark (by decide)
    simp [Text.leadingWord, hmark]
  have hcode : place.code? ('<' :: '/' :: s) = none := by
    show place.continuation? ('<' :: '/' :: s) = none
    rw [continuation?, hword, show isContinuationWord [] = false by decide, Bool.and_false]
    rfl
  have hcomment : comment? ('<' :: '/' :: s) = none := rfl
  rw [token?, hcomment, hcode, Place.tag?]
  split
  · rfl
  · cases RazorTidy.tag? ('<' :: '/' :: s) <;> rfl

/-- A closer that is a tag takes the name and what stands behind it up to an angle bracket. -/
theorem tag?_closer {spelled rest : Text} (hne : spelled ≠ []) (hspelled : '>' ∉ spelled)
    {kind : TokenKind} {n : Nat} (h : tag? ('<' :: '/' :: (spelled ++ rest)) = some (kind, n)) :
    kind = .closeTag ∧ ∃ more after, rest = more ++ '>' :: after ∧
      ('<' :: '/' :: (spelled ++ rest)).take n = '<' :: '/' :: (spelled ++ (more ++ ['>'])) := by
  obtain ⟨c, others, rfl⟩ := List.exists_cons_of_ne_nil hne
  rw [List.cons_append, tag?] at h
  split at h
  · obtain ⟨m, hm, hfound⟩ := Option.map_eq_some_iff.1 h
    cases hfound
    obtain ⟨front, after, heq, rfl, -⟩ := tagRest?_spec rfl hm
    -- the tag ends behind the name, since no angle bracket stands in it
    obtain ⟨more, rfl, hrest⟩ : ∃ more, front = others ++ more ∧ rest = more ++ '>' :: after := by
      rcases List.append_eq_append_iff.1 heq with ⟨more, hfront, hrest⟩ | ⟨more, hothers, hrest⟩
      · exact ⟨more, hfront, hrest⟩
      · cases more with
        | nil => exact ⟨[], by rw [hothers, List.append_nil, List.append_nil], hrest.symm⟩
        | cons d more =>
          rw [List.cons_append, List.cons.injEq] at hrest
          rw [hothers, ← hrest.1] at hspelled
          exact absurd (by simp) hspelled
    have hshape : '<' :: '/' :: (c :: others ++ rest) =
        '<' :: '/' :: (c :: others ++ (more ++ ['>'])) ++ after := by
      rw [hrest]
      simp
    refine ⟨rfl, more, after, hrest, ?_⟩
    rw [hshape]
    apply List.take_left'
    simp [Nat.add_assoc]
  · cases h

/-- An opening tag ends with its angle bracket. -/
theorem Place.getLast?_openTag {place : Place} {s tag : Text} {n : Nat}
    (h : place.token? s = some (.openTag, n)) (htag : s.take n = tag) :
    tag.getLast? = some '>' := by
  have hrule := Place.tag?_of_openTag h
  rw [Place.tag?] at hrule
  split at hrule
  · cases hrule
  obtain ⟨c, r, rfl, hletter, -⟩ := tag?_openTag hrule
  rw [tag?_of_letter hletter] at hrule
  obtain ⟨m, hm, hfound⟩ := Option.map_eq_some_iff.1 hrule
  obtain ⟨front, back, rfl, rfl, -⟩ := tagRest?_spec rfl hm
  rw [Prod.mk.injEq] at hfound
  rw [← htag, ← hfound.2]
  simp [List.take_append, List.getLast?_append, List.getLast?_cons]

/-! ## The next token -/

namespace Segmentation

/-- A piece of text in front only makes the first gap longer. -/
theorem head?_consText (piece : Text) (cut : Segmentation) :
    (consText piece cut).segments.head? =
      cut.segments.head?.map fun seg => { seg with gap := piece ++ seg.gap } := by
  rcases cut with ⟨_ | ⟨first, rest⟩, tail⟩ <;> rfl

/-- The first token behind a piece of text stands right after it if it comes first in the rest. -/
theorem exists_head?_consText (piece : Text) (cut : Segmentation) (P : Token → Prop) :
    (∃ next ∈ (consText piece cut).segments.head?, next.gap = piece ∧ P next.token) ↔
      ∃ next ∈ cut.segments.head?, next.gap = [] ∧ P next.token := by
  rw [head?_consText]
  cases cut.segments.head? with
  | none => simp
  | some first => simp

/-- Where no token stands, text comes before the next one. -/
theorem gap_ne_nil_of_none {place : Place} {s : Text} (hs : s ≠ []) (h : place.token? s = none) :
    ∀ next ∈ (segmentFrom place s).segments.head?, next.gap ≠ [] := by
  intro next hnext hgap
  rw [segmentFrom_of_none hs h, head?_consText, Option.mem_def, Option.map_eq_some_iff] at hnext
  obtain ⟨first, -, rfl⟩ := hnext
  rw [List.append_eq_nil_iff, List.take_eq_nil_iff] at hgap
  rcases hgap.1 with hzero | hnil
  · exact absurd hzero (place.textLength_pos hs).ne'
  · exact hs hnil

/-- A closer of the element `name` is the next token and closes this element if and only if it is a
tag, its name ends there, and it does not stand in code right after a word. -/
theorem exists_head?_closer (place : Place) {name spelled : Text} (rest : Text) (hne : name ≠ [])
    (hname : ∀ c ∈ name, endsName c = false) (hsame : Text.lower spelled = Text.lower name) :
    (∃ next ∈ (segmentFrom place ('<' :: '/' :: (spelled ++ rest))).segments.head?,
        next.gap = [] ∧ next.token.kind = .closeTag ∧
          Text.sameName (tagName next.token.text) name = true) ↔
      (tag? ('<' :: '/' :: (spelled ++ rest))).isSome = true ∧
        rest.head?.any endsName = true ∧
        (Mode.inCode place.modes && place.follows Text.isWordChar) = false := by
  have hlength : spelled.length = name.length := by
    rw [← Text.length_lower spelled, hsame, Text.length_lower]
  have hspelled : spelled ≠ [] := by
    rintro rfl
    exact hne (List.eq_nil_of_length_eq_zero hlength.symm)
  have hend : '>' ∉ spelled := by
    intro hmem
    have hlower : ('>' : Char).toLower ∈ Text.lower name := hsame ▸ List.mem_map_of_mem hmem
    obtain ⟨d, hd, hlow⟩ := List.mem_map.1 hlower
    have hchar := hname d hd
    rw [eq_of_toLower_eq (by decide) hlow] at hchar
    exact absurd hchar (by decide)
  have htoken := place.token?_closer (spelled ++ rest)
  cases hvisible : place.token? ('<' :: '/' :: (spelled ++ rest)) with
  | none =>
    -- the angle bracket is text, hidden by the code or since no tag starts with it
    have hgap := gap_ne_nil_of_none (List.cons_ne_nil _ _) hvisible
    rw [hvisible] at htoken
    constructor
    · rintro ⟨next, hnext, hnil, -⟩
      exact absurd hnil (hgap next hnext)
    · rintro ⟨htag, -, hhidden⟩
      rw [hhidden, if_neg Bool.false_ne_true] at htoken
      rw [← htoken] at htag
      cases htag
  | some found =>
    obtain ⟨kind, n⟩ := found
    rw [hvisible] at htoken
    cases hhidden : Mode.inCode place.modes && place.follows Text.isWordChar with
    | true =>
      rw [hhidden, if_pos rfl] at htoken
      cases htoken
    | false =>
      rw [hhidden, if_neg Bool.false_ne_true] at htoken
      obtain ⟨rfl, more, after, rfl, htake⟩ := tag?_closer hspelled hend htoken.symm
      have hnext : ∀ next, next ∈ (segmentFrom place
          ('<' :: '/' :: (spelled ++ (more ++ '>' :: after)))).segments.head? ↔
            next = ⟨[], ⟨.closeTag, '<' :: '/' :: (spelled ++ (more ++ ['>']))⟩⟩ := by
        intro next
        rw [segmentFrom_of_token (List.cons_ne_nil _ _) hvisible, htake]
        exact Option.mem_some.trans eq_comm
      have hhead : (more ++ '>' :: after).head?.any endsName =
          (more ++ ['>']).head?.all endsName := by
        cases more <;> rfl
      simp only [hnext, exists_eq_left, tagName_closer, sameName_append_iff hname hsame, ← htoken,
        hhead, Option.isSome_some, true_and, and_true]

/-- Behind the tag of an element with raw text, no token stands before the first `</` with the name
of the element; without one there is none at all. The tag that closes the element comes next if and
only if a tag starts there, its name ends where that of the element does, and it does not stand in
code right after a word. -/
theorem next_behind_rawTag {s : Text} {front back : Segmentation} {token : Token}
    (hcut : segment s = join front token back) (hkind : token.kind = .openTag)
    (hraw : isRawTextName (tagName token.text) = true) :
    let name := tagName token.text
    match Text.indexOf? ('<' :: '/' :: Text.lower name) (Text.lower back.text) with
    | none => back.segments = []
    | some n =>
      let raw := back.text.take n
      let closer := back.text.drop n
      (∀ next ∈ back.segments.head?, raw <+: next.gap) ∧
        ((∃ next ∈ back.segments.head?, next.gap = raw ∧ next.token.kind = .closeTag ∧
            Text.sameName (tagName next.token.text) name = true) ↔
          (tag? closer).isSome = true ∧
            (closer.drop (name.length + 2)).head?.any endsName = true ∧
            (Mode.inCode (Mode.afterAll front.tokens) && raw.getLast?.any Text.isWordChar) =
              false) := by
  intro name
  obtain ⟨place, m, hmodes, htoken, htext, hback⟩ :=
    exists_place_of_eq_join Place.start s front back token hcut
  rw [hkind] at htoken
  have hlast := Place.getLast?_openTag htoken htext
  have hlength : rawTextLength token back.text = (Text.indexOf? ('<' :: '/' :: Text.lower name)
      (Text.lower back.text)).getD back.text.length := if_pos ⟨hkind, hraw⟩
  rw [hlength] at hback
  cases hfound : Text.indexOf? ('<' :: '/' :: Text.lower name) (Text.lower back.text) with
  | none =>
    -- without a closer the raw text goes on to the end
    rw [hfound, Option.getD_none] at hback
    dsimp only at hback
    rw [List.drop_length, segmentFrom] at hback
    rw [hback]
    rfl
  | some n =>
    rw [hfound, Option.getD_some] at hback
    dsimp only at hback ⊢
    obtain ⟨spelled, rest, hcloser, hsame⟩ := exists_closer hfound
    have hname : ∀ c ∈ name, endsName c = false := fun c hc => endsName_of_mem_tagName hc
    have hne : name ≠ [] := by
      intro hnil
      rw [show tagName token.text = [] from hnil] at hraw
      exact absurd hraw (by decide)
    -- the place in front of the closer
    have hplace : ((place.passToken token).passText (back.text.take n)).modes =
        Mode.afterAll front.tokens := by
      rw [Mode.afterAll, show ([] : List Mode) = Place.start.modes from rfl, ← hmodes]
      simp [Place.passText, Place.passToken, Mode.after, hkind, hraw]
    have hfollows : ((place.passToken token).passText (back.text.take n)).follows Text.isWordChar =
        (back.text.take n).getLast?.any Text.isWordChar := by
      have hmark : Text.isWordChar '>' = false := Text.isWordChar_eq_false_of_mark (by decide)
      rw [Place.follows, Place.passText, Place.passToken, hlast]
      cases (back.text.take n).getLast? <;> simp [hmark]
    have hdrop : ('<' :: '/' :: (spelled ++ rest)).drop (name.length + 2) = rest := by
      have hlen : spelled.length = name.length := by
        rw [← Text.length_lower spelled, hsame, Text.length_lower]
      rw [← hlen]
      exact List.drop_left
    have hiff := exists_head?_closer ((place.passToken token).passText (back.text.take n))
      rest hne hname hsame
    rw [hcloser] at hback ⊢
    rw [hdrop, ← hplace, ← hfollows]
    constructor
    · intro next hnext
      rw [hback, head?_consText, Option.mem_def, Option.map_eq_some_iff] at hnext
      obtain ⟨first, -, rfl⟩ := hnext
      exact List.prefix_append _ _
    · rw [← hiff, ← exists_head?_consText (back.text.take n) _ fun next =>
        next.kind = .closeTag ∧ Text.sameName (tagName next.text) name = true, ← hback]

/-- In markup, raw text with tags and braces in it ends at the first closing tag of its element,
which is written in other case and with a blank before its end. -/
theorem next_behind_styleTag :
    let front : Segmentation := ⟨[⟨[], ⟨.openTag, "<p>".toList⟩⟩], []⟩
    let token : Token := ⟨.openTag, "<Style>".toList⟩
    let back : Segmentation :=
      ⟨[⟨"a</b> \x7d\n".toList, ⟨.closeTag, "</sTYLE >".toList⟩⟩,
        ⟨[], ⟨.closeTag, "</p>".toList⟩⟩], []⟩
    segment "<p><Style>a</b> \x7d\n</sTYLE ></p>".toList = join front token back ∧
      ∃ next ∈ back.segments.head?, next.gap = "a</b> \x7d\n".toList ∧
        next.token.kind = .closeTag ∧
          Text.sameName (tagName next.token.text) (tagName token.text) = true := by
  intro front token back
  have hcut : segment "<p><Style>a</b> \x7d\n</sTYLE ></p>".toList = join front token back := by
    with_unfolding_all rfl
  have hfound : Text.indexOf? ('<' :: '/' :: Text.lower (tagName token.text))
      (Text.lower back.text) = some 8 := by decide
  have hnext := next_behind_rawTag hcut rfl (by decide)
  dsimp only at hnext
  rw [hfound] at hnext
  exact ⟨hcut, hnext.2.2 (by decide)⟩

/-- In a block, a word at the end of a raw text hides the tag that closes its element, and the next
token is the brace of the block. -/
theorem next_behind_scriptInBlock :
    ¬ ∀ (s : Text) (front back : Segmentation) (token : Token),
      segment s = join front token back → token.kind = .openTag →
      isRawTextName (tagName token.text) = true →
      ∀ next ∈ back.segments.head?, next.token.kind = .closeTag ∧
        Text.sameName (tagName next.token.text) (tagName token.text) = true := by
  intro h
  have hblock := h "@\x7b <script>x</script> \x7d".toList
    ⟨[⟨[], ⟨.braceOpen, "@\x7b".toList⟩⟩], " ".toList⟩
    ⟨[⟨"x</script> ".toList, ⟨.braceClose, "\x7d".toList⟩⟩], []⟩ ⟨.openTag, "<script>".toList⟩
    (by with_unfolding_all rfl) rfl (by decide) _ rfl
  cases hblock.1

end Segmentation

end RazorTidy
