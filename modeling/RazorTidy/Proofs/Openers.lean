import RazorTidy.Proofs.Isolation
import RazorTidy.Proofs.Keyword
import RazorTidy.Proofs.Respacing

/-!
# Openers of code sections in a text

Whether the opener of a code section stands anywhere in a text can be found out from left to right
with a counter for how much of an opener has been read (`CodeSection.advance`, `occurs_iff`). Two
texts are alike if they take the counter to the same place from wherever it stands (`Text.Alike`).
Any run of blanks is like one space, and blanks beside a character that no opener holds do not
matter.
-/

set_option autoImplicit false

namespace RazorTidy

namespace CodeSection

/-! ## Reading openers -/

/-- How much of an opener is read after one more character: so many letters of its word, still five
with blanks behind the word, and six for a whole opener. -/
def advance (n : Nat) (c : Char) : Nat :=
  if n = 6 then 6
  else if n = 5 ∧ c = '{' then 6
  else if n = 5 ∧ Text.isBlank c then 5
  else if opener[n]? = some c then n + 1
  else if c = '@' then 1
  else 0

/-- How much of an opener is read after a text. -/
def progress (n : Nat) (s : Text) : Nat := s.foldl advance n

/-- A text with an opener somewhere in it. -/
def Occurs (s : Text) : Prop := ∃ front back, s = front ++ back ∧ Starts back

theorem progress_append (n : Nat) (s t : Text) :
    progress n (s ++ t) = progress (progress n s) t :=
  List.foldl_append

theorem progress_found (s : Text) : progress 6 s = 6 := by
  induction s with
  | nil => rfl
  | cons c r ih => exact ih

theorem occurs_cons (c : Char) (r : Text) : Occurs (c :: r) ↔ Starts (c :: r) ∨ Occurs r := by
  constructor
  · rintro ⟨front, back, heq, hback⟩
    cases front with
    | nil => exact Or.inl (heq ▸ hback)
    | cons d front' =>
      rw [List.cons_append, List.cons.injEq] at heq
      exact Or.inr ⟨front', back, heq.2, hback⟩
  · rintro (h | ⟨front, back, rfl, hback⟩)
    · exact ⟨[], c :: r, rfl, h⟩
    · exact ⟨c :: front, back, rfl, hback⟩

theorem split_eq_none_iff_not_occurs (s : Text) : (split s).2 = none ↔ ¬ Occurs s := by
  rw [split_eq_none_iff]
  constructor
  · rintro h ⟨front, back, heq, hback⟩
    exact h front back heq hback
  · exact fun h front back heq hback => h ⟨front, back, heq, hback⟩

/-- A text that completes an opener of which `n` letters are read. -/
def Completes (n : Nat) (s : Text) : Prop :=
  ∃ blanks rest, Text.allBlank blanks = true ∧ s = opener.drop n ++ (blanks ++ '{' :: rest)

theorem completes_cons {n : Nat} (hn : n < 5) (c : Char) (r : Text) :
    Completes n (c :: r) ↔ opener[n]? = some c ∧ Completes (n + 1) r := by
  have hlength : n < opener.length := hn
  have hdrop : opener.drop n = opener[n] :: opener.drop (n + 1) := List.drop_eq_getElem_cons hlength
  rw [List.getElem?_eq_getElem hlength, Option.some.injEq]
  constructor
  · rintro ⟨blanks, rest, hblanks, heq⟩
    rw [hdrop, List.cons_append, List.cons.injEq] at heq
    exact ⟨heq.1.symm, blanks, rest, hblanks, heq.2⟩
  · rintro ⟨rfl, blanks, rest, hblanks, rfl⟩
    exact ⟨blanks, rest, hblanks, by rw [hdrop, List.cons_append]⟩

theorem completes_word_cons (c : Char) (r : Text) :
    Completes 5 (c :: r) ↔ c = '{' ∨ Text.isBlank c = true ∧ Completes 5 r := by
  constructor
  · rintro ⟨blanks, rest, hblanks, heq⟩
    cases blanks with
    | nil => exact Or.inl (List.cons.inj heq).1
    | cons b blanks' =>
      rw [Text.allBlank, List.all_cons, Bool.and_eq_true] at hblanks
      obtain ⟨rfl, hr⟩ := List.cons.inj heq
      exact Or.inr ⟨hblanks.1, blanks', rest, hblanks.2, hr⟩
  · rintro (rfl | ⟨hc, blanks, rest, hblanks, rfl⟩)
    · exact ⟨[], r, rfl, rfl⟩
    · refine ⟨c :: blanks, rest, ?_, rfl⟩
      rw [Text.allBlank, List.all_cons, hc]
      exact hblanks

theorem starts_cons (c : Char) (r : Text) : Starts (c :: r) ↔ c = '@' ∧ Completes 1 r := by
  have h := completes_cons (n := 0) (by decide) c r
  rw [show opener[0]? = some '@' from rfl, Option.some.injEq] at h
  exact h.trans (and_congr_left' eq_comm)

/-- An `@` is a letter of the word only at its start. -/
theorem eq_zero_of_at {n : Nat} (h : opener[n]? = some '@') : n = 0 := by
  have hlt : n < 5 := (List.getElem?_eq_some_iff.1 h).1
  revert h
  match n, hlt with
  | 0, _ => exact fun _ => rfl
  | 1, _ | 2, _ | 3, _ | 4, _ => decide

theorem not_completes_nil (n : Nat) : ¬ Completes n [] := by
  rintro ⟨blanks, rest, -, heq⟩
  simp at heq

/-- The counter finds exactly the openers that are completed or stand in the text as a whole. -/
theorem progress_eq_found_iff {n : Nat} (hn : n ≤ 5) (s : Text) :
    progress n s = 6 ↔ Completes n s ∨ Occurs s := by
  induction s generalizing n with
  | nil =>
    have hoccurs : ¬ Occurs [] := by
      rintro ⟨front, back, heq, hback⟩
      obtain ⟨u, rfl⟩ := hback.exists_cons
      simp at heq
    have hne : progress n [] ≠ 6 := by
      show n ≠ 6
      omega
    exact iff_of_false hne fun h => h.elim (not_completes_nil n) hoccurs
  | cons c r ih =>
    have hstep : progress n (c :: r) = progress (advance n c) r := rfl
    rw [hstep, occurs_cons, starts_cons, advance, if_neg (by omega)]
    by_cases hbrace : n = 5 ∧ c = '{'
    · obtain ⟨rfl, rfl⟩ := hbrace
      rw [if_pos ⟨rfl, rfl⟩, progress_found]
      exact iff_of_true rfl (Or.inl ((completes_word_cons '{' r).2 (Or.inl rfl)))
    rw [if_neg hbrace]
    by_cases hblank : n = 5 ∧ Text.isBlank c = true
    · obtain ⟨rfl, hc⟩ := hblank
      have hat : c ≠ '@' := by
        rintro rfl
        exact absurd hc (by decide)
      rw [if_pos ⟨rfl, hc⟩, ih (Nat.le_refl 5), completes_word_cons]
      simp [hc, hat, show c ≠ '{' from fun heq => hbrace ⟨rfl, heq⟩]
    rw [if_neg hblank]
    by_cases hletter : opener[n]? = some c
    · have hlt : n < 5 := (List.getElem?_eq_some_iff.1 hletter).1
      rw [if_pos hletter, ih (by omega), completes_cons hlt]
      constructor
      · rintro (h | h)
        · exact Or.inl ⟨hletter, h⟩
        · exact Or.inr (Or.inr h)
      · rintro (⟨-, h⟩ | ⟨hc, h⟩ | h)
        · exact Or.inl h
        · subst hc
          rw [eq_zero_of_at hletter]
          exact Or.inl h
        · exact Or.inr h
    rw [if_neg hletter]
    have hnot : ¬ Completes n (c :: r) := by
      rcases Nat.lt_or_eq_of_le hn with hlt | rfl
      · rw [completes_cons hlt]
        exact fun h => hletter h.1
      · rw [completes_word_cons]
        rintro (heq | ⟨hc, -⟩)
        · exact hbrace ⟨rfl, heq⟩
        · exact hblank ⟨rfl, hc⟩
    by_cases hat : c = '@'
    · subst hat
      rw [if_pos rfl, ih (by decide)]
      simp only [hnot, true_and, false_or]
    · rw [if_neg hat, ih (by decide)]
      have hwhole : Completes 0 r → Occurs r := fun h => ⟨[], r, rfl, h⟩
      simp only [hnot, hat, false_and, false_or]
      exact ⟨fun h => h.elim hwhole id, Or.inr⟩

theorem occurs_iff (s : Text) : Occurs s ↔ progress 0 s = 6 := by
  rw [progress_eq_found_iff (by decide)]
  exact ⟨Or.inr, fun h => h.elim (fun hc => ⟨[], s, rfl, hc⟩) id⟩

/-! ## What a character does to the counter -/

theorem advance_of_isBlank {c : Char} (h : Text.isBlank c = true) (n : Nat) :
    advance n c = if n = 6 then 6 else if n = 5 then 5 else 0 := by
  have hletter : opener[n]? ≠ some c := by
    intro heq
    have hmem : c ∈ opener := List.mem_of_getElem? heq
    have hall : opener.all (fun d => !Text.isBlank d) = true := by decide
    have hvisible := List.all_eq_true.1 hall c hmem
    rw [h] at hvisible
    cases hvisible
  have hbrace : c ≠ '{' := by
    rintro rfl
    exact absurd h (by decide)
  have hat : c ≠ '@' := by
    rintro rfl
    exact absurd h (by decide)
  simp only [advance, hbrace, and_false, if_false, h, and_true, hletter, hat]

/-- A character that is part of no opener. -/
def Foreign (c : Char) : Prop := Text.isBlank c = false ∧ c ∉ '{' :: opener

instance (c : Char) : Decidable (Foreign c) := inferInstanceAs (Decidable (_ ∧ _))

theorem advance_of_foreign {c : Char} (h : Foreign c) (n : Nat) :
    advance n c = if n = 6 then 6 else 0 := by
  obtain ⟨hblank, hmem⟩ := h
  rw [List.mem_cons, not_or] at hmem
  have hletter : opener[n]? ≠ some c := fun heq => hmem.2 (List.mem_of_getElem? heq)
  have hat : c ≠ '@' := by
    rintro rfl
    exact hmem.2 (by decide)
  simp only [advance, hmem.1, and_false, if_false, hblank, Bool.false_eq_true, hletter, hat]

end CodeSection

/-! ## Texts that read alike -/

namespace Text

open CodeSection (progress advance progress_append)

/-- Texts after which as much of an opener is read, whatever was read before. -/
def Alike (s t : Text) : Prop := ∀ n, progress n s = progress n t

theorem Alike.refl (s : Text) : Alike s s := fun _ => rfl

theorem Alike.symm {s t : Text} (h : Alike s t) : Alike t s := fun n => (h n).symm

theorem Alike.trans {s t u : Text} (h : Alike s t) (h' : Alike t u) : Alike s u :=
  fun n => (h n).trans (h' n)

theorem Alike.append {s t s' t' : Text} (h : Alike s t) (h' : Alike s' t') :
    Alike (s ++ s') (t ++ t') := by
  intro n
  rw [progress_append, progress_append, h n, h' _]

theorem Alike.append_left {s t : Text} (h : Alike s t) (front : Text) :
    Alike (front ++ s) (front ++ t) := (Alike.refl front).append h

theorem Alike.append_right {s t : Text} (h : Alike s t) (back : Text) :
    Alike (s ++ back) (t ++ back) := h.append (Alike.refl back)

/-- Blanks are like one space. -/
theorem alike_space {s : Text} (hne : s ≠ []) (hs : allBlank s = true) : Alike s [' '] := by
  have hspace : isBlank ' ' = true := by decide
  induction s with
  | nil => exact absurd rfl hne
  | cons c r ih =>
    rw [allBlank, List.all_cons, Bool.and_eq_true] at hs
    intro n
    have hfirst : progress n [c] = progress n [' '] := by
      show advance n c = advance n ' '
      rw [CodeSection.advance_of_isBlank hs.1, CodeSection.advance_of_isBlank hspace]
    by_cases hr : r = []
    · rw [hr]
      exact hfirst
    · rw [show c :: r = [c] ++ r from rfl, progress_append, hfirst, ih hr hs.2]
      show advance (advance n ' ') ' ' = advance n ' '
      simp only [CodeSection.advance_of_isBlank hspace]
      split
      · rfl
      · split <;> rfl

/-- A text reads like what it collapses to. -/
theorem alike_collapse (s : Text) : Alike s (collapse s) := by
  have hone : ∀ {c : Char}, isBlank c = true → allBlank [c] = true := by
    intro c hc
    rw [allBlank, List.all_cons, hc]
    rfl
  induction s with
  | nil => exact Alike.refl []
  | cons c r ih =>
    rw [collapse]
    split
    · rename_i hc
      split
      · -- the blank stands in front of another
        rename_i hr
        cases r with
        | nil => cases hr
        | cons d u =>
          have hpair : allBlank [c, d] = true := by
            rw [allBlank, List.all_cons, hc]
            exact hone hr
          have hblanks := (alike_space (by simp) hpair).trans
            (alike_space (by simp) (hone hr)).symm
          exact (hblanks.append_right u).trans ih
      · exact (alike_space (by simp) (hone hc)).append ih
    · exact ih.append_left [c]

/-- What differs in the lengths of blanks only reads alike. -/
theorem Respaced.alike {s t : Text} (h : Respaced s t) : Alike s t := by
  have heq := h [] []
  rw [List.nil_append, List.nil_append, List.append_nil, List.append_nil] at heq
  refine (alike_collapse s).trans ?_
  rw [heq]
  exact (alike_collapse t).symm

/-- Blanks beside a space do not matter. -/
theorem alike_append_space {s : Text} (hs : allBlank s = true) : Alike (s ++ [' ']) [' '] :=
  (respaced_append_space hs).alike

theorem alike_space_append {s : Text} (hs : allBlank s = true) : Alike ([' '] ++ s) [' '] :=
  (respaced_space_append hs).alike

/-- A space in front of a foreign character does not matter. -/
theorem alike_space_cons {c : Char} (h : CodeSection.Foreign c) (s : Text) :
    Alike ([' '] ++ c :: s) (c :: s) := by
  have hfront : Alike [' ', c] [c] := by
    intro n
    show advance (advance n ' ') c = advance n c
    simp only [CodeSection.advance_of_foreign h,
      CodeSection.advance_of_isBlank (c := ' ') (by decide)]
    split
    · rfl
    · split <;> rfl
  exact hfront.append_right s

/-- A space behind a foreign character does not matter. -/
theorem alike_concat_space {c : Char} (h : CodeSection.Foreign c) (s : Text) :
    Alike (s ++ [c] ++ [' ']) (s ++ [c]) := by
  have hback : Alike [c, ' '] [c] := by
    intro n
    show advance (advance n c) ' ' = advance n c
    simp only [CodeSection.advance_of_foreign h,
      CodeSection.advance_of_isBlank (c := ' ') (by decide)]
    split <;> rfl
  rw [List.append_assoc]
  exact hback.append_left s

/-- Texts that read alike between blanks. -/
def AlikeApart (s t : Text) : Prop := Alike ([' '] ++ s ++ [' ']) ([' '] ++ t ++ [' '])

theorem Alike.apart {s t : Text} (h : Alike s t) : AlikeApart s t :=
  (h.append_left [' ']).append_right [' ']

theorem RespacedApart.alikeApart {s t : Text} (h : RespacedApart s t) : AlikeApart s t :=
  Respaced.alike h

/-- An opener stands in both of two texts that read alike between blanks, or in neither. -/
theorem AlikeApart.occurs_iff {s t : Text} (h : AlikeApart s t) :
    CodeSection.Occurs s ↔ CodeSection.Occurs t := by
  have hspace : isBlank ' ' = true := by decide
  have hfound : ∀ u : Text, progress 0 ([' '] ++ u ++ [' ']) = 6 ↔ progress 0 u = 6 := by
    intro u
    rw [progress_append, progress_append]
    show advance (progress 0 u) ' ' = 6 ↔ _
    rw [CodeSection.advance_of_isBlank hspace]
    split
    · rename_i hsix
      exact iff_of_true rfl hsix
    · rename_i hsix
      refine iff_of_false ?_ hsix
      split <;> decide
  rw [CodeSection.occurs_iff, CodeSection.occurs_iff, ← hfound, ← hfound t, h 0]

end Text

/-! ## Sections behind a text -/

namespace CodeSection

/-- The section starts no later than any opener. -/
theorem length_le_of_split {s body codeSection : Text} (h : split s = (body, some codeSection))
    {front back : Text} (heq : s = front ++ back) (hback : Starts back) :
    body.length ≤ front.length := by
  induction s generalizing body front with
  | nil => cases h
  | cons c r ih =>
    rw [split] at h
    split at h
    · cases h
      exact Nat.zero_le _
    · rename_i hopens
      rcases hr : split r with ⟨body', codeSection'⟩
      rw [hr] at h
      cases h
      cases front with
      | nil =>
        rw [List.nil_append] at heq
        exact absurd (heq ▸ (opens_iff back).2 hback) hopens
      | cons d front' =>
        rw [List.cons_append, List.cons.injEq] at heq
        exact Nat.succ_le_succ (ih hr heq.2)

/-- An opener of which a part is read or to be read before an `@` is completed before it. -/
theorem completes_of_append {n : Nat} (hn : n ≤ 5) {front r : Text} (hne : n ≠ 0 ∨ front ≠ [])
    (h : Completes n (front ++ '@' :: r)) : Completes n front := by
  induction front generalizing n with
  | nil =>
    have hzero : n ≠ 0 := hne.resolve_right fun hne => hne rfl
    rw [List.nil_append] at h
    rcases Nat.lt_or_eq_of_le hn with hlt | rfl
    · exact absurd (eq_zero_of_at ((completes_cons hlt _ _).1 h).1) hzero
    · rcases (completes_word_cons _ _).1 h with heq | ⟨hblank, -⟩
      · cases heq
      · exact absurd hblank (by decide)
  | cons c front' ih =>
    rw [List.cons_append] at h
    rcases Nat.lt_or_eq_of_le hn with hlt | rfl
    · obtain ⟨hletter, hrest⟩ := (completes_cons hlt _ _).1 h
      exact (completes_cons hlt _ _).2 ⟨hletter, ih hlt (Or.inl (Nat.succ_ne_zero n)) hrest⟩
    · rcases (completes_word_cons _ _).1 h with heq | ⟨hblank, hrest⟩
      · exact (completes_word_cons _ _).2 (Or.inl heq)
      · exact (completes_word_cons _ _).2
          (Or.inr ⟨hblank, ih (Nat.le_refl 5) (Or.inl (by decide)) hrest⟩)

/-- A section behind a text without an opener is found. -/
theorem split_append_of_not_occurs {front codeSection : Text} (hfront : ¬ Occurs front)
    (h : Starts codeSection) : split (front ++ codeSection) = (front, some codeSection) := by
  obtain ⟨r, rfl⟩ := h.exists_cons
  induction front with
  | nil => rw [List.nil_append, split, if_pos ((opens_iff _).2 h)]
  | cons c front' ih =>
    rw [occurs_cons, not_or] at hfront
    have hopens : ¬ opens (c :: (front' ++ '@' :: 'c' :: r)) = true := by
      intro hopens
      apply hfront.1
      exact completes_of_append (n := 0) (by decide) (Or.inr (List.cons_ne_nil c front'))
        ((opens_iff _).1 hopens)
    rw [List.cons_append, split, if_neg hopens, ih hfront.2]

/-- A section behind a text is found as it is if and only if the text holds no opener. -/
theorem split_append_iff {front codeSection : Text} (h : Starts codeSection) :
    (split (front ++ codeSection)).2 = some codeSection ↔ ¬ Occurs front := by
  constructor
  · rintro hsplit ⟨before, opening, rfl, hopening⟩
    rcases hcut : split (before ++ opening ++ codeSection) with ⟨body, found⟩
    rw [hcut] at hsplit
    subst hsplit
    have hlength := length_le_of_split hcut (List.append_assoc before opening codeSection)
      (hopening.append codeSection)
    have hbody := congrArg List.length (split_spec hcut).1
    obtain ⟨r, rfl⟩ := hopening.exists_cons
    simp only [List.length_append, List.length_cons] at hbody
    omega
  · intro hfront
    rw [split_append_of_not_occurs hfront h]

/-- A section behind a text is the end of the section that is found. -/
theorem exists_split_append {front codeSection : Text} (h : Starts codeSection) :
    ∃ before, (split (front ++ codeSection)).2 = some (before ++ codeSection) := by
  rcases hcut : split (front ++ codeSection) with ⟨body, _ | found⟩
  · have hnone := (split_eq_none_iff_not_occurs (front ++ codeSection)).1 (by rw [hcut])
    exact absurd ⟨front, codeSection, rfl, h⟩ hnone
  · have hlength := length_le_of_split hcut rfl h
    rcases List.append_eq_append_iff.1 (split_spec hcut).1 with
      ⟨before, -, hfound⟩ | ⟨middle, hbody, hfound⟩
    · exact ⟨before, congrArg some hfound⟩
    · -- the section would start behind its own opener
      have hnil : middle = [] := by
        rw [hbody, List.length_append] at hlength
        exact List.eq_nil_of_length_eq_zero (by omega)
      rw [hnil, List.nil_append] at hfound
      exact ⟨[], congrArg some hfound.symm⟩

end CodeSection

end RazorTidy
