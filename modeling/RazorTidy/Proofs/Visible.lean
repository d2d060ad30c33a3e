import RazorTidy.Doc.Render
import RazorTidy.Layout.LineBlock

/-!
# Visible characters

The visible characters of a text are those that are not blanks. Trimming, cutting into lines and
normalising a block of lines keep them (`Text.visible_trim`, `Text.visible_lines`,
`LineBlock.visible_normalize`), and so does printing a document, whatever lines the printer breaks
(`Doc.visible_render`).
-/

set_option autoImplicit false

namespace RazorTidy

/-! ## Texts -/

namespace Text

/-- The text without its blanks. -/
def visible (s : Text) : Text := s.filter fun c => !isBlank c

@[simp] theorem visible_nil : visible [] = [] := rfl

@[simp] theorem visible_append (s t : Text) : visible (s ++ t) = visible s ++ visible t :=
  List.filter_append s t

theorem visible_cons_of_isBlank {c : Char} (h : isBlank c = true) (s : Text) :
    visible (c :: s) = visible s := by
  rw [visible, List.filter_cons, h]
  rfl

theorem visible_cons (c : Char) (s : Text) : visible (c :: s) = visible [c] ++ visible s := by
  rw [← visible_append, List.singleton_append]

theorem visible_reverse (s : Text) : visible s.reverse = (visible s).reverse :=
  List.filter_reverse

/-- A text of blanks only has no visible characters. -/
theorem visible_eq_nil_of_forall {s : Text} (h : ∀ c ∈ s, isBlank c = true) : visible s = [] := by
  rw [visible, List.filter_eq_nil_iff]
  intro c hc
  simp [h c hc]

theorem visible_eq_nil_iff_allBlank (s : Text) : visible s = [] ↔ allBlank s = true := by
  simp [visible, allBlank, List.filter_eq_nil_iff]

theorem visible_replicate_space (n : Nat) : visible (List.replicate n ' ') = [] := by
  apply visible_eq_nil_of_forall
  intro c hc
  rw [List.eq_of_mem_replicate hc]
  decide

/-- Dropping blanks in front keeps the visible characters. -/
theorem visible_dropWhile {p : Char → Bool} (hp : ∀ c, p c = true → isBlank c = true) (s : Text) :
    visible (s.dropWhile p) = visible s := by
  induction s with
  | nil => rfl
  | cons c r ih =>
    rw [List.dropWhile_cons]
    split
    · rename_i hc
      rw [ih, visible_cons_of_isBlank (hp c hc)]
    · rfl

theorem visible_trimStart (s : Text) : visible (trimStart s) = visible s :=
  visible_dropWhile (fun _ h => h) s

theorem visible_trimEnd (s : Text) : visible (trimEnd s) = visible s := by
  rw [trimEnd, dropEndWhile, visible_reverse, visible_dropWhile (fun _ h => h), visible_reverse,
    List.reverse_reverse]

@[simp] theorem visible_trim (s : Text) : visible (trim s) = visible s := by
  rw [trim, visible_trimEnd, visible_trimStart]

/-- The lines of a text hold its visible characters. -/
theorem visible_lines (s : Text) : (lines s).flatMap visible = visible s := by
  fun_induction lines s with
  | case1 => rfl
  | case2 r ih =>
    rw [List.flatMap_cons, ih, visible_cons_of_isBlank (by decide),
      visible_cons_of_isBlank (by decide), visible_nil, List.nil_append]
  | case3 r ih =>
    rw [List.flatMap_cons, ih, visible_cons_of_isBlank (by decide), visible_nil, List.nil_append]
  | case4 c r _ _ hnil ih =>
    rw [hnil, List.flatMap_nil] at ih
    rw [visible_cons, ← ih, List.flatMap_singleton, List.append_nil]
  | case5 c r _ _ line rest hcons ih =>
    rw [hcons, List.flatMap_cons] at ih
    rw [visible_cons c r, ← ih, List.flatMap_cons, visible_cons c line, List.append_assoc]

end Text

/-! ## Line blocks -/

namespace LineBlock

theorem visible_dedent (n : Nat) (line : Text) :
    Text.visible (dedent n line) = Text.visible line := by
  fun_induction dedent n line with
  | case1 line => rfl
  | case2 n => rfl
  | case3 n c r hc ih => rw [ih, Text.visible_cons_of_isBlank hc]
  | case4 n c r hc => rfl

theorem visible_dedentAll (ls : List Text) :
    (dedentAll ls).flatMap Text.visible = ls.flatMap Text.visible := by
  simp only [dedentAll, List.flatMap_map, Text.visible_trimEnd, visible_dedent]

theorem visible_squeeze (afterEmpty : Bool) (ls : List Text) :
    (squeeze afterEmpty ls).flatMap Text.visible = ls.flatMap Text.visible := by
  fun_induction squeeze afterEmpty ls with
  | case1 => rfl
  | case2 afterEmpty line rest h ih =>
    -- only an empty line is dropped
    rw [Bool.and_eq_true, List.isEmpty_iff] at h
    rw [ih, List.flatMap_cons, h.1, Text.visible_nil, List.nil_append]
  | case3 afterEmpty line rest h ih => rw [List.flatMap_cons, ih, List.flatMap_cons]

/-- Dropping blank lines in front keeps the visible characters. -/
theorem visible_dropWhile_allBlank (ls : List Text) :
    (ls.dropWhile Text.allBlank).flatMap Text.visible = ls.flatMap Text.visible := by
  induction ls with
  | nil => rfl
  | cons line rest ih =>
    rw [List.dropWhile_cons]
    split
    · rename_i h
      rw [ih, List.flatMap_cons, (Text.visible_eq_nil_iff_allBlank line).2 h, List.nil_append]
    · rfl

theorem visible_dropBlankEnd (ls : List Text) :
    (dropBlankEnd ls).flatMap Text.visible = ls.flatMap Text.visible := by
  -- reversing the lines and each of them turns the end into the front
  have hrev : ∀ xs : List Text, xs.reverse.flatMap Text.visible =
      ((xs.map List.reverse).flatMap Text.visible).reverse := by
    intro xs
    induction xs with
    | nil => rfl
    | cons x rest ih =>
      simp [List.flatMap_append, ih, Text.visible_reverse]
  have hdrop : ∀ xs : List Text, (xs.dropWhile Text.allBlank).map List.reverse =
      (xs.map List.reverse).dropWhile Text.allBlank := by
    intro xs
    rw [List.dropWhile_map]
    congr 2
    funext x
    simp [Text.allBlank]
  rw [dropBlankEnd, hrev, hdrop, visible_dropWhile_allBlank, ← hrev, List.reverse_reverse]

/-- Normalising a block of lines keeps the visible characters. -/
theorem visible_normalize (s : Text) :
    (normalize s).flatMap Text.visible = Text.visible s := by
  have h := visible_dropBlankEnd (Text.lines s)
  rw [Text.visible_lines] at h
  rw [normalize]
  split
  · rename_i hnil
    rw [hnil] at h
    exact h
  · rename_i first rest hcons
    rw [hcons, List.flatMap_cons] at h
    split
    · rename_i hfirst
      rw [(Text.visible_eq_nil_iff_allBlank first).2 hfirst, List.nil_append] at h
      rw [visible_squeeze, visible_dedentAll, visible_dropWhile_allBlank, h]
    · rw [visible_squeeze, List.flatMap_cons, visible_dedentAll, Text.visible_trim, h]

end LineBlock

/-! ## Documents -/

namespace Doc

mutual
/-- The visible characters of the texts of a document, in order. -/
def visible : Doc → Text
  | .nil => []
  | .text s => Text.visible s
  | .line _ => []
  | .concat items => visibleAll items
  | .indent _ body => visible body
  | .group body => visible body
/-- The visible characters of several documents. -/
def visibleAll : List Doc → Text
  | [] => []
  | d :: rest => visible d ++ visibleAll rest
end

attribute [local simp] visible visibleAll in
theorem visibleAll_eq_flatMap (ds : List Doc) : visibleAll ds = ds.flatMap visible := by
  induction ds with
  | nil => rfl
  | cons d rest ih => simp [ih]

@[simp] theorem visible_hardLine : visible hardLine = [] := by rw [hardLine, visible]

@[simp] theorem visible_softLine : visible softLine = [] := by rw [softLine, visible]

@[simp] theorem visible_ofText (s : Text) : visible (ofText s) = Text.visible s := by
  rw [ofText]
  split
  · rename_i h
    rw [List.isEmpty_iff.1 h, visible, Text.visible_nil]
  · rw [visible]

theorem visible_of_isNil {d : Doc} (h : d.isNil = true) : visible d = [] := by
  cases d with
  | nil => rw [visible]
  | _ => simp [isNil] at h

theorem flatMap_visible_parts (d : Doc) : d.parts.flatMap visible = visible d := by
  cases d with
  | nil => simp [parts, visible]
  | concat items => rw [parts, visible, visibleAll_eq_flatMap]
  | _ => simp [parts]

@[simp] theorem visible_seq (ds : List Doc) : visible (seq ds) = ds.flatMap visible := by
  have h : (ds.flatMap parts).flatMap visible = ds.flatMap visible := by
    simp only [List.flatMap_assoc, flatMap_visible_parts]
  rw [← h, seq]
  split
  · rename_i hnil
    rw [hnil, visible, List.flatMap_nil]
  · rename_i d hone
    rw [hone, List.flatMap_singleton]
  · rw [visible, visibleAll_eq_flatMap]

@[simp] theorem visible_indentBy (spaces : Nat) (d : Doc) :
    visible (indentBy spaces d) = visible d := by
  rw [indentBy]
  split
  · rfl
  · rw [visible]

@[simp] theorem visible_grouped (d : Doc) : visible (grouped d) = visible d := by
  rw [grouped]
  split
  · rfl
  · rw [visible]

theorem visible_ofLines (ls : List Text) : visible (ofLines ls) = ls.flatMap Text.visible := by
  rw [ofLines, visible_seq]
  induction ls with
  | nil => rfl
  | cons line rest ih =>
    cases rest with
    | nil => simp
    | cons line' rest' =>
      simp only [List.map_cons, List.intersperse_cons_cons, List.flatMap_cons, visible_ofText,
        visible_hardLine, List.nil_append] at ih ⊢
      rw [ih]

end Doc

/-! ## Pages -/

namespace Page

theorem visible_put (s : Text) (p : Page) :
    Text.visible (p.put s).text = Text.visible p.text ++ Text.visible s := by
  simp [put, text, Text.visible_replicate_space]

/-- A new line takes back spaces only. -/
theorem visible_newLine (indent : Nat) (p : Page) :
    Text.visible (p.newLine indent).text = Text.visible p.text := by
  have hspace : ∀ c : Char, (c == ' ') = true → Text.isBlank c = true := by
    intro c hc
    rw [beq_iff_eq] at hc
    subst hc
    decide
  rw [newLine, text, text, List.reverse_cons, Text.visible_append, Text.visible_reverse,
    Text.visible_dropWhile hspace, ← Text.visible_reverse,
    Text.visible_cons_of_isBlank (by decide), Text.visible_nil, List.append_nil]

end Page

namespace Doc

mutual
/-- Writing a document adds its visible characters to a page, in every mode and whatever is still to
be printed. -/
theorem visible_write (width indent : Nat) (mode : LineMode) :
    ∀ (d : Doc) (rest : Rest) (p : Page),
      Text.visible (write width indent mode d rest p).text = Text.visible p.text ++ visible d
  | .nil, rest, p => by rw [write, visible, List.append_nil]
  | .text s, rest, p => by rw [write, visible, Page.visible_put]
  | .line .hard, rest, p => by rw [write, visible, Page.visible_newLine, List.append_nil]
  | .line .soft, rest, p => by
    rw [write.eq_def, visible, List.append_nil]
    cases mode with
    | flat =>
      show Text.visible (p.put [' ']).text = _
      rw [Page.visible_put, Text.visible_cons_of_isBlank (by decide), Text.visible_nil,
        List.append_nil]
    | broken => exact Page.visible_newLine indent p
  | .concat items, rest, p => by rw [write, visible, visible_writeAll]
  | .indent spaces body, rest, p => by rw [write, visible, visible_write]
  | .group body, rest, p => by rw [write, visible, visible_write]
/-- Writing documents adds their visible characters to a page. -/
theorem visible_writeAll (width indent : Nat) (mode : LineMode) :
    ∀ (ds : List Doc) (rest : Rest) (p : Page),
      Text.visible (writeAll width indent mode ds rest p).text =
        Text.visible p.text ++ visibleAll ds
  | [], rest, p => by rw [writeAll, visibleAll, List.append_nil]
  | d :: ds, rest, p => by
    rw [writeAll, visible_writeAll, visible_write, visibleAll, List.append_assoc]
end

/-- Printing a document for any width gives its visible characters. -/
theorem visible_render (printWidth : Nat) (d : Doc) :
    Text.visible (d.render printWidth) = visible d := by
  rw [render, visible_write]
  rfl

end Doc

end RazorTidy
