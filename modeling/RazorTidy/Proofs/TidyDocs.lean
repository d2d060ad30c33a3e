import RazorTidy.Proofs.Printing

/-!
# Documents without empty parts

A document that is built anew from the bottom up, with the functions that leave out what is empty,
is printed as before (`Doc.render_tidy`). It has no part that is nothing, no sequence directly in a
sequence or with less than two parts, and no indentation by zero; it is nothing at all only if there
is nothing to print.

Leaving parts out and joining sequences changes what is still to be printed when a group is
measured, but not how wide it is (`Doc.measure_tidy`), and the printer looks at it in no other way.
So the two runs of the printer stay in step (`Doc.write_tidy`).
-/

set_option autoImplicit false

namespace RazorTidy

namespace Doc

/-! ## Parts of a document -/

mutual
/-- A document and all documents in it. -/
def within : Doc → List Doc
  | .nil => [.nil]
  | .text s => [.text s]
  | .line kind => [.line kind]
  | .concat items => .concat items :: withinAll items
  | .indent spaces body => .indent spaces body :: within body
  | .group body => .group body :: within body
/-- Documents and all documents in them. -/
def withinAll : List Doc → List Doc
  | [] => []
  | d :: rest => within d ++ withinAll rest
end

/-- Whether a document is a text or a line. -/
def isLeaf : Doc → Bool
  | .text _ => true
  | .line _ => true
  | _ => false

/-- The texts and lines of a document in order. -/
def leaves (d : Doc) : List Doc := d.within.filter isLeaf

/-- The texts and lines of documents in order. -/
def leavesAll (ds : List Doc) : List Doc := (withinAll ds).filter isLeaf

theorem mem_withinAll {e : Doc} {ds : List Doc} :
    e ∈ withinAll ds ↔ ∃ d ∈ ds, e ∈ d.within := by
  induction ds with
  | nil => simp [withinAll]
  | cons d rest ih => simp [withinAll, ih]

theorem leavesAll_cons (d : Doc) (rest : List Doc) :
    leavesAll (d :: rest) = d.leaves ++ leavesAll rest := by
  rw [leavesAll, withinAll, List.filter_append]
  rfl

theorem leavesAll_append (as bs : List Doc) :
    leavesAll (as ++ bs) = leavesAll as ++ leavesAll bs := by
  induction as with
  | nil => rfl
  | cons d rest ih => rw [List.cons_append, leavesAll_cons, leavesAll_cons, ih, List.append_assoc]

theorem leavesAll_singleton (d : Doc) : leavesAll [d] = d.leaves := by
  rw [leavesAll_cons]
  exact List.append_nil _

/-! ## Sequences -/

section Parts

-- a function of documents and one of lists of documents that treats a list as a sequence
variable {α : Type} (f : Doc → α) (g : List Doc → α) (hnil : g [] = f .nil)
  (hone : ∀ d, g [d] = f d) (hconcat : ∀ ds, g ds = f (.concat ds))
include hnil hone hconcat

theorem apply_parts (d : Doc) : g d.parts = f d := by
  cases d with
  | nil => exact hnil
  | concat items => exact hconcat items
  | _ => exact hone _

/-- Such functions agree on a sequence and on the parts that it is put together from. -/
theorem apply_seq (ds : List Doc) : f (seq ds) = g (ds.flatMap parts) := by
  rw [seq]
  split
  · rename_i hparts
    rw [hparts, hnil]
  · rename_i d hparts
    rw [hparts, hone]
  · exact (hconcat _).symm

end Parts

section Sequences

variable (ds : List Doc)

theorem leavesAll_flatMap_parts : leavesAll (ds.flatMap parts) = leavesAll ds := by
  induction ds with
  | nil => rfl
  | cons d rest ih =>
    have hparts := apply_parts leaves leavesAll rfl leavesAll_singleton (fun items => rfl) d
    rw [List.flatMap_cons, leavesAll_append, hparts, ih, leavesAll_cons]

theorem leaves_seq : (seq ds).leaves = leavesAll ds := by
  rw [apply_seq leaves leavesAll rfl leavesAll_singleton fun items => rfl, leavesAll_flatMap_parts]

variable (hardFits : Bool) (mode : LineMode) (left : Nat)

theorem measureAll_singleton (d : Doc) :
    measureAll hardFits mode [d] left = measure hardFits mode d left := by
  rw [measureAll]
  cases measure hardFits mode d left <;> rfl

theorem measureAll_flatMap_parts :
    measureAll hardFits mode (ds.flatMap parts) left = measureAll hardFits mode ds left := by
  induction ds generalizing left with
  | nil => rfl
  | cons d rest ih =>
    have hparts := apply_parts (measure hardFits mode · left) (measureAll hardFits mode · left) rfl
      (measureAll_singleton hardFits mode left) (fun items => rfl) d
    rw [List.flatMap_cons, measureAll_append, hparts, measureAll]
    congr 1
    funext left'
    exact ih left'

theorem measure_seq : measure hardFits mode (seq ds) left = measureAll hardFits mode ds left := by
  rw [← measureAll_flatMap_parts]
  exact apply_seq (measure hardFits mode · left) (measureAll hardFits mode · left) rfl
    (measureAll_singleton hardFits mode left) (fun items => rfl) ds

/-- Documents are printed as their parts. -/
theorem writeAll_flatMap_parts (width indent : Nat) (rest : Rest) (p : Page) :
    writeAll width indent mode (ds.flatMap parts) rest p = writeAll width indent mode ds rest p := by
  induction ds generalizing p with
  | nil => rfl
  | cons d others ih =>
    have hrest : SameRest ((mode, others.flatMap parts) :: rest) ((mode, others) :: rest) := by
      intro left
      rw [measureRest, measureRest, measureAll_flatMap_parts]
    rw [List.flatMap_cons, writeAll_append, write_parts, hrest.write_eq width indent mode d p, ih,
      writeAll]

end Sequences

/-! ## Building anew keeps what is printed -/

mutual
/-- Building a document anew keeps how wide it is. -/
theorem measure_tidy (hardFits : Bool) (mode : LineMode) :
    ∀ (d : Doc) (left : Nat),
      measure hardFits mode (tidy d) left = measure hardFits mode d left
  | .nil, left => rfl
  | .text s, left => by
    rw [tidy, ofText]
    split
    · rename_i hs
      rw [List.isEmpty_iff.1 hs]
      simp [measure, Measure.take]
    · rfl
  | .line kind, left => rfl
  | .concat items, left => by
    rw [tidy, measure_seq, measureAll_tidyAll hardFits mode items left, measure]
  | .indent spaces body, left => by
    rw [tidy, indentBy, measure, ← measure_tidy hardFits mode body left]
    split
    · rfl
    · rw [measure]
  | .group body, left => by
    rw [tidy, grouped, measure, ← measure_tidy hardFits mode body left]
    split
    · rfl
    · rw [measure]
theorem measureAll_tidyAll (hardFits : Bool) (mode : LineMode) :
    ∀ (ds : List Doc) (left : Nat),
      measureAll hardFits mode (tidyAll ds) left = measureAll hardFits mode ds left
  | [], left => rfl
  | d :: rest, left => by
    rw [tidyAll, measureAll, measureAll, measure_tidy hardFits mode d left]
    congr 1
    funext left'
    exact measureAll_tidyAll hardFits mode rest left'
end

theorem sameRest_tidyAll (mode : LineMode) (ds : List Doc) (rest : Rest) :
    SameRest ((mode, tidyAll ds) :: rest) ((mode, ds) :: rest) := by
  intro left
  rw [measureRest, measureRest, measureAll_tidyAll]

theorem fits_tidy (left : Nat) (d : Doc) (rest : Rest) :
    fits left (tidy d) rest = fits left d rest := by
  rw [fits, fits, measure_tidy]

theorem ofText_of_not_mem {s : Text} (h : .text [] ∉ (Doc.text s).within) : ofText s = .text s := by
  have hs : s ≠ [] := by
    rintro rfl
    exact h List.mem_cons_self
  rw [ofText, if_neg (by simpa using hs)]

theorem isNil_iff (d : Doc) : d.isNil = true ↔ d = .nil := by
  cases d <;> simp [isNil]

mutual
/-- Building a document anew keeps what is printed, if it has no empty text: that would still write
the indentation before it. -/
theorem write_tidy (width indent : Nat) (mode : LineMode) :
    ∀ (d : Doc) (_ : .text [] ∉ d.within) (rest : Rest) (p : Page),
      write width indent mode (tidy d) rest p = write width indent mode d rest p
  | .nil, _, rest, p => rfl
  | .text s, h, rest, p => by rw [tidy, ofText_of_not_mem h]
  | .line kind, _, rest, p => rfl
  | .concat items, h, rest, p => by
    have hitems : .text [] ∉ withinAll items := fun hmem => h (List.mem_cons_of_mem _ hmem)
    rw [tidy, write_seq, writeAll_flatMap_parts, write]
    exact writeAll_tidyAll width indent mode items hitems rest p
  | .indent spaces body, h, rest, p => by
    have hbody : .text [] ∉ body.within := fun hmem => h (List.mem_cons_of_mem _ hmem)
    rw [tidy, indentBy, write, ← write_tidy width (indent + spaces) mode body hbody rest p]
    split
    · rename_i hkept
      rcases hkept with rfl | hnil
      · rfl
      · rw [(isNil_iff _).1 hnil]
        rfl
    · rw [write]
  | .group body, h, rest, p => by
    have hbody : .text [] ∉ body.within := fun hmem => h (List.mem_cons_of_mem _ hmem)
    rw [tidy, grouped, write, ← write_tidy width indent _ body hbody rest p]
    split
    · rename_i hnil
      rw [(isNil_iff _).1 hnil]
      rfl
    · rw [write, fits_tidy]
theorem writeAll_tidyAll (width indent : Nat) (mode : LineMode) :
    ∀ (ds : List Doc) (_ : .text [] ∉ withinAll ds) (rest : Rest) (p : Page),
      writeAll width indent mode (tidyAll ds) rest p = writeAll width indent mode ds rest p
  | [], _, rest, p => rfl
  | d :: ds, h, rest, p => by
    rw [withinAll, List.mem_append, not_or] at h
    rw [tidyAll, writeAll, writeAll, write_tidy width indent mode d h.1,
      (sameRest_tidyAll mode ds rest).write_eq width indent mode d p]
    exact writeAll_tidyAll width indent mode ds h.2 rest _
end

mutual
/-- Building a document anew keeps its hard lines. -/
theorem hasHardLine_tidy : ∀ d : Doc, hasHardLine (tidy d) = hasHardLine d
  | .nil => rfl
  | .text s => by
    rw [tidy, ofText]
    split <;> rfl
  | .line kind => rfl
  | .concat items => by rw [tidy, hasHardLine_seq, anyHardLine_tidyAll items, hasHardLine]
  | .indent spaces body => by
    rw [tidy, indentBy, hasHardLine, ← hasHardLine_tidy body]
    split
    · rfl
    · rw [hasHardLine]
  | .group body => by
    rw [tidy, grouped, hasHardLine, ← hasHardLine_tidy body]
    split
    · rfl
    · rw [hasHardLine]
theorem anyHardLine_tidyAll : ∀ ds : List Doc, anyHardLine (tidyAll ds) = anyHardLine ds
  | [] => rfl
  | d :: rest => by
    rw [tidyAll, anyHardLine, anyHardLine, hasHardLine_tidy d, anyHardLine_tidyAll rest]
end

mutual
/-- Building a document anew keeps its texts and lines, if none of the texts is empty. -/
theorem leaves_tidy : ∀ d : Doc, .text [] ∉ d.within → (tidy d).leaves = d.leaves
  | .nil, _ => rfl
  | .text s, h => by rw [tidy, ofText_of_not_mem h]
  | .line kind, _ => rfl
  | .concat items, h => by
    rw [tidy, leaves_seq, leavesAll_tidyAll items fun hmem => h (List.mem_cons_of_mem _ hmem)]
    rfl
  | .indent spaces body, h => by
    have hbody := leaves_tidy body fun hmem => h (List.mem_cons_of_mem _ hmem)
    rw [tidy, indentBy]
    split
    · exact hbody
    · exact hbody
  | .group body, h => by
    have hbody := leaves_tidy body fun hmem => h (List.mem_cons_of_mem _ hmem)
    rw [tidy, grouped]
    split
    · exact hbody
    · exact hbody
theorem leavesAll_tidyAll :
    ∀ ds : List Doc, .text [] ∉ withinAll ds → leavesAll (tidyAll ds) = leavesAll ds
  | [], _ => rfl
  | d :: rest, h => by
    rw [withinAll, List.mem_append, not_or] at h
    rw [tidyAll, leavesAll_cons, leavesAll_cons, leaves_tidy d h.1, leavesAll_tidyAll rest h.2]
end

/-! ## Nothing empty is left -/

/-- A document without empty parts. -/
inductive Compact : Doc → Prop
  | text (s : Text) : Compact (.text s)
  | line (kind : LineKind) : Compact (.line kind)
  | concat {items : List Doc} (hlength : 2 ≤ items.length) (hitems : ∀ item ∈ items, Compact item)
      (hflat : ∀ inner, .concat inner ∉ items) : Compact (.concat items)
  | indent {spaces : Nat} {body : Doc} (hspaces : spaces ≠ 0) (hbody : Compact body) :
      Compact (.indent spaces body)
  | group {body : Doc} (hbody : Compact body) : Compact (.group body)

/-- Every document in a compact one is compact. -/
theorem Compact.of_mem_within {d : Doc} (h : Compact d) : ∀ e ∈ d.within, Compact e := by
  induction h with
  | text s => exact List.forall_mem_singleton.2 (.text s)
  | line kind => exact List.forall_mem_singleton.2 (.line kind)
  | @concat items hlength hitems hflat ih =>
    refine List.forall_mem_cons.2 ⟨.concat hlength hitems hflat, ?_⟩
    intro e he
    obtain ⟨item, hitem, he⟩ := mem_withinAll.1 he
    exact ih item hitem e he
  | indent hspaces hbody ih => exact List.forall_mem_cons.2 ⟨.indent hspaces hbody, ih⟩
  | group hbody ih => exact List.forall_mem_cons.2 ⟨.group hbody, ih⟩

/-- A compact document has something to print. -/
theorem Compact.leaves_ne_nil {d : Doc} (h : Compact d) : d.leaves ≠ [] := by
  induction h with
  | text s => exact List.cons_ne_nil _ _
  | line kind => exact List.cons_ne_nil _ _
  | @concat items hlength hitems hflat ih =>
    cases items with
    | nil => cases hlength
    | cons item others =>
      have hfirst := ih item List.mem_cons_self
      show leavesAll (item :: others) ≠ []
      rw [leavesAll_cons]
      exact List.append_ne_nil_of_left_ne_nil hfirst _
  | indent hspaces hbody ih => exact ih
  | group hbody ih => exact ih

/-- The parts that a compact document, or nothing, contributes to a sequence. -/
theorem compact_of_mem_parts {d e : Doc} (h : d = .nil ∨ Compact d) (he : e ∈ d.parts) :
    Compact e ∧ ∀ inner, e ≠ .concat inner := by
  rcases h with rfl | h
  · cases he
  · cases h with
    | concat hlength hitems hflat =>
      refine ⟨hitems e he, ?_⟩
      rintro inner rfl
      exact hflat inner he
    | text s => rw [List.mem_singleton.1 he]; exact ⟨.text s, fun inner h => by cases h⟩
    | line kind => rw [List.mem_singleton.1 he]; exact ⟨.line kind, fun inner h => by cases h⟩
    | indent hspaces hbody =>
      rw [List.mem_singleton.1 he]
      exact ⟨.indent hspaces hbody, fun inner h => by cases h⟩
    | group hbody => rw [List.mem_singleton.1 he]; exact ⟨.group hbody, fun inner h => by cases h⟩

theorem compact_seq {ds : List Doc} (h : ∀ d ∈ ds, d = .nil ∨ Compact d) :
    seq ds = .nil ∨ Compact (seq ds) := by
  have hparts : ∀ e ∈ ds.flatMap parts, Compact e ∧ ∀ inner, e ≠ .concat inner := by
    intro e he
    obtain ⟨d, hd, he⟩ := List.mem_flatMap.1 he
    exact compact_of_mem_parts (h d hd) he
  rw [seq]
  split
  · exact Or.inl rfl
  · rename_i d hone
    exact Or.inr (hparts d (by rw [hone]; exact List.mem_cons_self)).1
  · rename_i hnone hone
    refine Or.inr (.concat ?_ (fun e he => (hparts e he).1) fun inner he => (hparts _ he).2 inner rfl)
    rcases hitems : ds.flatMap parts with _ | ⟨d, _ | ⟨e, rest⟩⟩
    · exact absurd hitems hnone
    · exact absurd hitems (hone d)
    · simp

mutual
/-- A document that is built anew is nothing, or compact. -/
theorem compact_tidy : ∀ d : Doc, tidy d = .nil ∨ Compact (tidy d)
  | .nil => Or.inl rfl
  | .text s => by
    rw [tidy, ofText]
    split
    · exact Or.inl rfl
    · exact Or.inr (.text s)
  | .line kind => Or.inr (.line kind)
  | .concat items => compact_seq (compact_tidyAll items)
  | .indent spaces body => by
    rw [tidy, indentBy]
    split
    · exact compact_tidy body
    · rename_i hkept
      rw [not_or, isNil_iff] at hkept
      exact Or.inr (.indent hkept.1 ((compact_tidy body).resolve_left hkept.2))
  | .group body => by
    rw [tidy, grouped]
    split
    · exact compact_tidy body
    · rename_i hkept
      rw [isNil_iff] at hkept
      exact Or.inr (.group ((compact_tidy body).resolve_left hkept))
theorem compact_tidyAll : ∀ ds : List Doc, ∀ d ∈ tidyAll ds, d = .nil ∨ Compact d
  | [], d, hd => by cases hd
  | first :: rest, d, hd => by
    rw [tidyAll, List.mem_cons] at hd
    rcases hd with rfl | hd
    · exact compact_tidy first
    · exact compact_tidyAll rest d hd
end

theorem leaves_eq_nil_iff (d : Doc) :
    d.leaves = [] ↔ (∀ s, .text s ∉ d.within) ∧ ∀ kind, .line kind ∉ d.within := by
  rw [leaves, List.filter_eq_nil_iff]
  constructor
  · exact fun h => ⟨fun s hs => h _ hs rfl, fun kind hkind => h _ hkind rfl⟩
  · rintro ⟨htexts, hlines⟩ e he hleaf
    cases e with
    | text s => exact htexts s he
    | line kind => exact hlines kind he
    | _ => cases hleaf

/-- A document without empty texts that is built anew is printed as before at every width, and has a
hard line if it had one. It is nothing if and only if there was neither a text nor a line. No part
of it is nothing, a sequence in it has at least two parts and none of them is a sequence, and nothing
in it is indented by zero. -/
theorem render_tidy (d : Doc) (htexts : .text [] ∉ d.within) :
    (∀ printWidth, d.tidy.render printWidth = d.render printWidth) ∧
      d.tidy.hasHardLine = d.hasHardLine ∧
      (d.tidy = .nil ↔ (∀ s, .text s ∉ d.within) ∧ ∀ kind, .line kind ∉ d.within) ∧
      .nil ∉ d.tidy.within.tail ∧
      (∀ items, .concat items ∈ d.tidy.within →
        2 ≤ items.length ∧ ∀ inner, .concat inner ∉ items) ∧
      ∀ body, .indent 0 body ∉ d.tidy.within := by
  have hcut := compact_tidy d
  have hcompact : ∀ e ∈ d.tidy.within, e = .nil ∨ Compact e := by
    rcases hcut with hnil | hcompact
    · rw [hnil]
      exact List.forall_mem_singleton.2 (Or.inl rfl)
    · exact fun e he => Or.inr (hcompact.of_mem_within e he)
  refine ⟨?_, hasHardLine_tidy d, ?_, ?_, ?_, ?_⟩
  · intro printWidth
    rw [render, render, write_tidy _ 0 .broken d htexts]
  · rw [← leaves_eq_nil_iff, ← leaves_tidy d htexts]
    constructor
    · intro hnil
      rw [hnil]
      rfl
    · exact fun hleaves => hcut.resolve_right fun hcompact => hcompact.leaves_ne_nil hleaves
  · intro hmem
    rcases hcut with hnil | hcompact
    · rw [hnil] at hmem
      cases hmem
    · cases hcompact.of_mem_within .nil (List.mem_of_mem_tail hmem)
  · intro items hmem
    cases (hcompact _ hmem).resolve_left (fun h => by cases h) with
    | concat hlength hitems hflat => exact ⟨hlength, hflat⟩
  · intro body hmem
    cases (hcompact _ hmem).resolve_left (fun h => by cases h) with
    | indent hspaces hbody => exact hspaces rfl

/-- A tag with parts that are nothing, sequences in a sequence and an indentation by zero. -/
def looseDoc : Doc :=
  .group (.concat [.text "<p".toList,
    .indent 4 (.concat [.nil, .line .soft, .concat [.text "id=x".toList, .group (.concat [])]]),
    .indent 0 (.line .soft), .concat [.text ">".toList]])

theorem render_tidy_looseDoc :
    .text [] ∉ looseDoc.within ∧
      looseDoc.tidy = .group (.concat [.text "<p".toList,
        .indent 4 (.concat [.line .soft, .text "id=x".toList]), .line .soft, .text ">".toList]) ∧
      (∀ printWidth, looseDoc.tidy.render printWidth = looseDoc.render printWidth) ∧
      looseDoc.tidy ≠ .nil := by
  have htexts : .text [] ∉ looseDoc.within := by simp [looseDoc, within, withinAll]
  obtain ⟨hrender, -, hnil, -⟩ := render_tidy looseDoc htexts
  refine ⟨htexts, rfl, hrender, fun h => (hnil.1 h).2 .soft ?_⟩
  simp [looseDoc, within, withinAll]

end Doc

end RazorTidy
