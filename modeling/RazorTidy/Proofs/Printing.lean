import RazorTidy.Proofs.Spelling

/-!
# Printing piece by piece

Documents one after the other are printed one after the other (`Doc.writeAll_append`): the later
ones reach back only through the width that a group measures for them, up to the next line break.
So what comes after a hard line has no say in how the documents before it are printed
(`Doc.writeAll_hardLine`).

Lines that do not end with a space are printed as they stand (`Doc.text_write_ofLines`).
-/

set_option autoImplicit false

namespace RazorTidy

namespace Page

/-! ## Firm pages -/

theorem Firm.put {p : Page} (hp : p.Firm) {s : Text} (hs : s.getLast? ≠ some ' ') :
    (p.put s).Firm := by
  cases hlast : s.getLast? with
  | none =>
    rw [List.getLast?_eq_none_iff] at hlast
    subst hlast
    obtain ⟨hpending, hhead⟩ := hp
    exact ⟨rfl, by simpa [Page.put, hpending] using hhead⟩
  | some c =>
    rw [hlast] at hs
    exact firm_put hlast fun hc => hs (congrArg some hc)

theorem Firm.text_put {p : Page} (hp : p.Firm) (s : Text) : (p.put s).text = p.text ++ s := by
  simp [Page.put, text, hp.1]

/-- A line break without indentation leaves a firm page firm. -/
theorem Firm.newLine {p : Page} (hp : p.Firm) :
    (p.newLine 0).text = p.text ++ ['\n'] ∧ (p.newLine 0).Firm := by
  refine ⟨?_, rfl, by simp [Page.newLine]⟩
  have hfull := full_newLine 0 hp
  simpa [full, Page.newLine, hp.1] using hfull

end Page

namespace Doc

/-! ## Measuring what follows -/

theorem andThen_assoc (m : Measure) (f g : Nat → Measure) :
    (m.andThen f).andThen g = m.andThen fun left => (f left).andThen g := by
  cases m <;> rfl

theorem measureAll_append (hardFits : Bool) (mode : LineMode) (as bs : List Doc) (left : Nat) :
    measureAll hardFits mode (as ++ bs) left =
      (measureAll hardFits mode as left).andThen (measureAll hardFits mode bs) := by
  induction as generalizing left with
  | nil => rfl
  | cons d ds ih =>
    rw [List.cons_append, measureAll, measureAll, andThen_assoc]
    congr 1
    funext left'
    exact ih left'

/-- Two lists of what is still to be printed that measure alike. -/
def SameRest (rest rest' : Rest) : Prop := ∀ left, measureRest rest left = measureRest rest' left

theorem SameRest.cons {rest rest' : Rest} (h : SameRest rest rest') (mode : LineMode)
    (ds : List Doc) : SameRest ((mode, ds) :: rest) ((mode, ds) :: rest') := by
  intro left
  rw [measureRest, measureRest]
  congr 1
  funext left'
  exact h left'

/-- Documents that follow may be measured in two parts. -/
theorem sameRest_append (mode : LineMode) (as bs : List Doc) (rest : Rest) :
    SameRest ((mode, as ++ bs) :: rest) ((mode, as) :: (mode, bs) :: rest) := by
  intro left
  rw [measureRest, measureRest, measureAll_append, andThen_assoc]
  rfl

theorem sameRest_nil (mode : LineMode) (rest : Rest) : SameRest ((mode, []) :: rest) rest := by
  intro left
  rfl

/-- Nothing after a hard line is measured. -/
theorem sameRest_hardLine (mode : LineMode) (ds ds' : List Doc) (rest rest' : Rest) :
    SameRest ((mode, hardLine :: ds) :: rest) ((mode, hardLine :: ds') :: rest') := by
  intro left
  rfl

theorem SameRest.fits_eq {rest rest' : Rest} (h : SameRest rest rest') (left : Nat) (d : Doc) :
    fits left d rest = fits left d rest' := by
  have hrest : measureRest rest = measureRest rest' := funext h
  rw [fits, fits, hrest]

mutual
/-- A document is printed alike before what measures alike. -/
theorem SameRest.write_eq (width indent : Nat) (mode : LineMode) :
    ∀ (d : Doc) {rest rest' : Rest} (_ : SameRest rest rest') (p : Page),
      write width indent mode d rest p = write width indent mode d rest' p
  | .nil, _, _, _, p => rfl
  | .text s, _, _, _, p => rfl
  | .line .hard, _, _, _, p => rfl
  | .line .soft, _, _, _, p => rfl
  | .concat items, _, _, h, p => by
    rw [write, write]
    exact SameRest.writeAll_eq width indent mode items h p
  | .indent spaces body, _, _, h, p => by
    rw [write, write]
    exact SameRest.write_eq width (indent + spaces) mode body h p
  | .group body, _, _, h, p => by
    rw [write, write, h.fits_eq]
    exact SameRest.write_eq width indent _ body h p
theorem SameRest.writeAll_eq (width indent : Nat) (mode : LineMode) :
    ∀ (ds : List Doc) {rest rest' : Rest} (_ : SameRest rest rest') (p : Page),
      writeAll width indent mode ds rest p = writeAll width indent mode ds rest' p
  | [], _, _, _, p => rfl
  | d :: ds, _, _, h, p => by
    rw [writeAll, writeAll, SameRest.write_eq width indent mode d (h.cons mode ds) p]
    exact SameRest.writeAll_eq width indent mode ds h _
end

/-! ## Documents one after the other -/

variable {width indent : Nat} {mode : LineMode}

theorem writeAll_append (as bs : List Doc) (rest : Rest) (p : Page) :
    writeAll width indent mode (as ++ bs) rest p =
      writeAll width indent mode bs rest
        (writeAll width indent mode as ((mode, bs) :: rest) p) := by
  induction as generalizing p with
  | nil => rfl
  | cons d ds ih =>
    rw [List.cons_append, writeAll, writeAll, ih]
    congr 2
    exact (sameRest_append mode ds bs rest).write_eq width indent mode d p

theorem writeAll_singleton (d : Doc) (rest : Rest) (p : Page) :
    writeAll width indent mode [d] rest p = write width indent mode d rest p :=
  (sameRest_nil mode rest).write_eq width indent mode d p

/-- A sequence is printed as its parts. -/
theorem write_seq (ds : List Doc) (rest : Rest) (p : Page) :
    write width indent mode (seq ds) rest p =
      writeAll width indent mode (ds.flatMap parts) rest p := by
  rw [seq]
  split
  · rename_i hnil
    rw [hnil]
    rfl
  · rename_i d hsingle
    rw [hsingle, writeAll_singleton]
  · rfl

theorem write_parts (d : Doc) (rest : Rest) (p : Page) :
    writeAll width indent mode d.parts rest p = write width indent mode d rest p := by
  cases d with
  | nil => rfl
  | concat items => rfl
  | _ => exact writeAll_singleton _ rest p

/-- What comes after a hard line does not change what is printed before it. -/
theorem writeAll_hardLine (as bs : List Doc) (rest : Rest) (p : Page) :
    writeAll width indent mode (as ++ hardLine :: bs) rest p =
      writeAll width indent mode bs rest
        (writeAll width indent mode (as ++ [hardLine]) [] p) := by
  rw [writeAll_append, writeAll_append,
    (sameRest_hardLine mode bs [] rest []).writeAll_eq width indent mode as p]
  rfl

/-! ## Lines -/

/-- A line of text, which may be empty, is written as it stands. -/
theorem writeAll_parts_ofText (s : Text) (rest : Rest) {p : Page} (hp : p.Firm) :
    writeAll width indent mode (ofText s).parts rest p = p.put s := by
  rw [write_parts, ofText]
  split
  · rename_i hs
    rw [List.isEmpty_iff.1 hs]
    rcases p with ⟨reversed, column, pending⟩
    obtain ⟨hpending, -⟩ := hp
    simp only at hpending
    subst hpending
    rfl
  · rfl

/-- Lines that do not end with a space are written as they stand, with line breaks between them. -/
theorem text_write_ofLines {ls : List Text} (hls : ∀ line ∈ ls, line.getLast? ≠ some ' ')
    (rest : Rest) {p : Page} (hp : p.Firm) :
    (write width 0 mode (ofLines ls) rest p).text = p.text ++ Text.joinWith ['\n'] ls ∧
      (write width 0 mode (ofLines ls) rest p).Firm := by
  rw [ofLines, write_seq]
  -- the induction is on the lines; the page before each of them is firm
  induction ls generalizing p with
  | nil => exact ⟨(List.append_nil _).symm, hp⟩
  | cons line others ih =>
    have hline := hls line List.mem_cons_self
    have hfirm := hp.put hline
    cases others with
    | nil =>
      have hwrite : writeAll width 0 mode ((([line].map ofText).intersperse hardLine).flatMap parts)
          rest p = p.put line := by
        rw [List.map_singleton, List.intersperse_singleton, List.flatMap_singleton]
        exact writeAll_parts_ofText line rest hp
      rw [hwrite]
      exact ⟨hp.text_put line, hfirm⟩
    | cons next others =>
      have hwrite : writeAll width 0 mode
          ((((line :: next :: others).map ofText).intersperse hardLine).flatMap parts) rest p =
          writeAll width 0 mode ((((next :: others).map ofText).intersperse hardLine).flatMap parts)
            rest ((p.put line).newLine 0) := by
        rw [List.map_cons, List.map_cons, List.intersperse_cons_cons, List.flatMap_cons,
          List.flatMap_cons, writeAll_append, writeAll_parts_ofText line _ hp]
        rfl
      obtain ⟨htext, hbreak⟩ := hfirm.newLine
      obtain ⟨hrest, hrestFirm⟩ := ih (fun l hl => hls l (List.mem_cons_of_mem _ hl)) hbreak
      rw [hwrite]
      refine ⟨?_, hrestFirm⟩
      have hjoin : Text.joinWith ['\n'] (line :: next :: others) =
          line ++ ['\n'] ++ Text.joinWith ['\n'] (next :: others) := rfl
      rw [hrest, htext, hp.text_put, hjoin]
      simp only [List.append_assoc]

end Doc

end RazorTidy
