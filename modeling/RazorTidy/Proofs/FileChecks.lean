import RazorTidy.Proofs.FileRuns

/-!
# Checks of files

A check lists the files that formatting would change, and a run that writes changes them. The two
take the same files in the same order and stop at the same file, but the files of a run that writes
change under it. `Command.run_checking` says that a check passes exactly if the run that writes
passes and leaves the machine as it was, and what a check prints.
-/

set_option autoImplicit false

namespace RazorTidy

/-- The invocation with its files to be checked and not to be written. -/
def Invocation.checking (inv : Invocation) : Invocation := { inv with write := false, check := true }

/-- The invocation with its files to be written and not to be checked. -/
def Invocation.writing (inv : Invocation) : Invocation := { inv with write := true, check := false }

namespace World

/-- Whether formatting would change the file that a path leads to. -/
def unformatted (w : World) (style : Style) (path : Text) : Bool :=
  (w.text? path).map style.format != w.text? path

/-- The paths before the first that cannot be read whose files formatting would change. -/
def listed (w : World) (style : Style) (paths : List Text) : List Text :=
  (w.readable paths).filter (w.unformatted style)

section Listed

variable {w : World} {style : Style} {path source : Text} {rest : List Text}

theorem text?_of_error {cause : ReadError} (h : w.read path = .error cause) :
    w.text? path = none := by
  rw [text?, h]
  rfl

theorem text?_of_ok (h : w.read path = .ok source) : w.text? path = some source := by
  rw [text?, h]
  rfl

theorem listed_of_error {cause : ReadError} (h : w.read path = .error cause) :
    w.listed style (path :: rest) = [] := by
  rw [listed, readable_cons_of_none (text?_of_error h), List.filter_nil]

theorem listed_of_eq (h : w.read path = .ok source) (hsame : style.format source = source) :
    w.listed style (path :: rest) = w.listed style rest := by
  have htext := text?_of_ok h
  have hformatted : ¬ w.unformatted style path = true := by
    rw [unformatted, htext, Option.map_some, hsame, bne_self_eq_false]
    exact Bool.false_ne_true
  rw [listed, readable_cons_of_some htext, List.filter_cons_of_neg hformatted, listed]

theorem listed_of_ne (h : w.read path = .ok source) (hchanged : style.format source ≠ source) :
    w.listed style (path :: rest) = path :: w.listed style rest := by
  have htext := text?_of_ok h
  have hunformatted : w.unformatted style path = true := by
    rw [unformatted, htext, Option.map_some, bne_iff_ne]
    exact fun heq => hchanged (Option.some.inj heq)
  rw [listed, readable_cons_of_some htext, List.filter_cons_of_pos hunformatted, listed]

end Listed

/-- The world with the paths of a list on its output, one on each line. -/
def listing (w : World) (paths : List Text) : World :=
  { w with output := w.output ++ paths.flatMap (· ++ ['\n']) }

theorem listing_nil (w : World) : w.listing [] = w := by
  rw [listing, List.flatMap_nil, List.append_nil]

theorem listing_listing (w : World) (paths more : List Text) :
    (w.listing paths).listing more = w.listing (paths ++ more) := by
  rw [listing, listing, listing, List.flatMap_append, List.append_assoc]

theorem treated_checking {inv : Invocation} (hcheck : inv.check = true) (w : World)
    (path source result : Text) :
    w.treated inv path source result = if result = source then w else w.listing [path] := by
  rw [treated, hcheck, if_pos rfl, listing, List.flatMap_singleton]

end World

namespace Command

open World

variable {inv : Invocation}

theorem exitCode_eq_one_iff (result : Except Failure Bool) :
    exitCode result = 1 ↔ exitCode result ≠ 0 := by
  rcases result with failure | changed
  · simp [exitCode]
  · cases changed with
    | false => simp [exitCode]
    | true => simp [exitCode]

theorem exitCode_map_and_true (result : Except Failure Bool) :
    exitCode (result.map (· && true)) = exitCode result := by
  rcases result with failure | changed
  · rfl
  · rw [Except.map, Bool.and_true]

theorem exitCode_map_or (result : Except Failure Bool) (changed : Bool) :
    exitCode (result.map (· || changed)) = 0 ↔ exitCode result = 0 ∧ changed = false := by
  rcases result with failure | other
  · simp [exitCode, Except.map]
  · cases other with
    | false => cases changed <;> simp [exitCode, Except.map]
    | true => simp [exitCode, Except.map]

/-- A check prints the paths that it lists, and passes if all files can be read and none is listed. -/
theorem runFiles_checking (hcheck : inv.check = true) (hemission : inv.emission ≠ some .outline)
    (style : Style) (paths : List Text) (w : World) :
    ∃ result, w.act (runFiles World.host inv style paths) =
        (result, w.listing (w.listed style paths)) ∧
      (exitCode result = 0 ↔ (∀ path ∈ paths, w.text? path ≠ none) ∧ w.listed style paths = []) := by
  induction paths generalizing w with
  | nil =>
    refine ⟨.ok false, ?_, iff_of_true rfl ⟨by simp, rfl⟩⟩
    rw [runFiles, act_pure]
    exact congrArg _ w.listing_nil.symm
  | cons path rest ih =>
    cases hread : w.read path with
    | error cause =>
      refine ⟨.error (.file path cause), ?_, iff_of_false (by simp [exitCode]) ?_⟩
      · rw [runFiles_of_error hread, listed_of_error hread, listing_nil]
      · exact fun hall => hall.1 path List.mem_cons_self (text?_of_error hread)
    | ok source =>
      have hsome : w.text? path ≠ none := by simp [text?_of_ok hread]
      have houtput := output_of_ne_outline hemission style source
      by_cases hsame : style.format source = source
      · obtain ⟨result, hrun, hexit⟩ := ih w
        rw [← listed_of_eq hread hsame] at hrun hexit
        have hrest : (w.treated inv path source (output inv style source)).act
            (runFiles World.host inv style rest) =
              (result, w.listing (w.listed style (path :: rest))) := by
          rw [treated_checking hcheck, houtput, if_pos hsame, hrun]
        refine ⟨_, runFiles_of_ok hread hrest, ?_⟩
        rw [exitCode_map_or, hexit, houtput, hsame]
        simp [hsome]
      · -- reading does not see what has been printed
        obtain ⟨result, hrun, -⟩ := ih (w.listing [path])
        have hrest : (w.treated inv path source (output inv style source)).act
            (runFiles World.host inv style rest) =
              (result, w.listing (w.listed style (path :: rest))) := by
          rw [treated_checking hcheck, houtput, if_neg hsame, hrun, listing_listing,
            listed_of_ne hread hsame]
          rfl
        refine ⟨_, runFiles_of_ok hread hrest, ?_⟩
        rw [exitCode_map_or, houtput, listed_of_ne hread hsame]
        simp [hsame]

/-- A run that writes leaves the world as it is if a check of the same files lists none of them. -/
theorem runFiles_writing (hcheck : inv.check = false) (hwrite : inv.write = true)
    (hemission : inv.emission ≠ some .outline) (style : Style) (paths : List Text) (w : World) :
    (w.act (runFiles World.host inv style paths)).2 = w ↔ w.listed style paths = [] := by
  induction paths with
  | nil => exact iff_of_true rfl rfl
  | cons path rest ih =>
    cases hread : w.read path with
    | error cause =>
      rw [runFiles_of_error hread, listed_of_error hread]
      simp
    | ok source =>
      have houtput := output_of_ne_outline hemission style source
      rw [runFiles_of_ok hread (Prod.eta _).symm, houtput]
      by_cases hsame : style.format source = source
      · have htreated : w.treated inv path source (style.format source) = w := by
          rw [treated, hcheck, hwrite, if_neg Bool.false_ne_true, if_pos rfl, if_pos hsame]
        rw [htreated, listed_of_eq hread hsame]
        exact ih
      · -- the log has grown, and the rest of the run only adds to it
        obtain ⟨result, w', hrun, hrest, -⟩ := (Rewritten.refl
          (w.treated inv path source (style.format source)) style).runFiles hcheck hwrite hemission
          rest
        have hlog := hrest.log
        rw [treated, hcheck, hwrite, if_neg Bool.false_ne_true, if_pos rfl, if_neg hsame] at hlog
        rw [hrun, listed_of_ne hread hsame]
        refine iff_of_false (fun heq => ?_) (List.cons_ne_nil _ _)
        rw [show w' = w from heq] at hlog
        simp at hlog

/-- A check with a style: it prints what it lists. -/
theorem run_listing (hcheck : inv.check = true) (hemission : inv.emission ≠ some .outline)
    (hfiles : inv.files ≠ []) {around : Surroundings} {w : World} {style : Style}
    (hstyle : w.settled around inv = .ok style) :
    ∃ result, w.act (run World.host around inv) =
        (result, w.listing (w.listed style inv.files)) ∧
      (exitCode result = 0 ↔
        (∀ path ∈ inv.files, w.text? path ≠ none) ∧ w.listed style inv.files = []) := by
  obtain ⟨result, hrun, hexit⟩ := runFiles_checking hcheck hemission style inv.files w
  refine ⟨_, run_of_settled (fun hplain => hemission hplain.1) hstyle hfiles hrun, ?_⟩
  rw [hcheck, exitCode_map_and_true, hexit]

end Command

/-- A check passes exactly if the run that writes the same files passes and leaves the world as it is.
It prints the paths before the first file that cannot be read whose files formatting would change, one
on each line, and fails if it prints one or cannot read a file. -/
theorem Command.run_checking (inv : Invocation) (hfiles : inv.files ≠ []) (around : Surroundings)
    (w : World) :
    let checked := w.act (Command.run World.host around inv.checking)
    let written := w.act (Command.run World.host around inv.writing)
    (Command.exitCode checked.1 = 0 ↔ Command.exitCode written.1 = 0 ∧ written.2 = w) ∧
    ∀ style, w.settled around inv = .ok style → inv.emission ≠ some .outline →
      checked.2 = w.listing (w.listed style inv.files) ∧
        (Command.exitCode checked.1 = 1 ↔
          w.listed style inv.files ≠ [] ∨ ∃ path ∈ inv.files, w.text? path = none) := by
  intro checked written
  by_cases hemission : inv.emission = some .outline
  · have hchecked : checked = (.error .outlineConflict, w) :=
      Command.run_of_conflict ⟨hemission, Or.inr rfl⟩
    have hwritten : written = (.error .outlineConflict, w) :=
      Command.run_of_conflict ⟨hemission, Or.inl rfl⟩
    rw [hchecked, hwritten]
    exact ⟨by simp [Command.exitCode], fun _ _ hne => absurd hemission hne⟩
  -- settling looks at neither of the two switches
  have hsettledCheck : w.settled around inv.checking = w.settled around inv := rfl
  have hsettledWrite : w.settled around inv.writing = w.settled around inv := rfl
  cases hsettled : w.settled around inv with
  | error failure =>
    have hplain : ∀ inv' : Invocation, inv'.emission = inv.emission →
        ¬ (inv'.emission = some .outline ∧ (inv'.write ∨ inv'.check)) :=
      fun _ heq hconflict => hemission (heq.symm.trans hconflict.1)
    have hchecked : checked = (.error failure, w) :=
      Command.run_of_unsettled (hplain inv.checking rfl) (hsettledCheck.trans hsettled)
    have hwritten : written = (.error failure, w) :=
      Command.run_of_unsettled (hplain inv.writing rfl) (hsettledWrite.trans hsettled)
    rw [hchecked, hwritten]
    exact ⟨by simp [Command.exitCode], fun _ hstyle => by cases hstyle⟩
  | ok style =>
    obtain ⟨result, hcheck, hpasses⟩ := Command.run_listing (show inv.checking.check = true from rfl)
      hemission hfiles (hsettledCheck.trans hsettled)
    obtain ⟨result', hwrite, -, hfails⟩ := Command.run_writing
      (show inv.writing.check = false from rfl) rfl hemission hfiles (hsettledWrite.trans hsettled)
    have hkeeps := Command.runFiles_writing (show inv.writing.check = false from rfl) rfl hemission
      style inv.files w
    have hchecked : checked = (result, _) := hcheck
    have hwritten : written = (result', _) := hwrite
    have hpasses' : Command.exitCode result' = 0 ↔ ∀ path ∈ inv.files, w.text? path ≠ none := by
      rw [Command.exitCode_eq_one_iff, not_iff_comm] at hfails
      rw [← hfails]
      exact not_exists.trans (forall_congr' fun path => not_and)
    rw [hchecked, hwritten]
    constructor
    · rw [hpasses, hpasses']
      exact and_congr_right fun _ => hkeeps.symm
    · rintro _ ⟨⟩ -
      refine ⟨rfl, ?_⟩
      rw [Command.exitCode_eq_one_iff, Ne, hpasses, not_and_or, or_comm]
      simp [Invocation.checking]

theorem run_checking_draftTree :
    let inv : Invocation := { files := ["a".toList, "c".toList, "./a".toList, "b".toList] }
    let w : World := { tree := draftTree, directory := [], input := .ok [] }
    let around : Surroundings := ⟨"/".toList, []⟩
    let checked := w.act (Command.run World.host around inv.checking)
    let written := w.act (Command.run World.host around inv.writing)
    inv.files ≠ [] ∧ checked.2.output = "a\nc\n./a\n".toList ∧ Command.exitCode checked.1 = 1 ∧
      ¬ (Command.exitCode written.1 = 0 ∧ written.2 = w) := by
  intro inv w around checked written
  have hfiles : inv.files ≠ [] := List.cons_ne_nil _ _
  have hstyle : w.settled around inv = .ok {} := rfl
  obtain ⟨hagree, hlisted⟩ := Command.run_checking inv hfiles around w
  obtain ⟨hworld, hexit⟩ := hlisted {} hstyle (by decide)
  have hone : Command.exitCode checked.1 = 1 := hexit.2 (Or.inr ⟨"b".toList, by decide, by decide⟩)
  refine ⟨hfiles, ?_, hone, ?_⟩
  · rw [hworld]
    decide +kernel
  · rw [← hagree, hone]
    decide

end RazorTidy
