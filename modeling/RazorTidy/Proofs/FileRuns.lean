import RazorTidy.Command.Run
import RazorTidy.Files.Tree
import Mathlib.Logic.Function.Iterate

/-!
# Runs over files

What a run of the command over a list of files does to the machine it runs on. The style is settled
before the first file is touched, and settling only reads. After that the files are taken in order,
up to the first that cannot be read.

The run is described against the machine as it was at its start. Formatting a file in place keeps
every location and every directory, so the paths of the list lead to the same locations all through
the run, and a file is formatted as many times as paths of the list lead to it
(`World.Rewritten`). `Command.run_files` puts this together with the runs that replace nothing.
-/

set_option autoImplicit false

namespace RazorTidy

/-! ## Actions on a world -/

namespace World

/-- The result of an action in a world, and the world behind it. -/
def act {α : Type} (w : World) (x : ExceptT Failure (StateM World) α) : Except Failure α × World :=
  StateT.run (ExceptT.run x) w

section Act

variable {α β : Type} {w w' : World} {x : ExceptT Failure (StateM World) α}
  {f : α → ExceptT Failure (StateM World) β}

@[simp]
theorem act_pure (w : World) (a : α) : w.act (pure a) = (.ok a, w) := rfl

@[simp]
theorem act_throw (w : World) (failure : Failure) :
    w.act (throw failure : ExceptT Failure (StateM World) α) = (.error failure, w) := rfl

theorem act_bind_ok {a : α} (h : w.act x = (.ok a, w')) : w.act (x >>= f) = w'.act (f a) := by
  have hx : StateT.run (ExceptT.run x) w = (.ok a, w') := h
  rw [act, ExceptT.run_bind, StateT.run_bind, hx]
  rfl

theorem act_bind_error {failure : Failure} (h : w.act x = (.error failure, w')) :
    w.act (x >>= f) = (.error failure, w') := by
  have hx : StateT.run (ExceptT.run x) w = (.error failure, w') := h
  rw [act, ExceptT.run_bind, StateT.run_bind, hx]
  rfl

end Act

/-- An action that leaves the world as it is. -/
def ReadOnly {α : Type} (x : StateM World α) : Prop := ∀ w : World, (StateT.run x w).2 = w

section ReadOnly

variable {α β : Type}

theorem readOnly_pure (a : α) : ReadOnly (pure a) := fun _ => rfl

theorem ReadOnly.bind {x : StateM World α} {f : α → StateM World β} (hx : ReadOnly x)
    (hf : ∀ a, ReadOnly (f a)) : ReadOnly (x >>= f) := by
  intro w
  have hback : (StateT.run (x >>= f) w).2 =
      (StateT.run (f (StateT.run x w).1) (StateT.run x w).2).2 := rfl
  rw [hback, hx w]
  exact hf _ w

theorem readOnly_look (path : Text) : ReadOnly (World.host.look path) := fun _ => rfl

theorem readOnly_read (path : Text) : ReadOnly (World.host.read path) :=
  (readOnly_look path).bind fun _ => readOnly_pure _

theorem readOnly_isFile (path : Text) : ReadOnly (World.host.isFile path) := by
  refine (readOnly_look path).bind fun found => ?_
  cases found with
  | error cause => exact readOnly_pure _
  | ok entry => exact readOnly_pure _

theorem readOnly_firstFile? (paths : List Text) :
    ReadOnly (StyleFile.firstFile? World.host paths) := by
  induction paths with
  | nil => exact readOnly_pure _
  | cons path rest ih =>
    refine (readOnly_isFile path).bind fun found => ?_
    cases found with
    | false => exact ih
    | true => exact readOnly_pure _

theorem readOnly_read? (path : Text) : ReadOnly (StyleFile.read? World.host path) := by
  refine (readOnly_look path).bind fun found => ?_
  cases found with
  | error cause => exact readOnly_pure _
  | ok entry =>
    refine ReadOnly.bind ?_ fun _ => readOnly_pure _
    exact (readOnly_read path).bind fun _ => readOnly_pure _

theorem readOnly_firstStyle (paths : List Text) :
    ReadOnly (StyleFile.firstStyle World.host paths) := by
  induction paths with
  | nil => exact readOnly_pure _
  | cons path rest ih =>
    refine (readOnly_read? path).bind fun found => ?_
    rcases found with cause | style?
    · exact readOnly_pure _
    · cases style? with
      | none => exact ih
      | some style => exact readOnly_pure _

theorem readOnly_load (around : Surroundings) (explicit? : Option Text) :
    ReadOnly (StyleFile.load World.host around explicit?) := by
  cases explicit? with
  | none => exact (readOnly_firstFile? _).bind fun _ => readOnly_firstStyle _
  | some path => exact (readOnly_read _).bind fun _ => readOnly_pure _

/-- Settling the style only reads. -/
theorem readOnly_settle (around : Surroundings) (inv : Invocation) :
    ReadOnly (Command.settle World.host around inv).run := by
  rw [Command.settle, ExceptT.run_bind]
  refine ReadOnly.bind ?_ fun result => ?_
  · exact (readOnly_load around inv.config).bind fun _ => readOnly_pure _
  · rcases result with failure | loaded
    · exact readOnly_pure _
    · rcases loaded with cause | style
      · exact readOnly_pure _
      · dsimp only
        cases (Command.overridden inv style).validate with
        | error cause => exact readOnly_pure _
        | ok style => exact readOnly_pure _

end ReadOnly

/-- The style of an invocation in a world, or why there is none. -/
def settled (w : World) (around : Surroundings) (inv : Invocation) : Except Failure Style :=
  (w.act (Command.settle World.host around inv)).1

theorem act_settle (w : World) (around : Surroundings) (inv : Invocation) :
    w.act (Command.settle World.host around inv) = (w.settled around inv, w) :=
  Prod.ext rfl (readOnly_settle around inv w)

/-- The text of the file that a path leads to, or why it cannot be read. -/
def read (w : World) (path : Text) : Except ReadError Text :=
  w.tree.look w.directory path >>= Entry.read

theorem act_read (w : World) (path : Text) :
    w.act (ExceptT.lift (World.host.read path)) = (.ok (w.read path), w) := rfl

/-- The world behind a file that has been read as `source` and printed as `result`. -/
def treated (w : World) (inv : Invocation) (path source result : Text) : World :=
  if inv.check then
    if result = source then w else { w with output := w.output ++ (path ++ ['\n']) }
  else if inv.write then
    if result = source then w
    else
      { w with
        tree := w.tree.replace w.directory path result
        log := w.log ++ ["formatted ".toList ++ path] }
  else { w with output := w.output ++ result }

end World

/-! ## Runs -/

namespace Command

open World

section Runs

variable {w : World} {inv : Invocation} {style : Style} {path : Text}

theorem runFile_of_error {cause : ReadError} (h : w.read path = .error cause) :
    w.act (runFile World.host inv style path) = (.error (.file path cause), w) := by
  have hread := act_read w path
  rw [h] at hread
  rw [runFile, act_bind_ok hread]
  rfl

theorem runFile_of_ok {source : Text} (h : w.read path = .ok source) :
    w.act (runFile World.host inv style path) =
      (.ok (output inv style source != source),
        w.treated inv path source (output inv style source)) := by
  have hread := act_read w path
  rw [h] at hread
  rw [runFile, act_bind_ok hread, treated]
  dsimp only
  by_cases hsame : output inv style source = source
  · simp only [hsame, bne_self_eq_false, Bool.false_eq_true, if_false, if_true]
    cases inv.check <;> cases inv.write <;> rfl
  · have hchanged : (output inv style source != source) = true := bne_iff_ne.2 hsame
    simp only [hsame, hchanged, if_false, if_true]
    cases inv.check <;> cases inv.write <;> rfl

theorem runFiles_of_error {cause : ReadError} (h : w.read path = .error cause) (rest : List Text) :
    w.act (runFiles World.host inv style (path :: rest)) = (.error (.file path cause), w) := by
  rw [runFiles, act_bind_error (runFile_of_error h)]

/-- A file that can be read is treated, and the run goes on with the rest. -/
theorem runFiles_of_ok {source : Text} (h : w.read path = .ok source) {rest : List Text}
    {result : Except Failure Bool} {w' : World}
    (hrest : (w.treated inv path source (output inv style source)).act
      (runFiles World.host inv style rest) = (result, w')) :
    w.act (runFiles World.host inv style (path :: rest)) =
      (result.map (· || (output inv style source != source)), w') := by
  rw [runFiles, act_bind_ok (runFile_of_ok h)]
  cases result with
  | error failure => rw [act_bind_error hrest, Except.map]
  | ok changed => rw [act_bind_ok hrest, act_pure, Except.map]

theorem exitCode_map_and_false (result : Except Failure Bool) :
    exitCode (result.map (· && false)) = 1 ↔ result.isOk = false := by
  cases result with
  | error failure => exact iff_of_true rfl rfl
  | ok changed => simp [exitCode, Except.map, Except.isOk, Except.toBool]

variable {around : Surroundings}

/-- An outline is neither written nor checked. -/
theorem run_of_conflict (h : inv.emission = some .outline ∧ (inv.write ∨ inv.check)) :
    w.act (run World.host around inv) = (.error .outlineConflict, w) := by
  rw [run, if_pos h, act_bind_error (act_throw w _)]

theorem run_of_unsettled (hplain : ¬ (inv.emission = some .outline ∧ (inv.write ∨ inv.check)))
    {failure : Failure} (h : w.settled around inv = .error failure) :
    w.act (run World.host around inv) = (.error failure, w) := by
  have hsettle := act_settle w around inv
  rw [h] at hsettle
  rw [run, if_neg hplain]
  exact act_bind_error hsettle

theorem run_of_settled (hplain : ¬ (inv.emission = some .outline ∧ (inv.write ∨ inv.check)))
    (h : w.settled around inv = .ok style) (hfiles : inv.files ≠ []) {result : Except Failure Bool}
    {w' : World} (hrun : w.act (runFiles World.host inv style inv.files) = (result, w')) :
    w.act (run World.host around inv) = (result.map (· && inv.check), w') := by
  have hsettle := act_settle w around inv
  rw [h] at hsettle
  have hsome : inv.files.isEmpty = false := by simpa using hfiles
  rw [run, if_neg hplain]
  refine (act_bind_ok hsettle).trans ?_
  rw [hsome]
  cases result with
  | error failure => exact act_bind_error hrun
  | ok changed => exact act_bind_ok hrun

end Runs

end Command

/-! ## Trees with the same files -/

/-- An entry with a change of its text. -/
def Entry.mapText (f : Text → Text) : Entry → Entry
  | .directory => .directory
  | .text content => .text (f content)
  | .binary content => .binary content

namespace FileTree

variable {tree tree' : FileTree} {location : Location}

theorem lookup_filter_of_ne {other : Location} (h : other ≠ location)
    (entries : List (Location × Entry)) :
    (entries.filter (·.1 != location)).lookup other = entries.lookup other := by
  induction entries with
  | nil => rfl
  | cons entry rest ih =>
    obtain ⟨key, value⟩ := entry
    by_cases hkey : key = location
    · subst hkey
      rw [List.filter_cons_of_neg (by simp), ih, List.lookup_cons, beq_false_of_ne h]
    · rw [List.filter_cons_of_pos (by simpa using hkey), List.lookup_cons, List.lookup_cons, ih]

theorem find?_set_self (hne : location ≠ []) (entry : Entry) :
    (tree.set location entry).find? location = some entry := by
  have hempty : location.isEmpty = false := by simpa using hne
  simp [find?, set, hempty]

theorem find?_set_of_ne {other : Location} (h : other ≠ location) (entry : Entry) :
    (tree.set location entry).find? other = tree.find? other := by
  rw [find?, find?, set]
  dsimp only
  rw [List.lookup_cons, beq_false_of_ne h, lookup_filter_of_ne h]

/-- Trees with the same directories and the same files, which may have other texts. -/
def Alike (tree tree' : FileTree) : Prop :=
  ∀ location, ∃ f : Text → Text, tree'.find? location = (tree.find? location).map (Entry.mapText f)

/-- A path leads to the same location in trees with the same directories and files. -/
theorem Alike.resolve_eq (h : Alike tree tree') (start : Location) (path : Text) :
    tree'.resolve start path = tree.resolve start path := by
  -- a step asks only whether there is something and whether it is a directory
  have hstep : tree'.step = tree.step := by
    funext location part
    obtain ⟨f, hf⟩ := h location
    rw [step, step, hf]
    cases tree.find? location with
    | none => rfl
    | some entry =>
      cases entry with
      | directory => rfl
      | text content => rfl
      | binary content => rfl
  rw [resolve, resolve, hstep]

/-- Replacing the text of a file changes the entry at its location only. -/
theorem find?_replace {start : Location} {path content : Text}
    (hpath : tree.resolve start path = .ok location)
    (hfile : tree.find? location = some (.text content)) (result : Text) (other : Location) :
    (tree.replace start path result).find? other =
      if other = location then some (.text result) else tree.find? other := by
  -- the root is a directory, so it is not the location of a file
  have hne : location ≠ [] := by
    rintro rfl
    cases hfile
  rw [replace, hpath]
  dsimp only
  rw [hfile, Option.any_some, Entry.isFile, if_pos rfl]
  split
  · rename_i heq
    rw [heq, find?_set_self hne]
  · rename_i hother
    exact find?_set_of_ne hother _

end FileTree

/-! ## Files formatted in place -/

namespace World

/-- The location that a path leads to. -/
def locate? (w : World) (path : Text) : Option Location :=
  (w.tree.resolve w.directory path).toOption

/-- The text of the file that a path leads to, if it can be read. -/
def text? (w : World) (path : Text) : Option Text := (w.read path).toOption

/-- The paths of a list before the first that cannot be read. -/
def readable (w : World) (paths : List Text) : List Text :=
  paths.takeWhile fun path => (w.text? path).isSome

/-- How many paths of a list lead to a place. -/
def visits (w : World) (paths : List Text) (place : Option Location) : Nat :=
  paths.countP fun path => w.locate? path = place

/-- The text of the file that a path leads to, after each of some paths has formatted its file once.
-/
def textAfter (w : World) (style : Style) (paths : List Text) (path : Text) : Option Text :=
  (w.text? path).map style.format^[w.visits paths (w.locate? path)]

/-- The paths of a list that change their file when it is their turn. -/
def changes (w : World) (style : Style) (paths : List Text) : List Text :=
  (paths.zipIdx.filter fun entry => w.textAfter style (paths.take entry.2) entry.1 !=
    w.textAfter style (paths.take (entry.2 + 1)) entry.1).map Prod.fst

/-- The world `w'` is the world `w` after the files of some paths have been formatted in place, one
path after the other: a file is formatted as many times as paths lead to it, and a path is logged if
it changes its file. Nothing else is different. -/
structure Rewritten (w : World) (style : Style) (paths : List Text) (w' : World) : Prop where
  entries : ∀ location, w'.tree.find? location =
    (w.tree.find? location).map (Entry.mapText style.format^[w.visits paths (some location)])
  log : w'.log = w.log ++ (w.changes style paths).map ("formatted ".toList ++ ·)
  directory : w'.directory = w.directory
  input : w'.input = w.input
  output : w'.output = w.output

section Rewritten

variable {w w₁ : World} {style : Style} {earlier : List Text} {path : Text}

theorem visits_concat (w : World) (paths : List Text) (path : Text) (place : Option Location) :
    w.visits (paths ++ [path]) place =
      w.visits paths place + if w.locate? path = place then 1 else 0 := by
  rw [visits, List.countP_append, List.countP_singleton, visits]
  simp only [decide_eq_true_eq]

theorem changes_concat (w : World) (style : Style) (paths : List Text) (path : Text) :
    w.changes style (paths ++ [path]) = w.changes style paths ++
      if w.textAfter style paths path = w.textAfter style (paths ++ [path]) path then []
      else [path] := by
  -- an entry of `paths` has the same paths in front of it when one more follows
  have hfront : ∀ entry ∈ paths.zipIdx, (paths ++ [path]).take entry.2 = paths.take entry.2 ∧
      (paths ++ [path]).take (entry.2 + 1) = paths.take (entry.2 + 1) := by
    intro entry hentry
    have hlt : entry.2 < paths.length := by
      simpa using (List.mem_zipIdx hentry).2.1
    exact ⟨List.take_append_of_le_length (Nat.le_of_lt hlt), List.take_append_of_le_length hlt⟩
  have hback : (paths ++ [path]).take (paths.length + 1) = paths ++ [path] :=
    List.take_of_length_le (by simp)
  rw [changes, List.zipIdx_append, List.filter_append, List.map_append, changes]
  congr 1
  · refine congrArg _ (List.filter_congr fun entry hentry => ?_)
    rw [(hfront entry hentry).1, (hfront entry hentry).2]
  · rw [Nat.zero_add, List.zipIdx_singleton, List.filter_cons, List.filter_nil]
    dsimp only
    rw [List.take_left, hback]
    by_cases hsame : w.textAfter style paths path = w.textAfter style (paths ++ [path]) path
    · rw [if_pos hsame, hsame, bne_self_eq_false, if_neg Bool.false_ne_true, List.map_nil]
    · rw [if_neg hsame, if_pos (bne_iff_ne.2 hsame), List.map_cons, List.map_nil]

theorem Rewritten.refl (w : World) (style : Style) : w.Rewritten style [] w where
  entries location := by
    cases w.tree.find? location with
    | none => rfl
    | some entry => cases entry <;> rfl
  log := by simp [changes]
  directory := rfl
  input := rfl
  output := rfl

theorem exists_of_read {source : Text} (h : w.read path = .ok source) :
    ∃ location, w.tree.resolve w.directory path = .ok location ∧
      w.tree.find? location = some (.text source) := by
  rw [read, FileTree.look] at h
  cases hpath : w.tree.resolve w.directory path with
  | error cause => rw [hpath] at h; cases h
  | ok location =>
    rw [hpath] at h
    cases hfind : w.tree.find? location with
    | none => simp [bind, Except.bind, hfind] at h
    | some entry =>
      simp only [bind, Except.bind, hfind] at h
      cases entry with
      | directory => cases h
      | text content => cases h; exact ⟨location, rfl, hfind⟩
      | binary content => cases h

theorem Rewritten.resolve_eq (h : w.Rewritten style earlier w₁) (path : Text) :
    w₁.tree.resolve w₁.directory path = w.tree.resolve w.directory path := by
  rw [h.directory]
  exact FileTree.Alike.resolve_eq (fun location => ⟨_, h.entries location⟩) _ _

/-- A path of a rewritten world reads as the text after the paths that have been formatted. -/
theorem Rewritten.read_eq (h : w.Rewritten style earlier w₁) (path : Text) :
    w₁.read path = (w.read path).map style.format^[w.visits earlier (w.locate? path)] := by
  rw [read, FileTree.look, h.resolve_eq, read, FileTree.look, locate?]
  cases w.tree.resolve w.directory path with
  | error cause => rfl
  | ok location =>
    simp only [bind, Except.bind, h.entries location, Except.toOption]
    cases w.tree.find? location with
    | none => rfl
    | some entry =>
      cases entry with
      | directory => rfl
      | text content => rfl
      | binary content => rfl

theorem Rewritten.text?_eq (h : w.Rewritten style earlier w₁) (path : Text) :
    w₁.text? path = w.textAfter style earlier path := by
  rw [text?, h.read_eq, textAfter, text?]
  cases w.read path with
  | error cause => rfl
  | ok source => rfl

theorem textAfter_concat (w : World) (style : Style) (paths : List Text) (path : Text) :
    w.textAfter style (paths ++ [path]) path = (w.textAfter style paths path).map style.format := by
  rw [textAfter, textAfter, visits_concat, if_pos rfl, Option.map_map, Function.iterate_succ']

variable {inv : Invocation}

/-- In a run that writes, a file has its formatted text behind its turn, whether it differs or not. -/
theorem find?_treated (hcheck : inv.check = false) (hwrite : inv.write = true) {source : Text}
    {location : Location} (hpath : w.tree.resolve w.directory path = .ok location)
    (hfile : w.tree.find? location = some (.text source)) (result : Text) (other : Location) :
    (w.treated inv path source result).tree.find? other =
      if other = location then some (.text result) else w.tree.find? other := by
  rw [treated, hcheck, hwrite, if_neg Bool.false_ne_true, if_pos rfl]
  split
  · rename_i hsame
    subst hsame
    split
    · rename_i heq
      rw [heq, hfile]
    · rfl
  · exact FileTree.find?_replace hpath hfile result other

/-- One path further, a rewritten world is rewritten by one path more. -/
theorem Rewritten.treated (h : w.Rewritten style earlier w₁) (hcheck : inv.check = false)
    (hwrite : inv.write = true) {source : Text} (hsource : w₁.read path = .ok source) :
    w.Rewritten style (earlier ++ [path]) (w₁.treated inv path source (style.format source)) := by
  obtain ⟨location, hpath, hfile⟩ := exists_of_read hsource
  have hplace : w.locate? path = some location := by
    rw [locate?, ← h.resolve_eq, hpath]
    rfl
  have htext : w.textAfter style earlier path = some source := by
    rw [← h.text?_eq, text?, hsource]
    rfl
  have hnext : w.textAfter style (earlier ++ [path]) path = some (style.format source) := by
    rw [textAfter_concat, htext]
    rfl
  constructor
  case entries =>
    intro other
    rw [find?_treated hcheck hwrite hpath hfile, visits_concat, hplace]
    by_cases hother : other = location
    · -- the entry at the location of the path is a text, and is formatted once more
      subst hother
      rw [if_pos rfl, if_pos rfl]
      have hentry := h.entries other
      rw [hfile] at hentry
      obtain ⟨entry, hfind, hmap⟩ := Option.map_eq_some_iff.1 hentry.symm
      cases entry with
      | text content =>
        cases hmap
        rw [hfind, Option.map_some, Entry.mapText, Function.iterate_succ_apply']
      | directory => cases hmap
      | binary content => cases hmap
    · -- the path leads to no other location, so the count there stays
      rw [if_neg hother, if_neg (fun heq => hother (Option.some.inj heq).symm), Nat.add_zero]
      exact h.entries other
  case log =>
    -- the path is an entry that changes its file exactly if the text differs at its turn
    rw [changes_concat, htext, hnext, List.map_append, ← List.append_assoc, ← h.log, World.treated,
      hcheck, hwrite, if_neg Bool.false_ne_true, if_pos rfl]
    by_cases hsame : style.format source = source
    · rw [if_pos hsame, hsame, if_pos rfl, List.map_nil, List.append_nil]
    · rw [if_neg hsame, if_neg (fun heq => hsame (Option.some.inj heq).symm)]
      rfl
  all_goals
    rw [World.treated, hcheck, hwrite, if_neg Bool.false_ne_true, if_pos rfl]
    split
  · exact h.directory
  · exact h.directory
  · exact h.input
  · exact h.input
  · exact h.output
  · exact h.output

/-- A run that does not write keeps the tree. -/
theorem tree_runFiles (hwrite : inv.write = false) (w : World) (style : Style) (paths : List Text) :
    (w.act (Command.runFiles World.host inv style paths)).2.tree = w.tree := by
  induction paths generalizing w with
  | nil => rfl
  | cons path rest ih =>
    cases hread : w.read path with
    | error cause => rw [Command.runFiles_of_error hread]
    | ok source =>
      rw [Command.runFiles_of_ok hread (Prod.eta _).symm]
      dsimp only
      rw [ih, World.treated, hwrite, if_neg Bool.false_ne_true]
      split
      · split
        · rfl
        · rfl
      · rfl

theorem readable_cons_of_none {rest : List Text} (h : w.text? path = none) :
    w.readable (path :: rest) = [] := by
  rw [readable, List.takeWhile_cons, h]
  rfl

theorem readable_cons_of_some {source : Text} {rest : List Text} (h : w.text? path = some source) :
    w.readable (path :: rest) = path :: w.readable rest := by
  rw [readable, List.takeWhile_cons, h]
  rfl

theorem output_of_ne_outline (h : inv.emission ≠ some .outline) (style : Style) (source : Text) :
    Command.output inv style source = style.format source := by
  rw [Command.output]
  cases hemission : inv.emission with
  | none => rfl
  | some emission =>
    cases emission with
    | formatted => rfl
    | outline => exact absurd hemission h

/-- A run that writes formats the files in place up to the first that cannot be read, and fails if
there is one. -/
theorem Rewritten.runFiles (hcheck : inv.check = false) (hwrite : inv.write = true)
    (hemission : inv.emission ≠ some .outline) (paths : List Text)
    (h : w.Rewritten style earlier w₁) :
    ∃ result w₂, w₁.act (Command.runFiles World.host inv style paths) = (result, w₂) ∧
      w.Rewritten style (earlier ++ w.readable paths) w₂ ∧
      (result.isOk = false ↔ ∃ path ∈ paths, w.text? path = none) := by
  -- along the list; the paths before it are those that have been formatted
  induction paths generalizing earlier w₁ with
  | nil => exact ⟨.ok false, w₁, rfl, by simpa [readable] using h, by simp [Except.isOk, Except.toBool]⟩
  | cons path rest ih =>
    -- formatting keeps a text a text, so the path can be read now if it could be at the start
    have htext := h.text?_eq path
    cases hread : w₁.read path with
    | error cause =>
      have hnone : w.text? path = none := by
        rw [text?, hread, textAfter] at htext
        exact Option.map_eq_none_iff.1 htext.symm
      refine ⟨_, _, Command.runFiles_of_error hread rest, ?_, ?_⟩
      · rwa [readable_cons_of_none hnone, List.append_nil]
      · exact iff_of_true rfl ⟨path, List.mem_cons_self, hnone⟩
    | ok source =>
      obtain ⟨content, hsome⟩ : ∃ content, w.text? path = some content := by
        rw [text?, hread, textAfter] at htext
        obtain ⟨content, hcontent, -⟩ := Option.map_eq_some_iff.1 htext.symm
        exact ⟨content, hcontent⟩
      obtain ⟨result, w₂, hrun, hrest, hok⟩ := ih (h.treated hcheck hwrite hread)
      rw [← output_of_ne_outline hemission] at hrun
      refine ⟨_, w₂, Command.runFiles_of_ok hread hrun, ?_, ?_⟩
      · rwa [readable_cons_of_some hsome, List.append_cons]
      · simp only [List.mem_cons, exists_eq_or_imp, hsome, reduceCtorEq, false_or]
        rw [← hok]
        cases result with
        | error failure => rfl
        | ok changed => rfl

end Rewritten

end World

/-- A run that writes with a style: what the files make of it. -/
theorem Command.run_writing {inv : Invocation} (hcheck : inv.check = false)
    (hwrite : inv.write = true) (hemission : inv.emission ≠ some .outline) (hfiles : inv.files ≠ [])
    {around : Surroundings} {w : World} {style : Style}
    (hstyle : w.settled around inv = .ok style) :
    ∃ result, w.act (Command.run World.host around inv) =
        (result, (w.act (Command.runFiles World.host inv style inv.files)).2) ∧
      w.Rewritten style (w.readable inv.files)
        (w.act (Command.runFiles World.host inv style inv.files)).2 ∧
      (Command.exitCode result = 1 ↔ ∃ path ∈ inv.files, w.text? path = none) := by
  obtain ⟨result, w', hrun, hrewritten, hfailed⟩ :=
    (World.Rewritten.refl w style).runFiles hcheck hwrite hemission inv.files
  rw [hrun]
  refine ⟨_, Command.run_of_settled (fun hplain => hemission hplain.1) hstyle hfiles hrun,
    hrewritten, ?_⟩
  rw [← hfailed, hcheck]
  exact Command.exitCode_map_and_false result

/-! ## Invocations -/

namespace Invocation

/-- Arguments that are accepted do not ask for files to be both written and checked. -/
theorem not_check_of_finish {inv inv' : Invocation} (h : inv.finish = .ok inv')
    (hwrite : inv'.write = true) : inv'.check = false := by
  rw [finish] at h
  split at h
  · cases h
  · rename_i hboth
    cases h
    simpa [hwrite] using hboth

theorem not_check_of_parseFrom {waiting? : Option Setting} {inv inv' : Invocation}
    {args : List Text} (h : parseFrom waiting? inv args = .ok inv') (hwrite : inv'.write = true) :
    inv'.check = false := by
  have hnext : ∀ {x : Except Refusal Invocation} {f : Invocation → Except Refusal Invocation},
      x >>= f = .ok inv' → ∃ next, f next = .ok inv' := by
    intro x f hbind
    cases x with
    | error refusal => cases hbind
    | ok next => exact ⟨next, hbind⟩
  -- every list of arguments that is accepted comes to its end through `finish`
  fun_induction parseFrom waiting? inv args with
  | case2 => exact not_check_of_finish h hwrite
  | case5 =>
    obtain ⟨next, hfinish⟩ := hnext h
    exact not_check_of_finish hfinish hwrite
  | case3 => rename_i hlooks; rw [if_pos hlooks] at h; cases h
  | case4 =>
    rename_i hlooks ih
    rw [if_neg hlooks] at h
    obtain ⟨next, hrest⟩ := hnext h
    exact ih next hrest
  | case8 => rename_i ih; exact ih h
  | case6 | case7 | case13 =>
    rename_i ih
    obtain ⟨next, hrest⟩ := hnext h
    exact ih next hrest
  | _ => cases h

end Invocation

/-- What a run over files does to them. Without `write` it keeps the tree, and a run without a style or
with an outline to write or to check leaves all as it is. With `write` it formats the files in place
and in order up to the first that cannot be read, and it fails exactly if there is one. -/
theorem Command.run_files {args : List Text} {inv : Invocation}
    (hargs : Invocation.parse args = .ok inv) (hfiles : inv.files ≠ []) (around : Surroundings)
    (w : World) :
    let after := w.act (Command.run World.host around inv)
    (inv.write = false → after.2.tree = w.tree) ∧
    (inv.emission = some .outline ∧ (inv.write ∨ inv.check) →
      Command.exitCode after.1 = 1 ∧ after.2 = w) ∧
    (∀ failure, w.settled around inv = .error failure →
      Command.exitCode after.1 = 1 ∧ after.2 = w) ∧
    ∀ style, w.settled around inv = .ok style → inv.write = true →
      inv.emission ≠ some .outline →
      w.Rewritten style (w.readable inv.files) after.2 ∧
        (Command.exitCode after.1 = 1 ↔ ∃ path ∈ inv.files, w.text? path = none) := by
  intro after
  have hconflict : inv.emission = some .outline ∧ (inv.write ∨ inv.check) →
      Command.exitCode after.1 = 1 ∧ after.2 = w := by
    intro h
    have hafter : after = (.error .outlineConflict, w) := Command.run_of_conflict h
    rw [hafter]
    exact ⟨rfl, rfl⟩
  have hunsettled : ∀ failure, w.settled around inv = .error failure →
      Command.exitCode after.1 = 1 ∧ after.2 = w := by
    intro failure hfailure
    by_cases hplain : inv.emission = some .outline ∧ (inv.write ∨ inv.check)
    · exact hconflict hplain
    · have hafter : after = (.error failure, w) := Command.run_of_unsettled hplain hfailure
      rw [hafter]
      exact ⟨rfl, rfl⟩
  refine ⟨fun hwrite => ?_, hconflict, hunsettled, fun style hstyle hwrite hemission => ?_⟩
  · by_cases hplain : inv.emission = some .outline ∧ (inv.write ∨ inv.check)
    · rw [(hconflict hplain).2]
    · cases hsettled : w.settled around inv with
      | error failure => rw [(hunsettled failure hsettled).2]
      | ok style =>
        have hafter : after = _ := Command.run_of_settled hplain hsettled hfiles (Prod.eta _).symm
        rw [hafter]
        exact World.tree_runFiles hwrite w style inv.files
  · have hcheck : inv.check = false := Invocation.not_check_of_parseFrom hargs hwrite
    obtain ⟨result, hrun, hrewritten, hfailed⟩ :=
      Command.run_writing hcheck hwrite hemission hfiles hstyle
    have hafter : after = (result, _) := hrun
    rw [hafter]
    exact ⟨hrewritten, hfailed⟩

/-- A tree with a template that changes each of the first two times it is formatted. -/
def draftTree : FileTree :=
  (FileTree.empty.addFile ["a".toList] (.text "<a @code /\x7b>x</a>".toList)).addFile ["c".toList]
    (.text "<p>x".toList)

theorem run_files_draftTree :
    let args := ["--write".toList, "a".toList, "./a".toList, "b".toList, "c".toList]
    let inv : Invocation :=
      { files := ["a".toList, "./a".toList, "b".toList, "c".toList], write := true }
    let w : World := { tree := draftTree, directory := [], input := .ok [] }
    let around : Surroundings := ⟨"/".toList, []⟩
    let after := w.act (Command.run World.host around inv)
    Invocation.parse args = .ok inv ∧ inv.files ≠ [] ∧
      after.2.tree.find? ["a".toList] = some (.text "<a\n\n@code \x7b>x</a>\n".toList) ∧
      after.2.tree.find? ["c".toList] = some (.text "<p>x".toList) ∧
      after.2.log = ["formatted a".toList, "formatted ./a".toList] ∧
      Command.exitCode after.1 = 1 := by
  intro args inv w around after
  have hargs : Invocation.parse args = .ok inv := rfl
  have hfiles : inv.files ≠ [] := List.cons_ne_nil _ _
  have hstyle : w.settled around inv = .ok {} := rfl
  obtain ⟨hrewritten, hexit⟩ :=
    (Command.run_files hargs hfiles around w).2.2.2 {} hstyle rfl (by decide)
  refine ⟨hargs, hfiles, ?_, ?_, ?_, hexit.2 ⟨"b".toList, by decide, by decide⟩⟩
  · rw [hrewritten.entries]
    decide +kernel
  · rw [hrewritten.entries]
    decide
  · rw [hrewritten.log]
    decide +kernel

end RazorTidy
