import RazorTidy.Proofs.FlatGroups
import RazorTidy.Proofs.TidyDocs

/-!
# What is measured before a group is printed

The printer measures a group and what follows it by recursion on documents. Two other accounts of
the same answer are given here.

The first one counts. A document has a width on one line (`Doc.flatWidth`), and what follows it has
a width up to the first place where the line may end (`Doc.tailWidth`). The document fits if and
only if it has no hard line and the two widths together are no more than what is left
(`Doc.fits_iff_widths`). For this, what is measured is taken apart into its texts and lines
(`Doc.measure_leaves`), which are then counted one by one.

The second one is a loop (`Gauge`): it keeps a stack of the documents to be measured, takes the
topmost one apart, fetches the next document of what follows when the stack is empty, and stops as
soon as the answer is known or nothing is left of the width. A step keeps the answer
(`Gauge.answer_step`), so the loop ends with it (`Gauge.run_eq_answer`).
-/

set_option autoImplicit false

namespace RazorTidy

namespace Doc

/-! ## Widths -/

/-- What a text or a line is on a line where soft lines are spaces. -/
def inLine : Doc → Text
  | .text s => s
  | .line .soft => [' ']
  | _ => []

/-- The number of characters of texts and soft lines on one line. -/
def widthOf (ds : List Doc) : Nat := (ds.flatMap inLine).length

/-- The width of a document on one line: the characters of its texts, and one for each soft line. -/
def flatWidth (d : Doc) : Nat := widthOf d.leaves

/-- The texts and lines of what is still to be printed, each with the mode of its entry. -/
def pieces (rest : Rest) : List (LineMode × Doc) :=
  rest.flatMap fun entry => (leavesAll entry.2).map (entry.1, ·)

/-- Whether a line goes on behind a text or a line: a hard line ends it, and so does a soft line
that is not printed as a space. -/
def goesOn : LineMode × Doc → Bool
  | (_, .line .hard) => false
  | (.broken, .line .soft) => false
  | _ => true

/-- The width of what is still to be printed up to the first end of a line. -/
def tailWidth (rest : Rest) : Nat := widthOf (((pieces rest).takeWhile goesOn).map Prod.snd)

theorem widthOf_cons (d : Doc) (ds : List Doc) :
    widthOf (d :: ds) = d.inLine.length + widthOf ds := by
  rw [widthOf, List.flatMap_cons, List.length_append]
  rfl

theorem widthOf_append (as bs : List Doc) : widthOf (as ++ bs) = widthOf as + widthOf bs := by
  rw [widthOf, List.flatMap_append, List.length_append]
  rfl

/-! ## Measuring texts and lines one by one -/

mutual
/-- A document is measured as its texts and lines are. -/
theorem measure_leaves (hardFits : Bool) (mode : LineMode) :
    ∀ (d : Doc) (left : Nat),
      measureAll hardFits mode d.leaves left = measure hardFits mode d left
  | .nil, left => rfl
  | .text s, left => measureAll_singleton hardFits mode left (.text s)
  | .line kind, left => measureAll_singleton hardFits mode left (.line kind)
  | .concat items, left => by
    rw [measure]
    exact measureAll_leavesAll hardFits mode items left
  | .indent _ body, left => by
    rw [measure]
    exact measure_leaves hardFits mode body left
  | .group body, left => by
    rw [measure]
    exact measure_leaves hardFits mode body left
theorem measureAll_leavesAll (hardFits : Bool) (mode : LineMode) :
    ∀ (ds : List Doc) (left : Nat),
      measureAll hardFits mode (leavesAll ds) left = measureAll hardFits mode ds left
  | [], left => rfl
  | d :: ds, left => by
    rw [leavesAll_cons, measureAll_append, measure_leaves hardFits mode d left, measureAll]
    congr 1
    funext left'
    exact measureAll_leavesAll hardFits mode ds left'
end

/-- Documents that follow, each as an entry of its own. -/
def oneByOne (ps : List (LineMode × Doc)) : Rest := ps.map fun p => (p.1, [p.2])

theorem measureRest_oneByOne_cons (p : LineMode × Doc) (ps : List (LineMode × Doc)) (left : Nat) :
    measureRest (oneByOne (p :: ps)) left =
      (measure true p.1 p.2 left).andThen (measureRest (oneByOne ps)) := by
  rw [oneByOne, List.map_cons, measureRest, measureAll_singleton]
  rfl

theorem measureRest_oneByOne_append (ps qs : List (LineMode × Doc)) (left : Nat) :
    measureRest (oneByOne (ps ++ qs)) left =
      (measureRest (oneByOne ps) left).andThen (measureRest (oneByOne qs)) := by
  induction ps generalizing left with
  | nil => rfl
  | cons p ps ih =>
    rw [List.cons_append, measureRest_oneByOne_cons, measureRest_oneByOne_cons, andThen_assoc]
    congr 1
    funext left'
    exact ih left'

/-- Documents of one mode may be measured together or each as an entry of its own. -/
theorem measureRest_oneByOne_map (mode : LineMode) (ds : List Doc) (left : Nat) :
    measureRest (oneByOne (ds.map (mode, ·))) left = measureAll true mode ds left := by
  induction ds generalizing left with
  | nil => rfl
  | cons d ds ih =>
    rw [List.map_cons, measureRest_oneByOne_cons, measureAll]
    congr 1
    funext left'
    exact ih left'

/-- What follows may be given document by document, and the documents of its entries may be replaced
by others that are measured alike. -/
theorem measureRest_oneByOne_flatMap {f : List Doc → List Doc}
    (h : ∀ mode ds left, measureAll true mode (f ds) left = measureAll true mode ds left)
    (rest : Rest) (left : Nat) :
    measureRest (oneByOne (rest.flatMap fun entry => (f entry.2).map (entry.1, ·))) left =
      measureRest rest left := by
  induction rest generalizing left with
  | nil => rfl
  | cons entry rest ih =>
    obtain ⟨mode, ds⟩ := entry
    rw [List.flatMap_cons, measureRest_oneByOne_append, measureRest_oneByOne_map, h, measureRest]
    congr 1
    funext left'
    exact ih left'

/-- What follows is measured as its texts and lines are. -/
theorem measureRest_pieces (rest : Rest) (left : Nat) :
    measureRest (oneByOne (pieces rest)) left = measureRest rest left :=
  measureRest_oneByOne_flatMap (measureAll_leavesAll true) rest left

/-- There is room for some characters and what follows them if they take no more than what is left
and there is room for the rest behind them. -/
theorem toBool_take_andThen_iff (n left : Nat) (next : Nat → Measure) :
    ((Measure.take n left).andThen next).toBool = true ↔
      n ≤ left ∧ (next (left - n)).toBool = true := by
  refine ⟨toBool_take_andThen, ?_⟩
  rintro ⟨hle, hnext⟩
  rw [Measure.take, if_pos hle]
  exact hnext

/-- Texts and lines have room if those up to the first end of the line do. -/
theorem toBool_measureRest_oneByOne {ps : List (LineMode × Doc)}
    (hleaves : ∀ p ∈ ps, p.2.isLeaf = true) (left : Nat) :
    (measureRest (oneByOne ps) left).toBool = true ↔
      widthOf ((ps.takeWhile goesOn).map Prod.snd) ≤ left := by
  induction ps generalizing left with
  | nil => exact iff_of_true rfl (Nat.zero_le left)
  | cons p ps ih =>
    obtain ⟨mode, d⟩ := p
    have hrest : ∀ n, (measureRest (oneByOne ps) n).toBool = true ↔
        widthOf ((ps.takeWhile goesOn).map Prod.snd) ≤ n :=
      fun n => ih (fun q hq => hleaves q (List.mem_cons_of_mem _ hq)) n
    -- where the line goes on, the width is taken off what is left and the rest is measured
    have hgo : ∀ n, measure true mode d left = .take n left → goesOn (mode, d) = true →
        d.inLine.length = n → ((measureRest (oneByOne ((mode, d) :: ps)) left).toBool = true ↔
          widthOf ((((mode, d) :: ps).takeWhile goesOn).map Prod.snd) ≤ left) := by
      intro n hmeasure hgoes hlength
      rw [measureRest_oneByOne_cons, hmeasure, toBool_take_andThen_iff, hrest,
        List.takeWhile_cons_of_pos hgoes, List.map_cons, widthOf_cons, hlength]
      omega
    -- where it ends, nothing more is measured
    have hend : measure true mode d left = .settled true → goesOn (mode, d) = false →
        ((measureRest (oneByOne ((mode, d) :: ps)) left).toBool = true ↔
          widthOf ((((mode, d) :: ps).takeWhile goesOn).map Prod.snd) ≤ left) := by
      intro hmeasure hends
      rw [measureRest_oneByOne_cons, hmeasure, List.takeWhile_cons_of_neg (by simp [hends])]
      exact iff_of_true rfl (Nat.zero_le left)
    have hleaf := hleaves _ List.mem_cons_self
    cases d with
    | text s => exact hgo s.length rfl rfl rfl
    | line kind =>
      cases kind with
      | hard => exact hend rfl rfl
      | soft =>
        cases mode with
        | flat => exact hgo 1 rfl rfl rfl
        | broken => exact hend rfl rfl
    | _ => cases hleaf

theorem isLeaf_of_mem_leavesAll {d : Doc} {ds : List Doc} (h : d ∈ leavesAll ds) :
    d.isLeaf = true :=
  (List.mem_filter.1 h).2

theorem isLeaf_of_mem_pieces {rest : Rest} {p : LineMode × Doc} (h : p ∈ pieces rest) :
    p.2.isLeaf = true := by
  obtain ⟨entry, -, hp⟩ := List.mem_flatMap.1 h
  obtain ⟨d, hd, rfl⟩ := List.mem_map.1 hp
  exact isLeaf_of_mem_leavesAll hd

/-- There is room for what follows if it is no wider than what is left, up to the first end of a
line. -/
theorem toBool_measureRest (rest : Rest) (left : Nat) :
    (measureRest rest left).toBool = true ↔ tailWidth rest ≤ left := by
  rw [← measureRest_pieces]
  exact toBool_measureRest_oneByOne (fun p hp => isLeaf_of_mem_pieces hp) left

mutual
/-- A hard line among the texts and lines of a document is a hard line of the document. -/
theorem hasHardLine_of_mem_leaves :
    ∀ d : Doc, .line .hard ∈ d.leaves → hasHardLine d = true
  | .nil, h => by cases h
  | .text s, h => by cases List.mem_singleton.1 h
  | .line .hard, _ => rfl
  | .line .soft, h => by cases List.mem_singleton.1 h
  | .concat items, h => by
    rw [hasHardLine]
    exact anyHardLine_of_mem_leavesAll items h
  | .indent _ body, h => by
    rw [hasHardLine]
    exact hasHardLine_of_mem_leaves body h
  | .group body, h => by
    rw [hasHardLine]
    exact hasHardLine_of_mem_leaves body h
theorem anyHardLine_of_mem_leavesAll :
    ∀ ds : List Doc, .line .hard ∈ leavesAll ds → anyHardLine ds = true
  | [], h => by cases h
  | d :: ds, h => by
    rw [leavesAll_cons, List.mem_append] at h
    rw [anyHardLine, Bool.or_eq_true]
    rcases h with h | h
    · exact Or.inl (hasHardLine_of_mem_leaves d h)
    · exact Or.inr (anyHardLine_of_mem_leavesAll ds h)
end

/-- In front of what follows, a flat document without hard lines counts with its whole width. -/
theorem tailWidth_flat {d : Doc} (hhard : hasHardLine d = false) (rest : Rest) :
    tailWidth ((.flat, [d]) :: rest) = flatWidth d + tailWidth rest := by
  have hall : ∀ p ∈ d.leaves.map (LineMode.flat, ·), goesOn p = true := by
    intro p hp
    obtain ⟨e, he, rfl⟩ := List.mem_map.1 hp
    have hne : e ≠ .line .hard := by
      rintro rfl
      rw [hasHardLine_of_mem_leaves d he] at hhard
      cases hhard
    cases e with
    | line kind =>
      cases kind with
      | hard => exact absurd rfl hne
      | soft => rfl
    | _ => rfl
  have hpieces :
      pieces ((.flat, [d]) :: rest) = d.leaves.map (LineMode.flat, ·) ++ pieces rest := by
    rw [pieces, List.flatMap_cons, leavesAll_singleton]
    rfl
  have hsnd : (d.leaves.map (LineMode.flat, ·)).map Prod.snd = d.leaves := by
    rw [List.map_map]
    exact List.map_id _
  rw [tailWidth, hpieces, List.takeWhile_append_of_pos hall, List.map_append, widthOf_append, hsnd]
  rfl

end Doc

/-! ## The loop -/

/-- A document that the loop has to measure. -/
structure Job where
  /-- How its soft lines are printed. -/
  mode : LineMode
  /-- Whether it is part of the document that is to be flat. -/
  own : Bool
  doc : Doc
  flat_of_own : own = true → mode = .flat

/-- A state of the loop. -/
structure Gauge where
  /-- What is left of the width. It is negative when too much has been taken. -/
  left : Int
  /-- The documents to be measured, the next one first. -/
  stack : List Job
  /-- The documents that follow them. -/
  rest : List (LineMode × Doc)

namespace Gauge

open Doc

/-- One step with a document on top of the stack: it is taken off the width, settles the answer or
is taken apart. A group is measured in the mode that it stands in. -/
def measureTop (left : Int) (job : Job) (stack : List Job) (rest : List (LineMode × Doc)) :
    Bool ⊕ Gauge :=
  match job.doc with
  | .nil => .inr ⟨left, stack, rest⟩
  | .text s => .inr ⟨left - s.length, stack, rest⟩
  | .line .hard => .inl !job.own
  | .line .soft =>
    match job.mode with
    | .flat => .inr ⟨left - 1, stack, rest⟩
    | .broken => .inl true
  | .concat items => .inr ⟨left, items.map ({ job with doc := · }) ++ stack, rest⟩
  | .indent _ body => .inr ⟨left, { job with doc := body } :: stack, rest⟩
  | .group body => .inr ⟨left, { job with doc := body } :: stack, rest⟩

/-- One step: the answer if it is known, else the next state. -/
def step (g : Gauge) : Bool ⊕ Gauge :=
  if g.left < 0 then .inl false
  else
    match g.stack, g.rest with
    | job :: stack, rest => measureTop g.left job stack rest
    | [], (mode, d) :: rest => .inr ⟨g.left, [⟨mode, false, d, by simp⟩], rest⟩
    | [], [] => .inl true

/-- The number of documents at any depth that are still to be taken apart or fetched. -/
def size (g : Gauge) : Nat :=
  (withinAll (g.stack.map Job.doc)).length + (withinAll (g.rest.map Prod.snd)).length +
    g.rest.length

/-! ### The loop ends -/

theorem length_withinAll_cons (d : Doc) (ds : List Doc) :
    (withinAll (d :: ds)).length = d.within.length + (withinAll ds).length := by
  rw [withinAll, List.length_append]

theorem length_withinAll_append (as bs : List Doc) :
    (withinAll (as ++ bs)).length = (withinAll as).length + (withinAll bs).length := by
  induction as with
  | nil => exact (Nat.zero_add _).symm
  | cons d ds ih =>
    rw [List.cons_append, length_withinAll_cons, length_withinAll_cons, ih, Nat.add_assoc]

theorem size_push (left left' : Int) (job : Job) (stack : List Job)
    (rest : List (LineMode × Doc)) :
    size ⟨left, job :: stack, rest⟩ = job.doc.within.length + size ⟨left', stack, rest⟩ := by
  simp only [size, List.map_cons, length_withinAll_cons]
  omega

theorem size_pushAll (left left' : Int) (job : Job) (items : List Doc) (stack : List Job)
    (rest : List (LineMode × Doc)) :
    size ⟨left, items.map ({ job with doc := · }) ++ stack, rest⟩ =
      (withinAll items).length + size ⟨left', stack, rest⟩ := by
  have hdocs : (items.map fun item => ({ job with doc := item } : Job)).map Job.doc = items := by
    rw [List.map_map]
    exact List.map_id _
  simp only [size, List.map_append, hdocs, length_withinAll_append]
  omega

/-- A document that is taken apart is no longer on the stack, only its parts are. -/
theorem size_measureTop {left : Int} {job : Job} {stack : List Job}
    {rest : List (LineMode × Doc)} {g' : Gauge} (h : measureTop left job stack rest = .inr g') :
    g'.size < size ⟨left, job :: stack, rest⟩ := by
  obtain ⟨mode, own, d, hown⟩ := job
  rw [size_push left left]
  -- what is taken apart counts one more than its parts together
  cases d with
  | nil =>
    cases h
    exact Nat.lt_add_of_pos_left Nat.one_pos
  | text s =>
    cases h
    exact Nat.lt_add_of_pos_left Nat.one_pos
  | line kind =>
    cases kind with
    | hard => cases h
    | soft =>
      cases mode with
      | flat =>
        cases h
        exact Nat.lt_add_of_pos_left Nat.one_pos
      | broken => cases h
  | concat items =>
    cases h
    rw [size_pushAll left left]
    exact Nat.add_lt_add_right (Nat.lt_succ_self _) _
  | indent spaces body =>
    cases h
    rw [size_push left left]
    exact Nat.add_lt_add_right (Nat.lt_succ_self _) _
  | group body =>
    cases h
    rw [size_push left left]
    exact Nat.add_lt_add_right (Nat.lt_succ_self _) _

/-- Every step brings the loop closer to its end. -/
theorem size_step {g g' : Gauge} (h : g.step = .inr g') : g'.size < g.size := by
  obtain ⟨left, stack, rest⟩ := g
  rw [step] at h
  split at h
  · cases h
  cases stack with
  | cons job stack => exact size_measureTop h
  | nil =>
    cases rest with
    | nil => cases h
    | cons entry rest =>
      cases h
      -- a document that is fetched counts once less
      simp only [size, List.map_cons, List.map_nil, length_withinAll_cons, List.length_cons]
      omega

/-- The answer of the loop. -/
def run (g : Gauge) : Bool :=
  match hstep : g.step with
  | .inl fits => fits
  | .inr g' =>
    have : g'.size < g.size := size_step hstep
    g'.run
termination_by g.size

/-! ### The loop keeps the answer -/

/-- The outcome of measuring the documents of a stack one after the other. A hard line fits only
behind the document that is to be flat. -/
def measureStack : List Job → (left : Nat) → Measure
  | [], left => .room left
  | job :: stack, left =>
    (measure (!job.own) job.mode job.doc left).andThen (measureStack stack)

/-- The answer that measuring the stack and then the rest gives in a state. -/
def answer (g : Gauge) : Bool :=
  if g.left < 0 then false
  else ((measureStack g.stack g.left.toNat).andThen (measureRest (oneByOne g.rest))).toBool

theorem measureStack_map_append (job : Job) (items : List Doc) (stack : List Job) (left : Nat) :
    measureStack (items.map ({ job with doc := · }) ++ stack) left =
      (measureAll (!job.own) job.mode items left).andThen (measureStack stack) := by
  induction items generalizing left with
  | nil => rfl
  | cons d ds ih =>
    rw [List.map_cons, List.cons_append, measureStack, measureAll, andThen_assoc]
    congr 1
    funext left'
    exact ih left'

/-- Characters that are taken off what is left, which may become negative, are measured. -/
theorem answer_take {left : Int} (hleft : ¬ left < 0) (n : Nat) (stack : List Job)
    (rest : List (LineMode × Doc)) :
    answer ⟨left - n, stack, rest⟩ = (((Measure.take n left.toNat).andThen
      (measureStack stack)).andThen (measureRest (oneByOne rest))).toBool := by
  rw [answer, Measure.take]
  by_cases hn : n ≤ left.toNat
  · have hroom : (left - n).toNat = left.toNat - n := by omega
    rw [if_neg (show ¬ left - n < 0 by omega), if_pos hn]
    dsimp only
    rw [hroom]
    rfl
  · rw [if_pos (show left - n < 0 by omega), if_neg hn]
    rfl

theorem answer_measureTop {left : Int} (hleft : ¬ left < 0) (job : Job) (stack : List Job)
    (rest : List (LineMode × Doc)) :
    (measureTop left job stack rest).elim id answer = answer ⟨left, job :: stack, rest⟩ := by
  have hanswer : ∀ stack', answer ⟨left, stack', rest⟩ =
      ((measureStack stack' left.toNat).andThen (measureRest (oneByOne rest))).toBool :=
    fun _ => if_neg hleft
  obtain ⟨mode, own, d, hown⟩ := job
  rw [hanswer]
  cases d with
  | nil => exact hanswer stack
  | text s => exact answer_take hleft s.length stack rest
  | line kind =>
    cases kind with
    | hard => rfl
    | soft =>
      cases mode with
      | flat => exact answer_take hleft 1 stack rest
      | broken => rfl
  | concat items =>
    have hitems := hanswer (items.map (⟨mode, own, ·, hown⟩) ++ stack)
    rw [measureStack_map_append ⟨mode, own, .nil, hown⟩] at hitems
    exact hitems
  | indent spaces body => exact hanswer (⟨mode, own, body, hown⟩ :: stack)
  | group body => exact hanswer (⟨mode, own, body, hown⟩ :: stack)

/-- A step gives the answer, or a state with the same answer. -/
theorem answer_step (g : Gauge) : g.step.elim id answer = g.answer := by
  obtain ⟨left, stack, rest⟩ := g
  rw [step]
  dsimp only
  by_cases hleft : left < 0
  · rw [if_pos hleft, answer, if_pos hleft]
    rfl
  rw [if_neg hleft]
  cases stack with
  | cons job stack => exact answer_measureTop hleft job stack rest
  | nil =>
    rw [answer, if_neg hleft]
    cases rest with
    | nil => rfl
    | cons entry rest =>
      -- the document is measured on the stack instead of in front of the rest
      change answer ⟨left, _, rest⟩ = (measureRest (oneByOne (entry :: rest)) left.toNat).toBool
      rw [answer, if_neg hleft, measureRest_oneByOne_cons, measureStack, andThen_assoc]
      rfl

/-- The loop ends with the answer of the state that it starts in. -/
theorem run_eq_answer (g : Gauge) : g.run = g.answer := by
  -- the answer is the invariant: the last step gives it, every other one keeps it
  fun_induction run g with
  | case1 g fits hstep =>
    rw [← answer_step, hstep]
    rfl
  | case2 g g' hstep _ ih =>
    rw [ih, ← answer_step g, hstep]
    rfl

/-- The loop before its first step: a document that is to be flat, and what follows it. -/
def start (left : Nat) (d : Doc) (rest : Rest) : Gauge where
  left := left
  stack := [⟨.flat, true, d, fun _ => rfl⟩]
  rest := rest.flatMap fun entry => entry.2.map (entry.1, ·)

theorem sameRest_start (left : Nat) (d : Doc) (rest : Rest) :
    SameRest (oneByOne (start left d rest).rest) rest :=
  measureRest_oneByOne_flatMap (f := id) (fun _ _ _ => rfl) rest

/-- The loop finds out whether a document fits. -/
theorem run_start (left : Nat) (d : Doc) (rest : Rest) :
    (start left d rest).run = fits left d rest := by
  have hleft : ¬ (left : Int) < 0 := Int.not_lt.2 (Int.natCast_nonneg left)
  rw [run_eq_answer, ← (sameRest_start left d rest).fits_eq, fits]
  refine (if_neg hleft).trans ?_
  rw [start, measureStack, andThen_assoc]
  rfl

end Gauge

/-- A document fits in front of what follows it if and only if it has no hard line and its width,
with the width of what follows up to the first end of a line, is no more than what is left. The loop
finds the same. -/
theorem Doc.fits_iff_widths (left : Nat) (d : Doc) (rest : Rest) :
    (fits left d rest = true ↔
        hasHardLine d = false ∧ flatWidth d + tailWidth rest ≤ left) ∧
      (Gauge.start left d rest).run = fits left d rest := by
  refine ⟨?_, Gauge.run_start left d rest⟩
  rw [fits_iff]
  apply and_congr_right
  intro hhard
  -- the document is measured like one more entry in front of what follows
  have hroom := toBool_measureRest ((.flat, [d]) :: rest) left
  rw [tailWidth_flat hhard, measureRest, measureAll_singleton] at hroom
  exact hroom

end RazorTidy
