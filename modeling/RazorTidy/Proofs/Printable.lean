import RazorTidy.Proofs.Forest
import RazorTidy.Proofs.Listing
import RazorTidy.Proofs.PlainPlaces

/-!
# Printable nodes

A node of a template has something to print: comments and keywords of code start with something
visible, and names of attributes are not blank as far as they hold line breaks
(`Template.printable_parseBody`). What a token starts with is visible, and a line break gets into a
name of an attribute only between quotes.
-/

set_option autoImplicit false

namespace RazorTidy

/-- A text with something other than spaces, and with something visible if it is of several
lines. -/
structure Text.Printable (s : Text) : Prop where
  spaces : s.all (· == ' ') = false
  breaks : '\n' ∈ s → Text.allBlank s = false

/-- A text whose first character is visible. -/
def Text.StartsVisible (s : Text) : Prop := ∃ c r, s = c :: r ∧ isBlank c = false

namespace Text

theorem printable_of_visible {s : Text} (h : allBlank s = false) : Printable s where
  spaces := by
    obtain ⟨c, hc, hblank⟩ := List.all_eq_false.1 h
    refine List.all_eq_false.2 ⟨c, hc, ?_⟩
    rw [beq_iff_eq]
    rintro rfl
    exact hblank (by decide)
  breaks _ := h

theorem allBlank_cons {c : Char} (h : isBlank c = false) (s : Text) :
    allBlank (c :: s) = false := by
  rw [allBlank, List.all_cons, h, Bool.false_and]

theorem StartsVisible.allBlank {s : Text} (h : StartsVisible s) : allBlank s = false := by
  obtain ⟨c, r, rfl, hc⟩ := h
  exact allBlank_cons hc r

theorem Printable.append {s t : Text} (hs : Printable s) (ht : '\n' ∈ t → allBlank t = false) :
    Printable (s ++ t) where
  spaces := by rw [List.all_append, hs.spaces, Bool.false_and]
  breaks := by
    intro hbreak
    rw [allBlank, List.all_append]
    rcases List.mem_append.1 hbreak with hbreak | hbreak
    · rw [show s.all isBlank = false from hs.breaks hbreak, Bool.false_and]
    · rw [show t.all isBlank = false from ht hbreak, Bool.and_false]

end Text

/-! ## Names of attributes -/

namespace Lexeme

/-- A lexeme that may be part of a name is printable. -/
theorem printable_of_mem {s : Text} {l : Lexeme} (h : l ∈ lexemes s)
    (hname : l.endsName = false) : Text.Printable l.text := by
  fun_induction lexemes s with
  | case1 => cases h
  | case2 c r ih =>
    rcases List.mem_cons.1 h with rfl | h
    · unfold extent at hname ⊢
      split at hname
      · cases hname
      rename_i hblank
      split at hname
      · cases hname
      split at hname
      · rename_i hslash
        subst hslash
        exact Text.printable_of_visible rfl
      split at hname
      · rename_i hquote
        have hvisible : Text.isBlank c = false := by
          simp only [isQuote, Bool.or_eq_true, beq_iff_eq] at hquote
          rcases hquote with rfl | rfl <;> decide
        exact Text.printable_of_visible (Text.allBlank_cons hvisible _)
      · -- a run of other characters holds no ASCII blanks at all
        rename_i hequals hslash hquote
        rw [if_neg hblank, if_neg hequals, if_neg hslash, if_neg hquote,
          ← List.prefix_iff_eq_take.1 (List.takeWhile_prefix _)]
        rw [Bool.not_eq_true] at hblank
        have hne : ∀ d, Text.isAsciiBlank d = false → d ≠ ' ' ∧ d ≠ '\n' := by
          intro d hd
          constructor
          · rintro rfl
            cases hd
          · rintro rfl
            cases hd
        constructor
        · rw [List.all_cons, beq_false_of_ne (hne c hblank).1, Bool.false_and]
        · intro hbreak
          rcases List.mem_cons.1 hbreak with heq | hbreak
          · exact absurd heq.symm (hne c hblank).2
          · have hpart := List.mem_takeWhile_imp hbreak
            cases hpart
    · exact ih h

theorem printable_joined {l : Lexeme} {more : List Lexeme} (hl : Text.Printable l.text)
    (hmore : ∀ m ∈ more, Text.Printable m.text) : Text.Printable (joined (l :: more)) := by
  apply hl.append
  intro hbreak
  obtain ⟨m, hm, hbreak⟩ := List.mem_flatMap.1 hbreak
  obtain ⟨c, hc, hvisible⟩ := List.all_eq_false.1 ((hmore m hm).breaks hbreak)
  exact List.all_eq_false.2 ⟨c, List.mem_flatMap.2 ⟨m, hm, hc⟩, hvisible⟩

end Lexeme

/-- The names that lexemes spell are printable if the lexemes are. -/
theorem printable_of_mem_attributeEntries {ls : List Lexeme}
    (hls : ∀ l ∈ ls, l.endsName = false → Text.Printable l.text) {entry : Text × Text}
    (h : entry ∈ attributeEntries ls) : Text.Printable entry.1 := by
  have hdrop : ∀ {l : Lexeme} {rest : List Lexeme} (n : Nat),
      (∀ m ∈ l :: rest, m.endsName = false → Text.Printable m.text) →
      ∀ m ∈ rest.drop n, m.endsName = false → Text.Printable m.text :=
    fun n hall m hm => hall m (List.mem_cons_of_mem _ (List.drop_subset n _ hm))
  have hword : ∀ {l : Lexeme} {rest : List Lexeme}, l.kind = .word →
      (∀ m ∈ l :: rest, m.endsName = false → Text.Printable m.text) →
      Text.Printable (Lexeme.joined (l :: rest.takeWhile (!·.endsName))) := by
    intro l rest hkind hall
    apply Lexeme.printable_joined
    · apply hall l List.mem_cons_self
      rw [Lexeme.endsName, hkind]
      rfl
    · intro m hm
      have hends := List.mem_takeWhile_imp hm
      rw [Bool.not_eq_true'] at hends
      exact hall m (List.mem_cons_of_mem _ ((List.takeWhile_prefix _).subset hm)) hends
  fun_induction attributeEntries ls with
  | case1 => cases h
  | case2 l rest hkind ih => exact ih (hdrop 0 hls) h
  | case3 l rest hkind ih => exact ih (hdrop 0 hls) h
  | case4 l rest hkind ih => exact ih (hdrop 0 hls) h
  | case5 l rest hkind ih =>
    rcases List.mem_cons.1 h with rfl | h
    · apply hls l List.mem_cons_self
      rw [Lexeme.endsName, hkind]
      rfl
    · exact ih (hdrop 0 hls) h
  | case6 l rest hkind more name value n hvalue ih =>
    rcases List.mem_cons.1 h with rfl | h
    · exact hword hkind hls
    · exact ih (hdrop _ hls) h
  | case7 l rest hkind more name hvalue ih =>
    rcases List.mem_cons.1 h with rfl | h
    · exact hword hkind hls
    · exact ih (hdrop _ hls) h

/-- The names of the attributes of a region are printable. -/
theorem AttributeMap.printable_ofRegion (region : Text) :
    ∀ entry ∈ (ofRegion region).entries, Text.Printable entry.1 := by
  intro entry hentry
  exact printable_of_mem_attributeEntries (fun l hl => Lexeme.printable_of_mem hl)
    (mem_of_mem_ofEntries hentry)

/-! ## Nodes -/

/-- The first character of a token is visible. -/
theorem Segmentation.startsVisible_of_mem_tokens {place : Place} {s : Text} {token : Token}
    (h : token ∈ (segmentFrom place s).tokens) : Text.StartsVisible token.text := by
  obtain ⟨place', c, r, n, htoken, htext⟩ := exists_token?_of_mem_tokens h
  refine ⟨c, r.take (n - 1), htext, ?_⟩
  by_contra hblank
  rw [Bool.not_eq_false] at hblank
  rw [(Place.token?_blank place' hblank r).1] at htoken
  cases htoken

/-- A node whose own text is printable, apart from its children. A text may be blank. -/
def Node.Printable : Node → Prop
  | .markup _ attributes _ _ => ∀ entry ∈ attributes.entries, Text.Printable entry.1
  | .code keyword _ _ => Text.StartsVisible keyword
  | .text _ => True
  | .comment content => Text.StartsVisible content

theorem Node.printable_shell (node : Node) : node.shell.Printable ↔ node.Printable := by
  cases node <;> exact Iff.rfl

/-- What holds of the nodes of a forest in pre-order holds everywhere in it. -/
theorem Node.everywhereIn_of_preorderAll {P : Node → Prop}
    (hshell : ∀ node : Node, P node.shell → P node) {nodes : List Node}
    (h : ∀ node ∈ preorderAll nodes, P node) : EverywhereIn P nodes := by
  have hstep : ∀ node : Node,
      (∀ child ∈ node.children, (∀ n ∈ child.preorder, P n) → Everywhere P child) →
      (∀ n ∈ node.preorder, P n) → Everywhere P node := by
    intro node ih hall
    rw [preorder_eq] at hall
    rw [everywhere_iff, everywhereIn_iff]
    refine ⟨hshell _ (hall _ List.mem_cons_self), fun child hchild => ih child hchild ?_⟩
    intro n hn
    apply hall n (List.mem_cons_of_mem _ _)
    rw [preorderAll_eq_flatMap]
    exact List.mem_flatMap.2 ⟨child, hchild, hn⟩
  have heach : ∀ node : Node, (∀ n ∈ node.preorder, P n) → Everywhere P node := by
    intro node
    induction node using Node.induct with
    | markup name attributes children selfClosing ih => exact hstep _ ih
    | code keyword children selfClosing ih => exact hstep _ ih
    | text content => exact hstep _ fun child hchild => by cases hchild
    | comment content => exact hstep _ fun child hchild => by cases hchild
  refine (everywhereIn_iff nodes).2 fun node hnode => heach node fun n hn => h n ?_
  rw [preorderAll_eq_flatMap]
  exact List.mem_flatMap.2 ⟨node, hnode, hn⟩

namespace Template

theorem printable_of_mem_gapNodes {gap : Text} {between : Bool} {node : Node}
    (h : node ∈ gapNodes gap between) : node.Printable := by
  rw [gapNodes] at h
  split at h
  · rw [List.mem_singleton.1 h]
    trivial
  split at h
  · rw [List.mem_singleton.1 h]
    trivial
  · cases h

theorem printable_of_mem_tokenNodes {extra : List Text} {token : Token} {beforeBlock : Bool}
    (htoken : Text.StartsVisible token.text) {node : Node}
    (h : node ∈ tokenNodes extra token beforeBlock) : node.Printable := by
  rw [tokenNodes] at h
  split at h
  · cases h
  rcases token with ⟨kind, text⟩
  cases kind <;>
    simp only [Event.ofToken, Event.node?, Option.toList_some, Option.toList_none,
      List.mem_singleton, List.not_mem_nil] at h <;>
    subst h
  case openTag => exact AttributeMap.printable_ofRegion _
  case voidTag => exact AttributeMap.printable_ofRegion _
  all_goals exact htoken

/-- The nodes that segments give are printable if their tokens are visible. -/
theorem printable_of_mem_listing {extra : List Text} {previous : Option TokenKind}
    {segments : List Segment} {tail : Text}
    (htokens : ∀ segment ∈ segments, Text.StartsVisible segment.token.text) {node : Node}
    (h : node ∈ listing extra previous segments tail) : node.Printable := by
  induction segments generalizing previous with
  | nil => exact printable_of_mem_gapNodes h
  | cons segment rest ih =>
    rcases segment with ⟨gap, token⟩
    rw [listing, List.mem_append, List.mem_append] at h
    rcases h with (hgap | htoken) | hrest
    · exact printable_of_mem_gapNodes hgap
    · exact printable_of_mem_tokenNodes (htokens ⟨gap, token⟩ List.mem_cons_self) htoken
    · exact ih (fun s hs => htokens s (List.mem_cons_of_mem _ hs)) hrest

/-- Every node of a template is printable. -/
theorem printable_parseBody (extra : List Text) (body : Text) :
    Node.EverywhereIn Node.Printable (parseBody extra body) := by
  apply Node.everywhereIn_of_preorderAll fun node => node.printable_shell.1
  intro node hnode
  rw [preorderAll_parseBody] at hnode
  dsimp only at hnode
  split at hnode
  · rw [List.mem_singleton.1 hnode]
    trivial
  · apply printable_of_mem_listing _ hnode
    intro segment hsegment
    exact Segmentation.startsVisible_of_mem_tokens (List.mem_map_of_mem hsegment)

end Template

end RazorTidy
