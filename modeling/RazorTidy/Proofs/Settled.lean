import RazorTidy.Proofs.Plain

/-!
# Settled forests

A header prints its block after it on one line. If the block starts with an `@`, the header takes
the `@` when the line is read again. `Node.settle` makes this change to a forest, and
`Node.joinsAll` counts the headers that it concerns.

A settled plain forest is plain (`PlainForest.settled`), a forest without such headers is settled
(`PlainForest.settleAll_eq`), and settling takes an `@` for each of them
(`PlainForest.openersAll_settleAll`).
-/

set_option autoImplicit false

namespace RazorTidy

/-! ## Reading a header again -/

namespace Node

/-- Code as it is read again: a directive takes the `@` of its block into its header. -/
def settleCode (keyword : Text) (children : List Node) (selfClosing : Bool) : Node :=
  match children with
  | [.code opener inner closed] =>
    if CodeKind.ofKeyword keyword = .directive ∧ opener = ['@', '{'] then
      .code (keyword ++ [' ', '@']) [.code ['{'] inner closed] selfClosing
    else .code keyword children selfClosing
  | _ => .code keyword children selfClosing

mutual
/-- The node as it is read again after it is printed. -/
def settle : Node → Node
  | .markup name attributes children selfClosing =>
    .markup name attributes (settleAll children) selfClosing
  | .code keyword children selfClosing => settleCode keyword (settleAll children) selfClosing
  | .text content => .text content
  | .comment content => .comment content
/-- The forest as it is read again after it is printed. -/
def settleAll : List Node → List Node
  | [] => []
  | node :: rest => settle node :: settleAll rest
end

end Node

/-- Only a directive takes an `@`. -/
theorem Node.settleCode_of_ne {keyword : Text} (h : CodeKind.ofKeyword keyword ≠ .directive)
    (children : List Node) (selfClosing : Bool) :
    settleCode keyword children selfClosing = .code keyword children selfClosing := by
  unfold settleCode
  split
  · rw [if_neg fun hjoins => h hjoins.1]
  · rfl

theorem settle_block {opener : Text} (h : opener = ['{'] ∨ opener = ['@', '{'])
    (children : List Node) :
    (Node.code opener children false).settle = .code opener (Node.settleAll children) false := by
  rw [Node.settle, Node.settleCode_of_ne]
  rcases h with rfl | rfl <;> decide

theorem settle_directive {opener : Text} (h : opener = ['{'] ∨ opener = ['@', '{']) (header : Text)
    (children : List Node) :
    (Node.code header [.code opener children false] false).settle =
      Node.settleCode header [.code opener (Node.settleAll children) false] false := by
  rw [Node.settle, Node.settleAll, Node.settleAll, settle_block h]

/-- A header and the opener of its block are read as a header and a brace. -/
theorem exists_settleCode {header opener : Text} (hheader : plainHeader header = true)
    (hopener : plainOpener header opener = true) :
    ∃ header' gap, plainHeader header' = true ∧ (gap = [] ∨ gap = [' ']) ∧
      (∀ u, header ++ (' ' :: (opener ++ u)) = header' ++ (gap ++ '{' :: u)) ∧
        ∀ children, Node.settleCode header [.code opener children false] false =
          .code header' [.code ['{'] children false] false := by
  obtain ⟨-, -, hkind⟩ := plainHeader_keyword hheader
  rcases plainOpener_cases hopener with rfl | ⟨rfl, hat⟩
  -- a brace keeps the space before it; an `@` and the space go to the header
  · refine ⟨header, [' '], hheader, Or.inr rfl, fun u => rfl, ?_⟩
    intro children
    rw [Node.settleCode, if_neg fun h => absurd h.2 (by decide)]
  · refine ⟨header ++ [' ', '@'], [], plainHeader_joined hheader hat, Or.inl rfl, ?_, ?_⟩
    · intro u
      simp
    · intro children
      rw [Node.settleCode, if_pos ⟨hkind, rfl⟩]

/-! ## Counting -/

namespace Node

/-- Whether a piece of code is a directive whose block starts with an `@`. -/
def joinsBlock (keyword : Text) : List Node → Bool
  | [.code opener _ _] => CodeKind.ofKeyword keyword == .directive && opener == ['@', '{']
  | _ => false

mutual
/-- The number of directives of a node whose block starts with an `@`. -/
def joins : Node → Nat
  | .markup _ _ children _ => joinsAll children
  | .code keyword children _ => (if joinsBlock keyword children then 1 else 0) + joinsAll children
  | .text _ => 0
  | .comment _ => 0
/-- The number of directives of a forest whose block starts with an `@`. -/
def joinsAll : List Node → Nat
  | [] => 0
  | node :: rest => joins node + joinsAll rest
end

theorem joinsBlock_trimAll (keyword : Text) (children : List Node) :
    joinsBlock keyword (trimAll children) = joinsBlock keyword children := by
  rcases children with _ | ⟨first, _ | ⟨second, others⟩⟩
  · rfl
  · cases first <;> rfl
  · cases first <;> rfl

mutual
/-- Blanks around texts do not change which directives have such a block. -/
theorem joins_trimTexts : ∀ node : Node, joins node.trimTexts = joins node
  | .markup name attributes children selfClosing => by
    rw [trimTexts, joins, joins, joinsAll_trimAll children]
  | .code keyword children selfClosing => by
    rw [trimTexts, joins, joins, joinsBlock_trimAll, joinsAll_trimAll children]
  | .text content => rfl
  | .comment content => rfl
theorem joinsAll_trimAll : ∀ nodes : List Node, joinsAll (trimAll nodes) = joinsAll nodes
  | [] => rfl
  | node :: rest => by
    rw [trimAll, joinsAll, joinsAll, joins_trimTexts node, joinsAll_trimAll rest]
end

mutual
/-- The number of blocks of a node that start with an `@`. -/
def openers : Node → Nat
  | .markup _ _ children _ => openersAll children
  | .code keyword children _ => (if keyword = ['@', '{'] then 1 else 0) + openersAll children
  | .text _ => 0
  | .comment _ => 0
/-- The number of blocks of a forest that start with an `@`. -/
def openersAll : List Node → Nat
  | [] => 0
  | node :: rest => openers node + openersAll rest
end

end Node

theorem plainHeader_ne {header : Text} (h : plainHeader header = true) : header ≠ ['@', '{'] := by
  rintro rfl
  exact absurd (plainHeader_keyword h).2.2 (by decide)

/-! ## Settled plain forests -/

section Settled

variable {extra : List Text} {inBlock : Bool} {forest : List Node}

theorem joins_block {opener : Text} (h : opener = ['{'] ∨ opener = ['@', '{'])
    (children : List Node) :
    Node.joins (.code opener children false) = Node.joinsAll children := by
  have hkind : CodeKind.ofKeyword opener = .block := by rcases h with rfl | rfl <;> decide
  have hjoins : Node.joinsBlock opener children = false := by
    unfold Node.joinsBlock
    split
    · rw [hkind]
      rfl
    · rfl
  rw [Node.joins, hjoins]
  simp

theorem joins_directive {header opener : Text} (hheader : plainHeader header = true)
    (hopener : opener = ['{'] ∨ opener = ['@', '{']) (children : List Node) :
    Node.joins (.code header [.code opener children false] false) =
      (if opener = ['@', '{'] then 1 else 0) + Node.joinsAll children := by
  rw [Node.joins, Node.joinsBlock, (plainHeader_keyword hheader).2.2, Node.joinsAll, Node.joinsAll,
    joins_block hopener]
  simp

theorem openers_directive {header : Text} (hheader : plainHeader header = true) (opener : Text)
    (children : List Node) :
    Node.openers (.code header [.code opener children false] false) =
      (if opener = ['@', '{'] then 1 else 0) + Node.openersAll children := by
  rw [Node.openers, if_neg (plainHeader_ne hheader), Node.openersAll, Node.openersAll, Node.openers]
  omega

/-- A forest in which no header owns such a block is settled. -/
theorem PlainForest.settleAll_eq (h : PlainForest extra inBlock forest)
    (hjoins : Node.joinsAll forest = 0) : Node.settleAll forest = forest := by
  induction h with
  | nil => rfl
  | text _ _ _ ih =>
    rw [Node.joinsAll] at hjoins
    rw [Node.settleAll, Node.settle, ih (by omega)]
  | closed _ _ _ ih =>
    rw [Node.joinsAll] at hjoins
    rw [Node.settleAll, Node.settle, Node.settleAll, ih (by omega)]
  | element _ _ _ _ _ ihc ih =>
    rw [Node.joinsAll, Node.joins] at hjoins
    rw [Node.settleAll, Node.settle, ihc (by omega), ih (by omega)]
  | header _ _ _ ih =>
    rw [Node.joinsAll] at hjoins
    rw [Node.settleAll, ih (by omega)]
    rfl
  | block _ _ ihc ih =>
    rw [Node.joinsAll, joins_block (Or.inr rfl)] at hjoins
    rw [Node.settleAll, settle_block (Or.inr rfl), ihc (by omega), ih (by omega)]
  | @directive _ _ opener _ _ hheader hopener _ _ ihc ih =>
    have hcases := plainOpener_braces hopener
    rw [Node.joinsAll, joins_directive hheader hcases] at hjoins
    have hbrace : opener ≠ ['@', '{'] := by
      intro heq
      rw [if_pos heq] at hjoins
      omega
    rw [Node.settleAll, settle_directive hcases, ihc (by omega), ih (by omega), Node.settleCode,
      if_neg fun hjoins => hbrace hjoins.2]

/-- Settling a forest takes the `@` from each block that a header owns. -/
theorem PlainForest.openersAll_settleAll (h : PlainForest extra inBlock forest) :
    Node.openersAll (Node.settleAll forest) + Node.joinsAll forest = Node.openersAll forest := by
  induction h with
  | nil => rfl
  | text _ _ _ ih =>
    simp only [Node.settleAll, Node.settle, Node.openersAll, Node.openers, Node.joinsAll,
      Node.joins]
    omega
  | closed _ _ _ ih =>
    simp only [Node.settleAll, Node.settle, Node.openersAll, Node.openers, Node.joinsAll,
      Node.joins]
    omega
  | element _ _ _ _ _ ihc ih =>
    simp only [Node.settleAll, Node.settle, Node.openersAll, Node.openers, Node.joinsAll,
      Node.joins]
    omega
  | header _ _ _ ih =>
    simp only [Node.settleAll, Node.settle, Node.settleCode, Node.openersAll, Node.openers,
      Node.joinsAll, Node.joins, Node.joinsBlock, Bool.false_eq_true, if_false]
    omega
  | block _ _ ihc ih =>
    rw [Node.settleAll, settle_block (Or.inr rfl)]
    simp only [Node.openersAll, Node.openers, Node.joinsAll, joins_block (Or.inr rfl)]
    omega
  | directive hheader hopener _ _ ihc ih =>
    have hcases := plainOpener_braces hopener
    obtain ⟨header', gap, hheader', -, -, hsettle⟩ := exists_settleCode hheader hopener
    rw [Node.settleAll, settle_directive hcases, hsettle]
    simp only [Node.openersAll, openers_directive hheader', openers_directive hheader,
      Node.joinsAll, joins_directive hheader hcases]
    -- after settling the block starts with a brace and no longer counts
    rw [if_neg (by decide)]
    omega

/-- Settling does not change what a forest starts with. -/
theorem PlainForest.starts_settleAll (h : PlainForest extra inBlock forest) :
    startsWithText (Node.settleAll forest) = startsWithText forest ∧
      startsWithBlock (Node.settleAll forest) = startsWithBlock forest := by
  cases h with
  | block _ _ =>
    rw [Node.settleAll, settle_block (Or.inr rfl)]
    exact ⟨rfl, rfl⟩
  | directive hheader hopener _ _ =>
    have hcases := plainOpener_braces hopener
    obtain ⟨header', gap, hheader', -, -, hsettle⟩ := exists_settleCode hheader hopener
    rw [Node.settleAll, settle_directive hcases, hsettle, startsWithBlock, startsWithBlock,
      Node.isCode, Node.isCode, (plainHeader_keyword hheader).2.2,
      (plainHeader_keyword hheader').2.2]
    exact ⟨rfl, rfl⟩
  | _ => exact ⟨rfl, rfl⟩

/-- A settled plain forest is plain. -/
theorem PlainForest.settled (h : PlainForest extra inBlock forest) :
    PlainForest extra inBlock (Node.settleAll forest) := by
  induction h with
  | nil => exact .nil
  | text hcontent hrest hplain ih =>
    exact .text hcontent (by rw [hplain.starts_settleAll.1, hrest]) ih
  | closed hname hattributes _ ih => exact .closed hname hattributes ih
  | element hname hattributes hvoid _ _ ihc ih => exact .element hname hattributes hvoid ihc ih
  | header hheader hrest hplain ih =>
    exact .header hheader (by rw [hplain.starts_settleAll.2, hrest]) ih
  | block _ _ ihc ih =>
    rw [Node.settleAll, settle_block (Or.inr rfl)]
    exact .block ihc ih
  | directive hheader hopener _ _ ihc ih =>
    have hcases := plainOpener_braces hopener
    obtain ⟨header', gap, hheader', -, -, hsettle⟩ := exists_settleCode hheader hopener
    rw [Node.settleAll, settle_directive hcases, hsettle]
    exact .directive hheader' rfl ihc ih

end Settled

end RazorTidy
