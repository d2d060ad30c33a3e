import RazorTidy.Proofs.OpenComments

/-!
# Code that hides its marks

Between braces, literals and comments hide whatever stands in them: braces, tags, `@`, quotes of the
other kind and the openers of comments. Code that is made of plain characters, closed literals and
closed comments, in any order and without anything between them (`CodePiece`), is passed over as a
whole (`Place.passesOver_spell`). So a block of such code is cut into its two braces
(`Segmentation.segment_codeBlock`), and the closing one is the last character.

Each piece is passed over at any place in code that does not follow a closing brace, whatever comes
behind the piece. Passing over text keeps the place in code, which carries the induction over the
pieces.
-/

set_option autoImplicit false

namespace RazorTidy

/-! ## Pieces of code -/

/-- A character of a literal in the quotes `q`, as it is written. -/
inductive LiteralChar (q : Char) where
  /-- A character that stands for itself. -/
  | plain (c : Char) (hplain : c ≠ q ∧ c ≠ '\\' ∧ c ≠ '\n')
  /-- A backslash with the character it takes. -/
  | escaped (c : Char)

/-- How a character of a literal is written. -/
def LiteralChar.spell {q : Char} : LiteralChar q → Text
  | .plain c _ => [c]
  | .escaped c => ['\\', c]

/-- A piece of code in which marks are hidden. -/
inductive CodePiece where
  /-- A character that is no mark. -/
  | plain (c : Char) (hplain : c ∉ ['{', '}', '<', '@', '"', '\'', '/'])
  /-- A literal in double or single quotes. -/
  | literal (q : Char) (hquote : isQuote q = true) (content : List (LiteralChar q))
  /-- A comment up to the end of its line. -/
  | lineComment (content : Text) (hline : '\n' ∉ content)
  /-- A comment between its delimiters. -/
  | blockComment (content : Text) (hclosed : ¬ ['*', '/'] <:+: content)

namespace CodePiece

/-- How a piece of code is written. -/
def spell : CodePiece → Text
  | .plain c _ => [c]
  | .literal q _ content => q :: (content.flatMap LiteralChar.spell ++ [q])
  | .lineComment content _ => '/' :: '/' :: (content ++ ['\n'])
  | .blockComment content _ => '/' :: '*' :: (content ++ ['*', '/'])

end CodePiece

/-! ## What the look-ahead finds -/

/-- A literal ends at its first quote that no backslash takes. -/
theorem literalRest?_spell {q : Char} (hquote : isQuote q = true) (content : List (LiteralChar q))
    (rest : Text) :
    literalRest? q (content.flatMap LiteralChar.spell ++ q :: rest) =
      some ((content.flatMap LiteralChar.spell).length + 1) := by
  induction content with
  | nil => exact literalRest?_close hquote rest
  | cons char others ih =>
    cases char with
    | plain c hplain =>
      rw [List.flatMap_cons, LiteralChar.spell, List.singleton_append, List.cons_append,
        literalRest?_of_ne hplain.1 hplain.2.1 hplain.2.2, ih]
      rfl
    | escaped c =>
      have hshape : (LiteralChar.escaped c :: others).flatMap (LiteralChar.spell (q := q)) =
          '\\' :: c :: others.flatMap LiteralChar.spell := rfl
      rw [hshape, List.cons_append, List.cons_append, literalRest?, ih]
      rfl

/-- The end of a block comment is the first `*/` in it, also where the content ends with a star. -/
theorem indexOf?_commentEnd {content : Text} (hclosed : ¬ ['*', '/'] <:+: content) (rest : Text) :
    Text.indexOf? ['*', '/'] (content ++ '*' :: '/' :: rest) = some content.length := by
  induction content with
  | nil => rfl
  | cons c r ih =>
    have hr : ¬ ['*', '/'] <:+: r := fun hinfix => hclosed (List.infix_cons hinfix)
    have hstart : (['*', '/'] : Text).isPrefixOf (c :: (r ++ '*' :: '/' :: rest)) = false := by
      rw [← Bool.not_eq_true, List.isPrefixOf_iff_prefix, List.cons_prefix_cons]
      rintro ⟨rfl, hnext⟩
      cases r with
      | nil => simp at hnext
      | cons d others =>
        rw [List.cons_append, List.cons_prefix_cons] at hnext
        obtain ⟨rfl, -⟩ := hnext
        exact hclosed ⟨[], others, rfl⟩
    rw [List.cons_append, Text.indexOf?, hstart, if_neg Bool.false_ne_true, ih hr]
    rfl

/-! ## Passing over code -/

namespace Place

variable {place : Place}

/-- Text in code that starts with none of the marks of tokens is passed over. -/
theorem passesOver_code (hcode : Mode.inCode place.modes = true)
    (hbrace : place.afterBrace = false) {c : Char} {r rest : Text}
    (hc : c ∉ ['<', '@', '{', '}'])
    (hlength : (codeComment? (c :: (r ++ rest))).getD (hiddenAfter c (r ++ rest) + 1) =
      r.length + 1) :
    place.PassesOver (c :: r) rest := by
  have htoken : place.token? (c :: (r ++ rest)) = none := by
    apply token?_of_leadingWord hc
    rw [hbrace, Bool.false_and]
  have hat : c ≠ '@' := by
    rintro rfl
    exact hc (by simp)
  have htext : place.textLength (c :: (r ++ rest)) = (c :: r).length := by
    rw [textLength_of_inCode hcode fun heq => absurd heq hat, hlength, List.length_cons]
  exact Segmentation.segmentFrom_text (List.cons_ne_nil c r) htoken htext

/-- A piece of code is passed over, whatever comes behind it. -/
theorem passesOver_spell (hcode : Mode.inCode place.modes = true)
    (hbrace : place.afterBrace = false) (piece : CodePiece) (rest : Text) :
    place.PassesOver piece.spell rest := by
  cases piece with
  | plain c hplain =>
    simp only [List.mem_cons, List.not_mem_nil, or_false, not_or] at hplain
    obtain ⟨hopen, hclose, htag, hat, hdouble, hsingle, hslash⟩ := hplain
    apply passesOver_code hcode hbrace
    · simp [hopen, hclose, htag, hat]
    · rw [ByteScan.codeComment?_of_ne hslash]
      simp [hiddenAfter, isQuote, hdouble, hsingle]
  | literal q hquote content =>
    have hmarks : q = '"' ∨ q = '\'' := by simpa [isQuote] using hquote
    have hslash : q ≠ '/' := by rcases hmarks with rfl | rfl <;> decide
    apply passesOver_code hcode hbrace
    · rcases hmarks with rfl | rfl <;> decide
    · rw [ByteScan.codeComment?_of_ne hslash, Option.getD_none, hiddenAfter, if_pos hquote,
        List.append_assoc, List.singleton_append, literalRest?_spell hquote, Option.getD_some,
        List.length_append, List.length_singleton]
  | lineComment content hline =>
    -- the comment itself ends before the line end, which is a plain character
    have hcomment : place.PassesOver ('/' :: '/' :: content) (['\n'] ++ rest) := by
      apply passesOver_code hcode hbrace (by decide)
      have htake : (content ++ '\n' :: rest).takeWhile (· != '\n') = content := by
        apply Text.takeWhile_append
        · rw [List.all_eq_true]
          intro c hc
          rw [bne_iff_ne]
          rintro rfl
          exact hline hc
        · rfl
      rw [List.singleton_append, List.cons_append, codeComment?, htake, Option.getD_some,
        List.length_cons]
    have hend : (place.passText ('/' :: '/' :: content)).PassesOver ['\n'] rest := by
      have hbrace' : (place.passText ('/' :: '/' :: content)).afterBrace = false := by
        simp [passText, hbrace]
      have hcode' : Mode.inCode (place.passText ('/' :: '/' :: content)).modes = true := hcode
      apply passesOver_code hcode' hbrace' (by decide)
      rw [ByteScan.codeComment?_of_ne (by decide)]
      rfl
    exact hcomment.append hend
  | blockComment content hclosed =>
    apply passesOver_code hcode hbrace (by decide)
    rw [List.cons_append, List.append_assoc, List.cons_append, List.singleton_append, codeComment?,
      indexOf?_commentEnd hclosed, Option.map_some, Option.getD_some, List.length_cons,
      List.length_append]
    rfl

/-- Pieces of code one after the other are passed over. -/
theorem passesOver_spellAll (pieces : List CodePiece) (rest : Text) :
    ∀ place : Place, Mode.inCode place.modes = true → place.afterBrace = false →
      place.PassesOver (pieces.flatMap CodePiece.spell) rest := by
  induction pieces with
  | nil => exact fun place _ _ => passesOver_nil place rest
  | cons piece others ih =>
    intro place hcode hbrace
    have hrest := ih (place.passText piece.spell) hcode (by simp [passText, hbrace])
    rw [List.flatMap_cons]
    exact (passesOver_spell hcode hbrace piece _).append hrest

end Place

/-! ## Blocks -/

/-- A block of code made of plain characters, closed literals and closed comments is cut into its
two braces. All the code between them is text, and the block ends at the last brace. -/
theorem Segmentation.segment_codeBlock (code : List CodePiece) :
    segment ('@' :: '{' :: (code.flatMap CodePiece.spell ++ ['}'])) =
      ⟨[⟨[], ⟨.braceOpen, ['@', '{']⟩⟩, ⟨code.flatMap CodePiece.spell, ⟨.braceClose, ['}']⟩⟩],
        []⟩ := by
  have hopen : segment (['@', '{'] ++ (code.flatMap CodePiece.spell ++ ['}'])) =
      consToken ⟨.braceOpen, ['@', '{']⟩ (segmentFrom (Place.start.passToken
        ⟨.braceOpen, ['@', '{']⟩) (code.flatMap CodePiece.spell ++ ['}'])) :=
    segmentFrom_token (by simp) rfl rfl
  have hcode := Place.passesOver_spellAll code ['}']
    (Place.start.passToken ⟨.braceOpen, ['@', '{']⟩) rfl rfl
  have hclose : ∀ place : Place,
      segmentFrom place ['}'] = ⟨[⟨[], ⟨.braceClose, ['}']⟩⟩], []⟩ := by
    intro place
    have htoken : segmentFrom place (['}'] ++ []) =
        consToken ⟨.braceClose, ['}']⟩ (segmentFrom (place.passToken ⟨.braceClose, ['}']⟩) []) := by
      refine segmentFrom_token (by simp) ?_ rfl
      simp [Place.token?, Place.tag?, Place.code?, comment?, tag?]
    rw [segmentFrom] at htoken
    exact htoken
  rw [Place.PassesOver] at hcode
  rw [show '@' :: '{' :: (code.flatMap CodePiece.spell ++ ['}']) =
    ['@', '{'] ++ (code.flatMap CodePiece.spell ++ ['}']) from rfl, hopen, hcode, hclose]
  simp [consToken, consText]

end RazorTidy
