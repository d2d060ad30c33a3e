import RazorTidy.Text.Basic

/-!
# Byte offsets

Positions in a text are reported as offsets into its UTF-8 encoding. An offset is a cut of the text
only if it lies between two characters; `cut?` finds the two parts and gives nothing for an offset
inside a character or past the end. `cut?_append` says that the parts are the whole text and that
the first one is as long as the offset.
-/

set_option autoImplicit false

namespace RazorTidy.Text

/-- The number of bytes of the UTF-8 encoding of a text. -/
def byteLength : Text → Nat
  | [] => 0
  | c :: r => c.utf8Size + byteLength r

/-- The bytes of the UTF-8 encoding of a text. -/
def bytes (s : Text) : List UInt8 := s.flatMap String.utf8EncodeChar

/-- The two parts of a text at a byte offset that lies between two characters. -/
def cut? : Nat → Text → Option (Text × Text)
  | 0, s => some ([], s)
  | _ + 1, [] => none
  | n + 1, c :: r =>
    if c.utf8Size ≤ n + 1 then
      (cut? (n + 1 - c.utf8Size) r).map fun (front, back) => (c :: front, back)
    else none

theorem byteLength_append (s t : Text) : byteLength (s ++ t) = byteLength s + byteLength t := by
  induction s with
  | nil => simp [byteLength]
  | cons c r ih => rw [List.cons_append, byteLength, byteLength, ih]; omega

theorem cut?_append {n : Nat} {s front back : Text} (h : cut? n s = some (front, back)) :
    front ++ back = s ∧ byteLength front = n := by
  induction s generalizing n front back with
  | nil =>
    cases n with
    | zero => cases h; exact ⟨rfl, rfl⟩
    | succ n => cases h
  | cons c r ih =>
    cases n with
    | zero => cases h; exact ⟨rfl, rfl⟩
    | succ n =>
      rw [cut?] at h
      split at h
      · rename_i hc
        obtain ⟨⟨f, b⟩, hcut, heq⟩ := Option.map_eq_some_iff.1 h
        cases heq
        obtain ⟨happ, hlen⟩ := ih hcut
        refine ⟨by rw [List.cons_append, happ], ?_⟩
        rw [byteLength, hlen]
        omega
      · cases h

/-- A range of byte offsets, from `start` up to but not including `stop`. -/
structure Span where
  start : Nat
  stop : Nat
  deriving DecidableEq, Repr

namespace Span

/-- The number of bytes in the range; a range that runs backwards is empty. -/
def length (r : Span) : Nat := r.stop - r.start

/-- Whether the range holds no byte. -/
def isEmpty (r : Span) : Bool := r.length == 0

/-- The part of a text in the range, if both of its ends are cuts of the text in this order. -/
def slice? (r : Span) (s : Text) : Option Text := do
  let (front, _) ← cut? r.stop s
  let (_, back) ← cut? r.start front
  pure back

end Span

end RazorTidy.Text
