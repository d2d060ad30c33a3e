import RazorTidy.Text.Basic

/-!
# ASCII case

Names of elements and continuation keywords are compared without regard to the case of ASCII
letters; all other characters are compared as they stand.
-/

set_option autoImplicit false

namespace RazorTidy.Text

/-- The text with its ASCII capitals made small. -/
def lower (s : Text) : Text := s.map Char.toLower

/-- Whether two texts are equal up to the case of ASCII letters. -/
def sameName (s t : Text) : Bool := lower s == lower t

/-- A capital is made small by adding 32 to it; every other character stays as it is. -/
theorem toLower_cases (c : Char) :
    (65 ≤ c.toNat ∧ c.toNat ≤ 90 ∧ c.toLower.toNat = c.toNat + 32) ∨ c.toLower = c := by
  by_cases hrange : c.val ≥ 'A'.val ∧ c.val ≤ 'Z'.val
  · have hlower : c.toLower.val = c.val + 32 := congrArg Char.val (dif_pos hrange)
    have hge : 65 ≤ c.val.toNat := UInt32.le_iff_toNat_le.1 hrange.1
    have hle : c.val.toNat ≤ 90 := UInt32.le_iff_toNat_le.1 hrange.2
    refine Or.inl ⟨hge, hle, ?_⟩
    show c.toLower.val.toNat = c.val.toNat + 32
    rw [hlower, UInt32.toNat_add, show (32 : UInt32).toNat = 32 from rfl]
    exact Nat.mod_eq_of_lt (by omega)
  · exact Or.inr (dif_neg hrange)

theorem sameName_iff (s t : Text) : sameName s t = true ↔ lower s = lower t := by
  simp [sameName]

theorem sameName_refl (s : Text) : sameName s s = true := by
  simp [sameName]

theorem sameName_comm (s t : Text) : sameName s t = sameName t s := by
  rw [sameName, sameName, Bool.eq_iff_iff, beq_iff_eq, beq_iff_eq, eq_comm]

/-- Lowering keeps the number of characters. -/
theorem length_lower (s : Text) : (lower s).length = s.length := by
  simp [lower]

end RazorTidy.Text
